import Mathlib.Data.List.Basic
import Parlance.Execution.Basic
import Parlance.Proofs.Confluence
import Parlance.Proofs.FreeVariables
import Parlance.Proofs.NormalForm

/-!
# `Proofs.Reduction` — when a lambda is applied makes no difference

A lambda can be applied to its argument when a formula is built, or later on when the formula is executed, after
its body has been reduced. Both ways lead to the same value as long as no variable is captured. Substitution renames
nothing: if it puts an argument below a lambda that binds a variable of the argument, that variable changes its
meaning, and then the two ways can differ.

Reduction without capture is parallel reduction of terms, in which variables are numbers, and what it ends with is
normal. So two reductions of the same term end with the same one, and a formula is known by its term.

## Contents
- **Capture.** `captures` and `reducesSafely`.
- **Terms of formulas.** `toTerm`, and what it makes of a substitution.
- **Reduction.** `reach_reduce?` and `isNormal_toTerm`.
- **Both ways.** What goes wrong with capture, and `execute_join_eq`.
-/

namespace Parlance

namespace Formula

/-! ## Capture -/

mutual
/-- **Whether a lambda captures a variable** of the replacement when the free occurrences of a variable are
replaced. -/
def captures (x : String) (replacement : Formula) : Formula → Bool
  | value _ => false
  | var _ => false
  | join r c => captures x replacement r || captures x replacement c
  | merge _ a b => captures x replacement a || captures x replacement b
  | not c => captures x replacement c
  | lambda y b =>
    y != x && ((hasFree x b && hasFree y replacement) || captures x replacement b)
  | mark _ b => captures x replacement b
  | reverse c => captures x replacement c
  | aggregate _ c => captures x replacement c
  | arithmetic _ a b => captures x replacement a || captures x replacement b
  | superlative _ r k h s =>
    captures x replacement r || captures x replacement k || captures x replacement h ||
      captures x replacement s
  | call f as => captures x replacement f || anyCaptures x replacement as
/-- Whether a lambda in one of several formulas captures a variable of the replacement. -/
def anyCaptures (x : String) (replacement : Formula) : List Formula → Bool
  | [] => false
  | f :: rest => captures x replacement f || anyCaptures x replacement rest
end

/-- **Whether no variable is captured** in a reduction that is given `fuel` nested steps. -/
def reducesSafely : Nat → Formula → Bool
  | 0, _ => true
  | _ + 1, value _ => true
  | _ + 1, var _ => true
  | fuel + 1, join r c =>
    reducesSafely fuel r &&
      match reduce? fuel r with
      | some (lambda x body) => !captures x c body && reducesSafely fuel (substitute x c body)
      | _ => reducesSafely fuel c
  | fuel + 1, merge _ a b => reducesSafely fuel a && reducesSafely fuel b
  | fuel + 1, not c => reducesSafely fuel c
  | fuel + 1, lambda _ b => reducesSafely fuel b
  | fuel + 1, mark _ b => reducesSafely fuel b
  | fuel + 1, reverse c => reducesSafely fuel c
  | fuel + 1, aggregate _ c => reducesSafely fuel c
  | fuel + 1, arithmetic _ a b => reducesSafely fuel a && reducesSafely fuel b
  | fuel + 1, superlative _ r k h s =>
    reducesSafely fuel r && reducesSafely fuel k && reducesSafely fuel h && reducesSafely fuel s
  | fuel + 1, call f as => reducesSafely fuel f && as.all (reducesSafely fuel)

theorem anyCaptures_eq (x : String) (replacement : Formula) (as : List Formula) :
    anyCaptures x replacement as = as.any (captures x replacement) := by
  induction as with
  | nil => rfl
  | cons a as ih => rw [anyCaptures, List.any_cons, ih]

theorem captures_of_isNeutral (x : String) (replacement : Formula) {f : Formula} (h : f.isNeutral = true) :
    captures x replacement f = f.children.any (captures x replacement) := by
  cases f with
  | var y | lambda y b => cases h
  | _ => simp [captures, children, anyCaptures_eq, Bool.or_assoc]

theorem reducesSafely_of_not_isJoin (fuel : Nat) {f : Formula} (h : f.isJoin = false) :
    reducesSafely (fuel + 1) f = f.children.all (reducesSafely fuel) := by
  cases f with
  | join r c => cases h
  | _ => simp [reducesSafely, children, Bool.and_assoc]

/-! ## Terms of formulas -/

/-- What formulas are built with besides lambdas and joins. -/
inductive Part where
  | value (v : Value)
  | free (x : String)
  | merge (m : MergeMode)
  | not
  | mark (x : String)
  | reverse
  | aggregate (m : AggregateMode)
  | arithmetic (m : ArithmeticMode)
  | superlative (m : SuperlativeMode)
  | call
  | none

mutual
/-- The term of a formula below lambdas that bind the given variables, the innermost one first. -/
def toTerm (scope : List String) : Formula → Term Part
  | value v => .const (.value v)
  | var x => if x ∈ scope then .index (scope.idxOf x) else .const (.free x)
  | join r c => .app (toTerm scope r) (toTerm scope c)
  | merge m a b => .pair (.const (.merge m)) (.pair (toTerm scope a) (toTerm scope b))
  | not c => .pair (.const .not) (toTerm scope c)
  | lambda x b => .lam x (toTerm (x :: scope) b)
  | mark x b => .pair (.const (.mark x)) (toTerm scope b)
  | reverse c => .pair (.const .reverse) (toTerm scope c)
  | aggregate m c => .pair (.const (.aggregate m)) (toTerm scope c)
  | arithmetic m a b => .pair (.const (.arithmetic m)) (.pair (toTerm scope a) (toTerm scope b))
  | superlative m r k h s =>
    .pair (.const (.superlative m))
      (.pair (.pair (toTerm scope r) (toTerm scope k)) (.pair (toTerm scope h) (toTerm scope s)))
  | call f as => .pair (.const .call) (.pair (toTerm scope f) (toTerms scope as))
/-- The term of several formulas. -/
def toTerms (scope : List String) : List Formula → Term Part
  | [] => .const .none
  | f :: rest => .pair (toTerm scope f) (toTerms scope rest)
end

mutual
/-- The formula of a term below lambdas that bind the given variables. -/
def ofTerm (scope : List String) : Term Part → Formula
  | .index i => var (scope.getD i "")
  | .const (.value v) => value v
  | .const (.free x) => var x
  | .app t u => join (ofTerm scope t) (ofTerm scope u)
  | .lam x t => lambda x (ofTerm (x :: scope) t)
  | .pair (.const (.merge m)) (.pair t u) => merge m (ofTerm scope t) (ofTerm scope u)
  | .pair (.const .not) t => not (ofTerm scope t)
  | .pair (.const (.mark x)) t => mark x (ofTerm scope t)
  | .pair (.const .reverse) t => reverse (ofTerm scope t)
  | .pair (.const (.aggregate m)) t => aggregate m (ofTerm scope t)
  | .pair (.const (.arithmetic m)) (.pair t u) => arithmetic m (ofTerm scope t) (ofTerm scope u)
  | .pair (.const (.superlative m)) (.pair (.pair t u) (.pair v w)) =>
    superlative m (ofTerm scope t) (ofTerm scope u) (ofTerm scope v) (ofTerm scope w)
  | .pair (.const .call) (.pair t u) => call (ofTerm scope t) (ofTerms scope u)
  | _ => null
/-- The formulas of a term of several formulas. -/
def ofTerms (scope : List String) : Term Part → List Formula
  | .pair t u => ofTerm scope t :: ofTerms scope u
  | _ => []
end

mutual
/-- **A formula is known by its term.** -/
theorem ofTerm_toTerm (scope : List String) (f : Formula) : ofTerm scope (toTerm scope f) = f := by
  cases f with
  | var x =>
    rw [toTerm]
    split
    · rename_i hmem
      rw [ofTerm, List.getD_eq_getElem?_getD,
        List.getElem?_eq_getElem (List.idxOf_lt_length_of_mem hmem), Option.getD_some, List.getElem_idxOf]
    · rw [ofTerm]
  | call f as => rw [toTerm, ofTerm, ofTerm_toTerm scope f, ofTerms_toTerms scope as]
  | value v => rw [toTerm, ofTerm]
  | join r c => rw [toTerm, ofTerm, ofTerm_toTerm scope r, ofTerm_toTerm scope c]
  | merge m a b => rw [toTerm, ofTerm, ofTerm_toTerm scope a, ofTerm_toTerm scope b]
  | not c => rw [toTerm, ofTerm, ofTerm_toTerm scope c]
  | lambda x b => rw [toTerm, ofTerm, ofTerm_toTerm (x :: scope) b]
  | mark x b => rw [toTerm, ofTerm, ofTerm_toTerm scope b]
  | reverse c => rw [toTerm, ofTerm, ofTerm_toTerm scope c]
  | aggregate m c => rw [toTerm, ofTerm, ofTerm_toTerm scope c]
  | arithmetic m a b => rw [toTerm, ofTerm, ofTerm_toTerm scope a, ofTerm_toTerm scope b]
  | superlative m r k h s =>
    rw [toTerm, ofTerm, ofTerm_toTerm scope r, ofTerm_toTerm scope k, ofTerm_toTerm scope h,
      ofTerm_toTerm scope s]
theorem ofTerms_toTerms (scope : List String) (as : List Formula) :
    ofTerms scope (toTerms scope as) = as := by
  cases as with
  | nil => rfl
  | cons a as => rw [toTerms, ofTerms, ofTerm_toTerm scope a, ofTerms_toTerms scope as]
end

theorem toTerm_inj {scope : List String} {f g : Formula} (h : toTerm scope f = toTerm scope g) :
    f = g := by
  rw [← ofTerm_toTerm scope f, h, ofTerm_toTerm]

mutual
/-- A lambda outside that binds a variable which does not occur free, or is bound again further in, only makes
room. -/
theorem toTerm_weaken {x : String} (inner outer : List String) (f : Formula)
    (h : x ∈ inner ∨ hasFree x f = false) :
    toTerm (inner ++ x :: outer) f = (toTerm (inner ++ outer) f).shift inner.length := by
  have part : ∀ {c : Formula}, (hasFree x f = false → hasFree x c = false) →
      x ∈ inner ∨ hasFree x c = false := fun hc => h.imp id hc
  cases f with
  | value v => rfl
  | var y =>
    have hxy : x ∈ inner ∨ ¬ y = x := h.imp id fun h => by simpa [hasFree] using h
    simp only [toTerm, List.mem_append, List.mem_cons]
    by_cases hin : y ∈ inner
    · have hlt := List.idxOf_lt_length_of_mem hin
      simp [hin, Term.shift, List.idxOf_append_of_mem hin, hlt]
    · have hne : ¬ y = x := hxy.elim (fun hx he => hin (he ▸ hx)) id
      by_cases hout : y ∈ outer
      · simp [hin, hout, hne, Term.shift, List.idxOf_append_of_notMem hin, List.idxOf_cons_ne _ (Ne.symm hne),
          Nat.add_assoc]
      · simp [hin, hout, hne, Term.shift]
  | lambda y b =>
    have hb : x ∈ y :: inner ∨ hasFree x b = false := by
      rw [List.mem_cons]
      by_cases hy : y = x
      · exact Or.inl (Or.inl hy.symm)
      · exact (part fun h => by simpa [hasFree, hy] using h).imp Or.inr id
    have hrec := toTerm_weaken (y :: inner) outer b hb
    simp only [toTerm, Term.shift]
    rw [← List.cons_append, hrec]
    rfl
  | join r c =>
    simp only [toTerm, Term.shift, toTerm_weaken inner outer r (part fun h => by simp_all [hasFree]),
      toTerm_weaken inner outer c (part fun h => by simp_all [hasFree])]
  | merge m a b =>
    simp only [toTerm, Term.shift, toTerm_weaken inner outer a (part fun h => by simp_all [hasFree]),
      toTerm_weaken inner outer b (part fun h => by simp_all [hasFree])]
  | not c => simp only [toTerm, Term.shift, toTerm_weaken inner outer c (part fun h => by simp_all [hasFree])]
  | mark y b => simp only [toTerm, Term.shift, toTerm_weaken inner outer b (part fun h => by simp_all [hasFree])]
  | reverse c => simp only [toTerm, Term.shift, toTerm_weaken inner outer c (part fun h => by simp_all [hasFree])]
  | aggregate m c =>
    simp only [toTerm, Term.shift, toTerm_weaken inner outer c (part fun h => by simp_all [hasFree])]
  | arithmetic m a b =>
    simp only [toTerm, Term.shift, toTerm_weaken inner outer a (part fun h => by simp_all [hasFree]),
      toTerm_weaken inner outer b (part fun h => by simp_all [hasFree])]
  | superlative m r k t s =>
    simp only [toTerm, Term.shift, toTerm_weaken inner outer r (part fun h => by simp_all [hasFree]),
      toTerm_weaken inner outer k (part fun h => by simp_all [hasFree]),
      toTerm_weaken inner outer t (part fun h => by simp_all [hasFree]),
      toTerm_weaken inner outer s (part fun h => by simp_all [hasFree])]
  | call f as =>
    simp only [toTerm, Term.shift, toTerm_weaken inner outer f (part fun h => by simp_all [hasFree]),
      toTerms_weaken inner outer as (h.imp id fun h => by simp_all [hasFree])]
theorem toTerms_weaken {x : String} (inner outer : List String) (as : List Formula)
    (h : x ∈ inner ∨ anyHasFree x as = false) :
    toTerms (inner ++ x :: outer) as = (toTerms (inner ++ outer) as).shift inner.length := by
  cases as with
  | nil => rfl
  | cons a as =>
    rw [toTerms, toTerms, Term.shift, toTerm_weaken inner outer a (h.imp id fun h => by simp_all [anyHasFree]),
      toTerms_weaken inner outer as (h.imp id fun h => by simp_all [anyHasFree])]
end

mutual
/-- **Substitution in a formula** is substitution in its term, if nothing is captured. The lambdas that bind `inner`
have been passed, and none of them binds a variable of the replacement. -/
theorem toTerm_substitute {x : String} {replacement : Formula} (inner outer : List String) (f : Formula)
    (hx : x ∉ inner) (hfree : ∀ y ∈ inner, hasFree y replacement = false)
    (h : captures x replacement f = false) :
    toTerm (inner ++ outer) (substitute x replacement f) =
      Term.subst inner.length (toTerm (inner ++ outer) replacement) (toTerm (inner ++ x :: outer) f) := by
  cases f with
  | value v => rfl
  | var y =>
    rw [substitute]
    by_cases hy : y = x
    · subst hy
      simp [toTerm, Term.subst, List.idxOf_append_of_notMem hx]
    · -- another variable keeps its place, one further in if it is bound outside
      have hrest := toTerm_weaken (x := x) inner outer (var y)
        (Or.inr (by simp [hasFree, hy]))
      rw [if_neg hy, hrest, Term.subst_shift]
  | lambda y b =>
    rw [substitute]
    by_cases hy : y = x
    · subst hy
      have hrest := toTerm_weaken (x := y) inner outer (lambda y b)
        (Or.inr (by simp [hasFree]))
      rw [if_pos rfl, hrest, Term.subst_shift]
    · have hne : (y != x) = true := by simpa using hy
      simp only [captures, hne, Bool.true_and, Bool.or_eq_false_iff, Bool.and_eq_false_iff] at h
      rw [if_neg hy]
      by_cases hb : hasFree x b = false
      · have hrest := toTerm_weaken (x := x) inner outer (lambda y b)
          (Or.inr (by simp [hasFree, hb]))
        rw [substitute_of_not_free replacement b hb, hrest, Term.subst_shift]
      · have hyr : hasFree y replacement = false := h.1.resolve_left hb
        have hrec := toTerm_substitute (y :: inner) outer b
          (by simpa [Ne.symm hy] using hx) (by simpa [hyr] using hfree) h.2
        have hroom : toTerm (y :: inner ++ outer) replacement =
            (toTerm (inner ++ outer) replacement).shift 0 :=
          toTerm_weaken [] _ replacement (Or.inr hyr)
        simp only [toTerm, Term.subst]
        rw [← List.cons_append, hrec, hroom]
        rfl
  | join r c =>
    simp only [captures, Bool.or_eq_false_iff] at h
    simp only [substitute, toTerm, Term.subst, toTerm_substitute inner outer r hx hfree h.1,
      toTerm_substitute inner outer c hx hfree h.2]
  | merge m a b =>
    simp only [captures, Bool.or_eq_false_iff] at h
    simp only [substitute, toTerm, Term.subst, toTerm_substitute inner outer a hx hfree h.1,
      toTerm_substitute inner outer b hx hfree h.2]
  | not c => simp only [substitute, toTerm, Term.subst, toTerm_substitute inner outer c hx hfree h]
  | mark y b => simp only [substitute, toTerm, Term.subst, toTerm_substitute inner outer b hx hfree h]
  | reverse c => simp only [substitute, toTerm, Term.subst, toTerm_substitute inner outer c hx hfree h]
  | aggregate m c => simp only [substitute, toTerm, Term.subst, toTerm_substitute inner outer c hx hfree h]
  | arithmetic m a b =>
    simp only [captures, Bool.or_eq_false_iff] at h
    simp only [substitute, toTerm, Term.subst, toTerm_substitute inner outer a hx hfree h.1,
      toTerm_substitute inner outer b hx hfree h.2]
  | superlative m r k t s =>
    simp only [captures, Bool.or_eq_false_iff] at h
    simp only [substitute, toTerm, Term.subst, toTerm_substitute inner outer r hx hfree h.1.1.1,
      toTerm_substitute inner outer k hx hfree h.1.1.2, toTerm_substitute inner outer t hx hfree h.1.2,
      toTerm_substitute inner outer s hx hfree h.2]
  | call f as =>
    simp only [captures, Bool.or_eq_false_iff] at h
    simp only [substitute, toTerm, Term.subst, toTerm_substitute inner outer f hx hfree h.1,
      toTerms_substituteAll inner outer as hx hfree h.2]
theorem toTerms_substituteAll {x : String} {replacement : Formula} (inner outer : List String)
    (as : List Formula) (hx : x ∉ inner) (hfree : ∀ y ∈ inner, hasFree y replacement = false)
    (h : anyCaptures x replacement as = false) :
    toTerms (inner ++ outer) (substituteAll x replacement as) =
      Term.subst inner.length (toTerm (inner ++ outer) replacement) (toTerms (inner ++ x :: outer) as) := by
  cases as with
  | nil => rfl
  | cons a as =>
    simp only [anyCaptures, Bool.or_eq_false_iff] at h
    rw [substituteAll, toTerms, toTerms, Term.subst, toTerm_substitute inner outer a hx hfree h.1,
      toTerms_substituteAll inner outer as hx hfree h.2]
end

/-- A formula without free variables has none that could be captured. -/
theorem captures_of_closed {x : String} {replacement : Formula}
    (hclosed : ∀ y, hasFree y replacement = false) (f : Formula) : captures x replacement f = false := by
  induction f using binding_induction with
  | var y => rfl
  | lambda y b ih => simp [captures, hclosed, ih]
  | neutral f hf ih =>
    rw [captures_of_isNeutral x replacement hf, List.any_eq_false]
    intro c hc
    rw [ih c hc]
    exact Bool.false_ne_true

/-! ## Reduction -/

/-- Some steps of parallel reduction. -/
abbrev Reach : Term Part → Term Part → Prop := Relation.ReflTransGen Term.Par

theorem Reach.pair {t t' u u' : Term Part} (ht : Reach t t') (hu : Reach u u') :
    Reach (.pair t u) (.pair t' u') :=
  (ht.lift (Term.pair · u) fun _ _ h => .pair h (.refl u)).trans
    (hu.lift (Term.pair t') fun _ _ h => .pair (.refl t') h)

theorem Reach.app {t t' u u' : Term Part} (ht : Reach t t') (hu : Reach u u') :
    Reach (.app t u) (.app t' u') :=
  (ht.lift (Term.app · u) fun _ _ h => .app h (.refl u)).trans
    (hu.lift (Term.app t') fun _ _ h => .app (.refl t') h)

theorem Reach.lam {x : String} {t t' : Term Part} (ht : Reach t t') : Reach (.lam x t) (.lam x t') :=
  ht.lift (Term.lam x) fun _ _ h => .lam h

/-- **Applying a lambda** is a step, if nothing is captured. -/
theorem reach_substitute {x : String} {c body : Formula} {scope : List String}
    (h : captures x c body = false) :
    Reach (.app (toTerm scope (lambda x body)) (toTerm scope c)) (toTerm scope (substitute x c body)) := by
  have hsubst := toTerm_substitute [] scope body (by simp) (by simp) h
  simp only [List.nil_append, List.length_nil] at hsubst
  rw [hsubst, toTerm]
  exact .single (.beta (.refl _) (.refl _))

/-- **Reduction without capture** is parallel reduction of terms. -/
theorem reach_reduce? {fuel : Nat} {f r : Formula} (h : reduce? fuel f = some r)
    (hsafe : reducesSafely fuel f = true) (scope : List String) :
    Reach (toTerm scope f) (toTerm scope r) := by
  induction fuel generalizing f r scope with
  | zero => cases h
  | succ fuel ih =>
    cases f with
    | value v =>
      obtain rfl : value v = r := Option.some.inj h
      exact .refl
    | var x =>
      obtain rfl : var x = r := Option.some.inj h
      exact .refl
    | join r c =>
      obtain ⟨r', hr, hrest⟩ := reduce?_join.mp h
      rw [reducesSafely, hr, Bool.and_eq_true] at hsafe
      obtain ⟨hsafer, hsafe⟩ := hsafe
      rcases hrest with ⟨x, body, rfl, hresult⟩ | ⟨hne, c', hc, rfl⟩
      · rw [Bool.and_eq_true, Bool.not_eq_true'] at hsafe
        rw [toTerm]
        exact (Reach.app (ih hr hsafer scope) .refl).trans
          ((reach_substitute hsafe.1).trans (ih hresult hsafe.2 scope))
      · have hsafec : reducesSafely fuel c = true := by
          cases r' with
          | lambda x body => exact absurd rfl (hne x body)
          | _ => exact hsafe
        exact (ih hr hsafer scope).app (ih hc hsafec scope)
    | lambda x b =>
      simp only [reduce?, Option.bind_eq_bind, Option.bind_eq_some_iff, Option.pure_def,
        Option.some.injEq] at h
      obtain ⟨b', hb, rfl⟩ := h
      exact (ih hb hsafe (x :: scope)).lam
    | merge m a b =>
      simp only [reduce?, Option.bind_eq_bind, Option.bind_eq_some_iff, Option.pure_def,
        Option.some.injEq] at h
      obtain ⟨a', ha, b', hb, rfl⟩ := h
      rw [reducesSafely, Bool.and_eq_true] at hsafe
      exact .pair .refl (.pair (ih ha hsafe.1 scope) (ih hb hsafe.2 scope))
    | not c =>
      simp only [reduce?, Option.bind_eq_bind, Option.bind_eq_some_iff, Option.pure_def,
        Option.some.injEq] at h
      obtain ⟨c', hc, rfl⟩ := h
      exact .pair .refl (ih hc hsafe scope)
    | mark x b =>
      simp only [reduce?, Option.bind_eq_bind, Option.bind_eq_some_iff, Option.pure_def,
        Option.some.injEq] at h
      obtain ⟨b', hb, rfl⟩ := h
      exact .pair .refl (ih hb hsafe scope)
    | reverse c =>
      simp only [reduce?, Option.bind_eq_bind, Option.bind_eq_some_iff, Option.pure_def,
        Option.some.injEq] at h
      obtain ⟨c', hc, rfl⟩ := h
      exact .pair .refl (ih hc hsafe scope)
    | aggregate m c =>
      simp only [reduce?, Option.bind_eq_bind, Option.bind_eq_some_iff, Option.pure_def,
        Option.some.injEq] at h
      obtain ⟨c', hc, rfl⟩ := h
      exact .pair .refl (ih hc hsafe scope)
    | arithmetic m a b =>
      simp only [reduce?, Option.bind_eq_bind, Option.bind_eq_some_iff, Option.pure_def,
        Option.some.injEq] at h
      obtain ⟨a', ha, b', hb, rfl⟩ := h
      rw [reducesSafely, Bool.and_eq_true] at hsafe
      exact .pair .refl (.pair (ih ha hsafe.1 scope) (ih hb hsafe.2 scope))
    | superlative m r k t s =>
      simp only [reduce?, Option.bind_eq_bind, Option.bind_eq_some_iff, Option.pure_def,
        Option.some.injEq] at h
      obtain ⟨r', hr, k', hk, t', ht, s', hs, rfl⟩ := h
      simp only [reducesSafely, Bool.and_eq_true] at hsafe
      obtain ⟨⟨⟨hsr, hsk⟩, hst⟩, hss⟩ := hsafe
      exact .pair .refl
        (.pair (.pair (ih hr hsr scope) (ih hk hsk scope)) (.pair (ih ht hst scope) (ih hs hss scope)))
    | call f as =>
      simp only [reduce?, Option.bind_eq_bind, Option.bind_eq_some_iff, Option.pure_def,
        Option.some.injEq] at h
      obtain ⟨f', hf, as', has, rfl⟩ := h
      rw [reducesSafely, Bool.and_eq_true, List.all_eq_true] at hsafe
      refine .pair .refl (.pair (ih hf hsafe.1 scope) ?_)
      have hall := hsafe.2
      clear hsafe
      replace has := mapM_eq_some_iff.mp has
      induction has with
      | nil => exact .refl
      | cons ha _ ihas =>
        exact .pair (ih ha (hall _ List.mem_cons_self) scope)
          (ihas fun b hb => hall b (List.mem_cons_of_mem _ hb))

theorem toTerm_ne_lam {scope : List String} {f : Formula} (h : ∀ x body, f ≠ lambda x body) (x : String)
    (t : Term Part) : toTerm scope f ≠ .lam x t := by
  cases f with
  | lambda x body => exact absurd rfl (h x body)
  | var y =>
    rw [toTerm]
    split <;> simp
  | _ => simp [toTerm]

theorem isNormal_toTerms {scope : List String} {as : List Formula}
    (h : ∀ a ∈ as, (toTerm scope a).IsNormal) : (toTerms scope as).IsNormal := by
  induction as with
  | nil => trivial
  | cons a as ih => exact ⟨h a List.mem_cons_self, ih fun b hb => h b (List.mem_cons_of_mem a hb)⟩

/-- **The term of a normal formula** is normal: no lambda in it is applied. -/
theorem isNormal_toTerm {f : Formula} (h : f.IsNormal) (scope : List String) : (toTerm scope f).IsNormal := by
  induction f using children_induction generalizing scope with
  | step f ih =>
    cases f with
    | value v => trivial
    | var x =>
      rw [toTerm]
      split <;> trivial
    | join r c =>
      obtain ⟨hne, hr, hc⟩ := isNormal_join.mp h
      exact ⟨toTerm_ne_lam hne, ih r (by simp [children]) hr scope, ih c (by simp [children]) hc scope⟩
    | lambda x b =>
      have hb := (isNormal_of_not_isJoin rfl).mp h b (by simp [children])
      exact ih b (by simp [children]) hb (x :: scope)
    | call g as =>
      have hpart := (isNormal_of_not_isJoin rfl).mp h
      have hterm : ∀ c ∈ children (call g as), (toTerm scope c).IsNormal := fun c hc => ih c hc (hpart c hc) scope
      exact ⟨trivial, hterm g List.mem_cons_self, isNormal_toTerms fun a ha => hterm a (List.mem_cons_of_mem g ha)⟩
    | _ =>
      have hpart := (isNormal_of_not_isJoin rfl).mp h
      simp only [children, List.mem_cons, List.not_mem_nil, or_false, forall_eq_or_imp, forall_eq] at hpart ih
      simp [toTerm, Term.IsNormal, hpart, ih]

/-! ## Both ways -/

/-- **Reductions of a join and of its lambda applied** end with the same formula, if the argument has no free
variables and neither of them captures one. -/
theorem reduce?_join_eq {n m : Nat} {l a applied r s : Formula} (hl : l.appliedTo? a = some applied)
    (hclosed : ∀ y, hasFree y a = false) (hjoin : reduce? n (join l a) = some r)
    (happlied : reduce? m applied = some s) (hsafe : reducesSafely n (join l a) = true)
    (hsafe' : reducesSafely m applied = true) : r = s := by
  cases l with
  | lambda x body =>
    obtain rfl : substitute x a body = applied := Option.some.inj hl
    have hstep : Reach (toTerm [] (join (lambda x body) a)) (toTerm [] (substitute x a body)) :=
      reach_substitute (captures_of_closed hclosed body)
    have hlate : Reach (toTerm [] (join (lambda x body) a)) (toTerm [] r) := reach_reduce? hjoin hsafe []
    have heager := hstep.trans (reach_reduce? happlied hsafe' [])
    exact toTerm_inj
      (Term.normal_unique hlate heager (isNormal_toTerm (isNormal_reduce? hjoin) [])
        (isNormal_toTerm (isNormal_reduce? happlied) []))
  | _ => cases hl

end Formula

namespace Execution

open Formula

/-- The value of a formula whose reduction is given `depth` nested steps; an error value says why there is no
other. -/
def valueAt (depth : Nat) (f : Formula) : Value :=
  match evaluateReduced depth f with
  | .ok v => v
  | .error failure => .error failure.message

theorem execute_eq_valueAt (f : Formula) : Executor.arithmetic.execute f = valueAt reductionDepth f := rfl

/-- A lambda which gives its argument to a lambda below which the name of the argument means something else. -/
def capturing : Formula :=
  lambda "x" (join (join (lambda "y" (lambda "x" (var "y"))) (var "x")) (.value (.string "5")))

/-- If a variable is captured, the two ways differ: in the body of the lambda, the argument's name is put below the
lambda that binds the same name, whereas the argument itself has no name to be confused. -/
theorem execute_join_ne :
    (∀ y, hasFree y (.value (.string "1")) = false) ∧
      ((join capturing (.value (.string "1"))).reduce? reductionDepth).isSome = true ∧
      ∃ applied, capturing.appliedTo? (.value (.string "1")) = some applied ∧
        (applied.reduce? reductionDepth).isSome = true ∧
        Executor.arithmetic.execute (join capturing (.value (.string "1"))) = .string "5" ∧
        Executor.arithmetic.execute applied = .string "1" :=
  ⟨fun _ => rfl, rfl, _, rfl, rfl, rfl, rfl⟩

/-- **It makes no difference when a lambda is applied**, before a formula is executed or then, if nothing is
captured on either way. -/
theorem execute_join_eq {n m : Nat} {l a applied : Formula} (hl : l.appliedTo? a = some applied)
    (hclosed : ∀ y, hasFree y a = false) (hjoin : (reduce? n (join l a)).isSome = true)
    (happlied : (reduce? m applied).isSome = true) (hsafe : reducesSafely n (join l a) = true)
    (hsafe' : reducesSafely m applied = true) : valueAt n (join l a) = valueAt m applied := by
  obtain ⟨r, hr⟩ := Option.isSome_iff_exists.mp hjoin
  obtain ⟨s, hs⟩ := Option.isSome_iff_exists.mp happlied
  obtain rfl : r = s := reduce?_join_eq hl hclosed hr hs hsafe hsafe'
  simp only [valueAt, evaluateReduced, hr, hs]

/-- A lambda with another one below it that binds the same variable, where nothing is captured. -/
def twiceBound : Formula :=
  lambda "x" (.call (.value (.ofName ".concat"))
    [join (lambda "x" (var "x")) (var "x"), join (lambda "y" (var "x")) (var "x")])

theorem execute_join_eq_sample :
    (reduce? reductionDepth (join twiceBound (.value (.string "1")))).isSome = true ∧
      reducesSafely reductionDepth (join twiceBound (.value (.string "1"))) = true ∧
      ∃ applied, twiceBound.appliedTo? (.value (.string "1")) = some applied ∧
        (reduce? reductionDepth applied).isSome = true ∧ reducesSafely reductionDepth applied = true ∧
        valueAt reductionDepth (join twiceBound (.value (.string "1"))) = valueAt reductionDepth applied ∧
        Executor.arithmetic.execute applied = .string "11" := by
  have hjoin : (reduce? reductionDepth (join twiceBound (.value (.string "1")))).isSome = true := rfl
  have hsafe : reducesSafely reductionDepth (join twiceBound (.value (.string "1"))) = true := rfl
  refine ⟨hjoin, hsafe, _, rfl, rfl, rfl, ?_, rfl⟩
  exact execute_join_eq rfl (fun _ => rfl) hjoin rfl hsafe rfl

end Execution

end Parlance
