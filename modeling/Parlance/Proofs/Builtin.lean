import Parlance.Proofs.Computation
import Parlance.Proofs.Fold
import Parlance.Proofs.Meet
import Parlance.Proofs.Table
import Parlance.Semantics.Registry

/-!
# `Proofs.Builtin` — which functions keep their meaning in pairs

The rules for two symbols apply a rule's function to two arguments at a time, whereas the rule itself has all of them
at once. The eight functions of the language look at the formulas and types of their children, and at the span if they
read numbers; so they make the same of one or two arguments, if the span is the same. Of more than two arguments
constants, the first child and strung texts are the same in pairs; the other functions either refuse so many, or go
wrong in pairs.

## Contents
- **The functions.** `Builtin`, and that the standard registry builds nothing else.
- **What they look at.** `Builtin.apply_congr`.
- **Folds** of a constant, of the first child and of texts.
- **Rules.** `Builtin.Folds`, what goes wrong without it, and `binarize_sound`.
-/

namespace Parlance

/-! ## The functions -/

/-- **A function of the language.** -/
inductive Builtin where
  | constant (fn : ConstantFn)
  | identity (fn : IdentityFn)
  | select (fn : SelectFn)
  | concat (fn : ConcatFn)
  | number (fn : NumberFn)
  | join (fn : JoinFn)
  | merge (fn : MergeFn)
  | lexicon (fn : LexiconFn)

namespace Builtin

/-- The function as one of a grammar. -/
def toFn : Builtin → SemanticFn
  | constant fn => fn.toFn
  | identity fn => fn.toFn
  | select fn => fn.toFn
  | concat fn => fn.toFn
  | number fn => fn.toFn
  | join fn => fn.toFn
  | merge fn => fn.toFn
  | lexicon fn => fn.toFn

/-- The standard registry builds functions of the language only. -/
theorem exists_of_build {tree : Sexp} {sem : SemanticFn} (h : Registry.standard.build tree = .ok sem) :
    ∃ fn : Builtin, fn.toFn = sem := by
  unfold Registry.build at h
  split at h
  · cases h
  · split at h
    · cases h
    · rename_i reader hreader
      have hmem := Table.mem_of_find hreader
      simp only [Registry.standard, List.mem_cons, Prod.mk.injEq, List.not_mem_nil, or_false] at hmem
      rcases hmem with ⟨-, rfl⟩ | ⟨-, rfl⟩ | ⟨-, rfl⟩ | ⟨-, rfl⟩ | ⟨-, rfl⟩ | ⟨-, rfl⟩ | ⟨-, rfl⟩ | ⟨-, rfl⟩
      all_goals obtain ⟨fn, -, hfn⟩ := map_eq_ok.mp h
      · exact ⟨.constant fn, hfn⟩
      · exact ⟨.identity fn, hfn⟩
      · exact ⟨.select fn, hfn⟩
      · exact ⟨.concat fn, hfn⟩
      · exact ⟨.number fn, hfn⟩
      · exact ⟨.join fn, hfn⟩
      · exact ⟨.merge fn, hfn⟩
      · exact ⟨.lexicon fn, hfn⟩

end Builtin

/-! ## What they look at -/

theorem Child.pass_congr {c c' : Child} (h : c.meaning = c'.meaning) : c.pass = c'.pass := by
  have hf : c.formula = c'.formula := congrArg Prod.fst h
  have ht : c.type = c'.type := congrArg Prod.snd h
  unfold Child.pass
  rw [hf, ht]

/-- Children with the same meanings. -/
def Call.Alike (call call' : Call) : Prop :=
  call.children.map Child.meaning = call'.children.map Child.meaning

namespace Call.Alike

variable {call call' : Call}

theorem length_eq (h : call.Alike call') : call.children.length = call'.children.length := by
  simpa using congrArg List.length h

theorem child (h : call.Alike call') (i : Nat) :
    (∃ c c', call.child i = .ok c ∧ call'.child i = .ok c' ∧ c.meaning = c'.meaning) ∨
      ∃ e, call.child i = .error e ∧ call'.child i = .error e := by
  have hi : (call.children[i]?).map Child.meaning = (call'.children[i]?).map Child.meaning := by
    rw [← List.getElem?_map, ← List.getElem?_map, h]
  unfold Call.child
  cases hc : call.children[i]? with
  | none =>
    rw [hc, Option.map_none, eq_comm, Option.map_eq_none_iff] at hi
    rw [hi, h.length_eq]
    exact Or.inr ⟨_, rfl, rfl⟩
  | some c =>
    rw [hc, Option.map_some, eq_comm, Option.map_eq_some_iff] at hi
    obtain ⟨c', hc', hm⟩ := hi
    rw [hc']
    exact Or.inl ⟨c, c', rfl, rfl, hm.symm⟩

theorem expectChildren (h : call.Alike call') (n : Nat) : call.expectChildren n = call'.expectChildren n := by
  unfold Call.expectChildren
  rw [h.length_eq]

theorem childText (h : call.Alike call') (i : Nat) : call.childText i = call'.childText i := by
  unfold Call.childText
  rcases h.child i with ⟨c, c', hc, hc', hm⟩ | ⟨e, he, he'⟩
  · have hf : c.formula = c'.formula := congrArg Prod.fst hm
    rw [hc, hc']
    show (match c.formula.plain? with | _ => _) = _
    simp [bind, Except.bind, hf]
  · rw [he, he']

end Call.Alike

variable {call call' : Call} {ctx : SemContext} {ex : Example}

theorem IdentityFn.apply_congr (fn : IdentityFn) (h : call.Alike call') : fn.apply call = fn.apply call' := by
  unfold IdentityFn.apply
  rw [h.expectChildren]
  rcases h.child 0 with ⟨c, c', hc, hc', hm⟩ | ⟨e, he, he'⟩
  · have hp : c.pass = c'.pass := Child.pass_congr hm
    rw [hc, hc']
    simp only [bind, Except.bind, pure, Except.pure, hp]
  · rw [he, he']

theorem SelectFn.apply_congr (fn : SelectFn) (h : call.Alike call') : fn.apply call = fn.apply call' := by
  unfold SelectFn.apply
  rcases h.child fn.position with ⟨c, c', hc, hc', hm⟩ | ⟨e, he, he'⟩
  · have hp : c.pass = c'.pass := Child.pass_congr hm
    rw [hc, hc']
    simp only [bind, Except.bind, pure, Except.pure, hp]
  · rw [he, he']

theorem ConcatFn.apply_congr (fn : ConcatFn) (h : call.Alike call') : fn.apply call = fn.apply call' := by
  have htext : call.childText = call'.childText := funext h.childText
  unfold ConcatFn.apply
  rw [h.length_eq, htext]

theorem JoinFn.apply_congr (fn : JoinFn) (h : call.Alike call') : fn.apply ctx call = fn.apply ctx call' := by
  have hparts : fn.parts ctx call = fn.parts ctx call' := by
    unfold JoinFn.parts
    rw [h.expectChildren 1, h.expectChildren 2]
    rcases h.child 0 with ⟨c, c', hc, hc', hm⟩ | ⟨e, he, he'⟩
    · have hf : c.formula = c'.formula := congrArg Prod.fst hm
      have ht : c.type = c'.type := congrArg Prod.snd hm
      rw [hc, hc']
      rcases h.child 1 with ⟨d, d', hd, hd', hm'⟩ | ⟨e, he, he'⟩
      · have hf' : d.formula = d'.formula := congrArg Prod.fst hm'
        have ht' : d.type = d'.type := congrArg Prod.snd hm'
        rw [hd, hd']
        simp only [bind, Except.bind, pure, Except.pure, hf, ht, hf', ht']
      · rw [he, he']
        simp only [bind, Except.bind, pure, Except.pure, hf, ht]
    · rw [he, he']
      simp only [bind, Except.bind]
  unfold JoinFn.apply
  rw [hparts]

theorem MergeFn.apply_congr (fn : MergeFn) (h : call.Alike call') : fn.apply ctx call = fn.apply ctx call' := by
  have hparts : fn.parts ctx call = fn.parts ctx call' := by
    have hlen := h.length_eq
    unfold Call.Alike at h
    unfold MergeFn.parts
    generalize call.children = l at *
    generalize call'.children = l' at *
    match l, l' with
    | [], [] => rfl
    | [c], [c'] =>
      simp only [List.map_cons, List.map_nil, List.cons.injEq, and_true] at h
      have hf : c.formula = c'.formula := congrArg Prod.fst h
      have ht : c.type = c'.type := congrArg Prod.snd h
      simp only [hf, ht]
    | [c, d], [c', d'] =>
      simp only [List.map_cons, List.map_nil, List.cons.injEq, and_true] at h
      have hf : c.formula = c'.formula := congrArg Prod.fst h.1
      have ht : c.type = c'.type := congrArg Prod.snd h.1
      have hf' : d.formula = d'.formula := congrArg Prod.fst h.2
      have ht' : d.type = d'.type := congrArg Prod.snd h.2
      simp only [hf, ht, hf', ht']
    | _ :: _ :: _ :: _, _ :: _ :: _ :: _ => simp only [hlen]
    | [], _ :: _ => simp at hlen
    | _ :: _, [] => simp at hlen
    | [_], _ :: _ :: _ => simp at hlen
    | _ :: _ :: _, [_] => simp at hlen
    | [_, _], _ :: _ :: _ :: _ => simp at hlen
    | _ :: _ :: _ :: _, [_, _] => simp at hlen
  unfold MergeFn.apply
  rw [hparts]

theorem LexiconFn.apply_congr (fn : LexiconFn) (h : call.Alike call') : fn.apply ctx call = fn.apply ctx call' := by
  unfold LexiconFn.apply
  rw [h.childText]

/-- **Calls with the same meanings** have the same results, if they are over the same span or no number is read. -/
theorem Builtin.apply_congr (fn : Builtin) (h : call.Alike call')
    (hspan : (∀ f, fn ≠ .number f) ∨ call.first = call'.first ∧ call.last = call'.last) :
    fn.toFn.apply ctx ex call = fn.toFn.apply ctx ex call' := by
  cases fn with
  | constant fn => rfl
  | identity fn => exact fn.apply_congr h
  | select fn => exact fn.apply_congr h
  | concat fn => exact fn.apply_congr h
  | number fn =>
    obtain ⟨hfirst, hlast⟩ := hspan.resolve_left fun hn => hn fn rfl
    show fn.apply ctx ex call = fn.apply ctx ex call'
    unfold NumberFn.apply
    rw [hfirst, hlast]
  | join fn => exact fn.apply_congr h
  | merge fn => exact fn.apply_congr h
  | lexicon fn => exact fn.apply_congr h

/-! ## Folds -/

variable {first : Nat} {m : Meaning} {cs : List Child} {outs : Outcomes Meaning}

/-- The children of an application to two arguments. -/
theorem Applied.exists_children {sem : SemanticFn} {last : Nat} {m' : Meaning}
    (h : Applied sem ctx ex first last [m, m'] outs) :
    ∃ call c c', call.children = [c, c'] ∧ c.meaning = m ∧ c'.meaning = m' ∧
      outs = mapOk Candidate.meaning (sem.apply ctx ex call).items := by
  obtain ⟨call, -, -, hmeans, rfl⟩ := h
  obtain ⟨c, rest, hchildren, hc, hrest⟩ := List.map_eq_cons_iff.mp hmeans
  obtain ⟨c', rest', rfl, hc', hrest'⟩ := List.map_eq_cons_iff.mp hrest
  obtain rfl := List.map_eq_nil_iff.mp hrest'
  exact ⟨call, c, c', hchildren, hc, hc', rfl⟩

/-- What a constant means. -/
def ConstantFn.meaning (fn : ConstantFn) (ctx : SemContext) : Meaning :=
  (fn.formula, fn.type.getD (ctx.inferType fn.formula))

theorem ConstantFn.leftFold {fn : ConstantFn} (h : LeftFold fn.toFn ctx ex first [.ok m] cs outs) :
    outs = [.ok (if cs = [] then m else fn.meaning ctx)] := by
  induction h with
  | base => rfl
  | step _ heach ih =>
    rw [ih, each_single_iff] at heach
    obtain ⟨call, -, -, -, rfl⟩ := heach
    rw [if_neg (by simp)]
    rfl

theorem SelectFn.leftFold (h : LeftFold (SelectFn.mk 0).toFn ctx ex first [.ok m] cs outs) : outs = [.ok m] := by
  induction h with
  | base => rfl
  | step _ heach ih =>
    rw [ih, each_single_iff] at heach
    obtain ⟨call, c, c', hchildren, rfl, -, rfl⟩ := heach.exists_children
    show mapOk Candidate.meaning ((SelectFn.mk 0).apply call).items = _
    unfold SelectFn.apply Call.child
    rw [hchildren]
    rfl

/-- What a concatenation of two texts means. -/
theorem ConcatFn.applied_pair {fn : ConcatFn} {last : Nat} {m' : Meaning} {s t : String}
    (h : Applied fn.toFn ctx ex first last [m, m'] outs) (hs : m.1.plain? = some s) (ht : m'.1.plain? = some t) :
    outs = [.ok (.ofString (fn.delimiter.intercalate [s, t]), .string)] := by
  obtain ⟨call, c, c', hchildren, rfl, rfl, rfl⟩ := h.exists_children
  have hc : call.childText 0 = .ok s := by
    have hs : c.formula.plain? = some s := hs
    unfold Call.childText Call.child
    rw [hchildren]
    simp [bind, Except.bind, hs, pure, Except.pure]
  have hc' : call.childText 1 = .ok t := by
    have ht : c'.formula.plain? = some t := ht
    unfold Call.childText Call.child
    rw [hchildren]
    simp [bind, Except.bind, ht, pure, Except.pure]
  show mapOk Candidate.meaning (fn.apply call).items = _
  unfold ConcatFn.apply
  rw [hchildren]
  show mapOk Candidate.meaning (Stream.ofExcept (([0, 1].mapM call.childText) >>= _)).items = _
  simp [hc, hc', bind, Except.bind, pure, Except.pure, Stream.ofExcept, Stream.single, Candidate.meaning]

theorem ConcatFn.leftFold {fn : ConcatFn} {text : String} {texts : List String}
    (h : LeftFold fn.toFn ctx ex first [.ok m] cs outs) (hm : m.1.plain? = some text)
    (hcs : cs.map (fun c => c.formula.plain?) = texts.map some) :
    ∃ m', outs = [.ok m'] ∧ m'.1.plain? = some (fn.delimiter.intercalate (text :: texts)) ∧
      (cs ≠ [] → m' = (.ofString (fn.delimiter.intercalate (text :: texts)), .string)) := by
  induction h generalizing texts with
  | base =>
    obtain rfl : texts = [] := by simpa using hcs.symm
    exact ⟨m, rfl, by simpa using hm, fun h => absurd rfl h⟩
  | @step cs c outs outs' _ heach ih =>
    rw [List.map_append, eq_comm] at hcs
    obtain ⟨texts, last, rfl, htexts, hlast⟩ := List.map_eq_append_iff.mp hcs
    obtain ⟨t, rest, rfl, ht, hrest⟩ := List.map_eq_cons_iff.mp hlast
    obtain rfl := List.map_eq_nil_iff.mp hrest
    obtain ⟨m', rfl, hm', -⟩ := ih htexts.symm
    rw [each_single_iff] at heach
    have hpair := ConcatFn.applied_pair heach hm' ht.symm
    have htext : fn.delimiter.intercalate [fn.delimiter.intercalate (text :: texts), t] =
        fn.delimiter.intercalate (text :: (texts ++ [t])) := by
      rw [← List.cons_append, String.intercalate_append_of_ne_nil (by simp) (by simp)]
      simp
    rw [htext] at hpair
    exact ⟨_, hpair, rfl, fun _ => rfl⟩

/-- Texts that are strung together are those of the children. -/
theorem texts_of_mapM {texts : List String}
    (h : (List.range call.children.length).mapM call.childText = .ok texts) :
    call.children.map (fun c => c.formula.plain?) = texts.map some := by
  have hrange := forall₂_of_mapM h
  have hlen : call.children.length = texts.length := by simpa using hrange.length_eq
  refine List.ext_getElem (by simpa using hlen) fun i hi hi' => ?_
  rw [List.length_map] at hi hi'
  have htext := List.Forall₂.get hrange (i := i) (by simpa using hi) hi'
  simp only [List.get_eq_getElem, List.getElem_range] at htext
  unfold Call.childText Call.child at htext
  rw [List.getElem?_eq_getElem hi] at htext
  rw [List.getElem_map, List.getElem_map]
  cases hp : call.children[i].formula.plain? with
  | none => simp [bind, Except.bind, hp, throw, throwThe, MonadExceptOf.throw] at htext
  | some t => simpa [bind, Except.bind, hp, pure, Except.pure] using htext

/-! ## Rules -/

/-- A join without a fixed part takes two children. -/
theorem JoinFn.error_mem_apply (fn : JoinFn) (hbound : fn.toFn.bound = false) (h : call.children.length ≠ 2) :
    .error (.arity 2 call.children.length) ∈ (fn.toFn.apply ctx ex call).items := by
  have harg : fn.arg0 = none := Option.isNone_iff_eq_none.mp (Option.isSome_eq_false_iff.mp hbound)
  have hparts : fn.parts ctx call = .error (.arity 2 call.children.length) := by
    unfold JoinFn.parts Call.expectChildren
    rw [harg, if_neg h]
    rfl
  show _ ∈ (fn.apply ctx call).items
  unfold JoinFn.apply
  rw [hparts]
  exact List.mem_cons_self

/-- A function that does not carry its first argument is folded over the arguments. -/
theorem Rule.computes_fold {rule : Rule} (hbound : rule.sem.bound = false) {first last : Nat} {c d : Child}
    {cs : List Child} {outs : Outcomes Meaning} :
    rule.Computes ctx ex first last (c :: d :: cs) outs ↔
      LeftFold rule.sem ctx ex first [.ok c.meaning] (d :: cs) outs := by
  simp only [Computes, hbound, Bool.false_eq_true, if_false]

/-- Nothing goes wrong. -/
def NoError {α : Type} (outs : Outcomes α) : Prop := ∀ e, .error e ∉ outs

namespace Builtin

/-- **Whether a function keeps its meaning in pairs**, given how many symbols the rule has, the arguments, and where
the span ends. -/
def Folds (fn : Builtin) (symbols : Nat) (args : List Child) (last : Nat) : Prop :=
  match fn with
  | select fn => fn.position = 0 ∨ args.length ≤ 2
  | concat _ => args ≠ [] ∨ symbols = 1
  | number _ => args.length ≤ 1 ∨ ∃ c d, args = [c, d] ∧ d.last = last
  | lexicon _ => args.length ≤ 2
  | _ => True

/-- What a function makes of all arguments at once. -/
def direct (fn : Builtin) (ctx : SemContext) (ex : Example) (first last : Nat) (args : List Child) :
    Outcomes Candidate :=
  (fn.toFn.apply ctx ex ⟨first, last, args⟩).items

/-- **One application to all arguments** is what the function makes of them directly. -/
theorem direct_of_applied {fn : Builtin} {first last last' : Nat} {args : List Child} {outs : Outcomes Meaning}
    (hspan : (∀ f, fn ≠ .number f) ∨ last' = last)
    (h : Applied fn.toFn ctx ex first last' (args.map Child.meaning) outs) :
    outs = mapOk Candidate.meaning (fn.direct ctx ex first last args) := by
  obtain ⟨call, rfl, rfl, hmeans, rfl⟩ := h
  unfold direct
  have halike : call.Alike ⟨call.first, last, args⟩ := hmeans
  rw [fn.apply_congr halike (hspan.imp id fun h => ⟨rfl, h⟩)]

/-- **A left fold over more than two arguments** is what the function makes of them directly. -/
theorem direct_of_leftFold {fn : Builtin} {first last symbols : Nat} {c d e : Child} {cs : List Child}
    {outs : Outcomes Meaning} (hbound : fn.toFn.bound = false)
    (hok : NoError (fn.direct ctx ex first last (c :: d :: e :: cs)))
    (hfolds : fn.Folds symbols (c :: d :: e :: cs) last)
    (h : LeftFold fn.toFn ctx ex first [.ok c.meaning] (d :: e :: cs) outs) :
    outs = mapOk Candidate.meaning (fn.direct ctx ex first last (c :: d :: e :: cs)) := by
  cases fn with
  | constant fn => exact ConstantFn.leftFold h
  | identity fn => exact absurd List.mem_cons_self (hok _)
  | select fn =>
    obtain ⟨p⟩ := fn
    obtain rfl : p = 0 := hfolds.resolve_right (by simp)
    exact SelectFn.leftFold h
  | concat fn =>
    have hdirect : (concat fn).direct ctx ex first last (c :: d :: e :: cs) =
        (Stream.ofExcept ((List.range (cs.length + 3)).mapM
          (Call.childText ⟨first, last, c :: d :: e :: cs⟩) >>= fun parts =>
            .ok { formula := .ofString (fn.delimiter.intercalate parts), type := .string })).items := rfl
    rw [hdirect] at hok ⊢
    cases htexts : (List.range (cs.length + 3)).mapM (Call.childText ⟨first, last, c :: d :: e :: cs⟩) with
    | error e =>
      rw [htexts] at hok
      exact absurd List.mem_cons_self (hok e)
    | ok texts =>
      obtain ⟨text, texts, rfl, hc, hcs⟩ := List.map_eq_cons_iff.mp (texts_of_mapM htexts).symm
      obtain ⟨m, rfl, -, hm⟩ := ConcatFn.leftFold h hc.symm hcs.symm
      rw [hm (by simp)]
      rfl
  | number fn =>
    rcases hfolds with hlen | ⟨_, _, hargs, -⟩
    · simp at hlen
    · simp at hargs
  | join fn =>
    -- a join without a fixed part takes two children
    exact absurd (fn.error_mem_apply hbound (by simp)) (hok _)
  | merge fn => exact absurd List.mem_cons_self (hok _)
  | lexicon fn => exact absurd hfolds (by simp [Folds])

/-- **What a rule for a function computes in pairs** is what the function makes of all arguments at once. -/
theorem direct_of_computes {fn : Builtin} {rule : Rule} (hsem : rule.sem = fn.toFn)
    (hbound : rule.sem.bound = false) {first last : Nat} {args : List Child} {outs : Outcomes Meaning}
    (hok : NoError (fn.direct ctx ex first last args)) (hfolds : fn.Folds rule.rhs.length args last)
    (h : rule.Computes ctx ex first last args outs) :
    outs = mapOk Candidate.meaning (fn.direct ctx ex first last args) := by
  match args with
  | [] =>
    unfold Rule.Computes at h
    rw [hsem] at h
    by_cases hone : rule.rhs.length = 1
    · rw [if_pos hone] at h
      exact direct_of_applied (Or.inr rfl) h
    · -- the null constant only reaches functions that do not look at their children
      rw [if_neg hone] at h
      obtain ⟨call, rfl, rfl, -, rfl⟩ := h
      cases fn with
      | constant fn => rfl
      | number fn => rfl
      | concat fn => exact absurd (hfolds.resolve_left fun h => h rfl) hone
      | identity fn => exact absurd List.mem_cons_self (hok _)
      | select fn => exact absurd List.mem_cons_self (hok _)
      | merge fn => exact absurd List.mem_cons_self (hok _)
      | lexicon fn => exact absurd List.mem_cons_self (hok _)
      | join fn => exact absurd (fn.error_mem_apply (by rwa [hsem] at hbound) (by simp)) (hok _)
  | [c] =>
    unfold Rule.Computes at h
    rw [hsem] at h
    exact direct_of_applied (Or.inr rfl) h
  | [c, d] =>
    rw [Rule.computes_fold hbound, hsem, show [d] = [] ++ [d] from rfl, leftFold_concat_iff] at h
    obtain ⟨base, hbase, heach⟩ := h
    obtain rfl := leftFold_nil_iff.mp hbase
    have happlied := each_single_iff.mp heach
    refine direct_of_applied ?_ happlied
    -- only a number depends on where the span ends
    cases fn with
    | number fn =>
      obtain ⟨_, _, hargs, hlast⟩ := hfolds.resolve_left (by simp)
      obtain ⟨rfl, rfl⟩ : _ ∧ _ := by simpa using hargs
      exact Or.inr hlast
    | _ => exact Or.inl fun _ h => by cases h
  | c :: d :: e :: cs =>
    rw [Rule.computes_fold hbound, hsem] at h
    rw [hsem] at hbound
    exact direct_of_leftFold hbound hok hfolds h

end Builtin

namespace Rule

/-- **Whether what comes out for a rule is what its function makes of the arguments directly**, if that is without
errors and the function keeps its meaning in pairs. -/
def Agrees (rule : Rule) (fn : Builtin) (ctx : SemContext) (ex : Example) (leaves : List Filler)
    (args : List Child) (outs : Outcomes Child) : Prop :=
  NoError (fn.direct ctx ex (Filler.start leaves) (Filler.stop leaves) args) →
    fn.Folds rule.rhs.length args (Filler.stop leaves) →
      mapOk Child.meaning outs =
        mapOk Candidate.meaning (fn.direct ctx ex (Filler.start leaves) (Filler.stop leaves) args)

/-- **The rules for two symbols mean what the rule means.** Let a rule's function be one of the language that does not
carry its first argument, and let none of the rule's symbols be a fresh category that is handed out for it. Then for
all fillers of the slots, words and optional categories or not, there is a derivation; and what comes out by every
derivation is what the function makes of the required categories directly, over the whole span, provided that it makes
no error of them and keeps its meaning in pairs. -/
theorem binarize_sound {rule : Rule} {fn : Builtin} {optionals : List Bool} {n m : Nat} {emitted : List Rule}
    (h : rule.binarize optionals n = .ok (emitted, m)) (hsem : rule.sem = fn.toFn) (hbound : fn.toFn.bound = false)
    (huser : ∀ s ∈ rule.lhs :: rule.rhs, ¬ IsFreshBetween n m s) (ctx : SemContext) (ex : Example) :
    (∀ fill, List.Forall₂ Slot.Admits (rule.slotsOf optionals) fill →
      ∃ outs, Derives emitted (rule.symbolKinds n m) ctx ex rule.lhs fill.reduceOption outs ∧
        rule.Agrees fn ctx ex fill.reduceOption (arguments (rule.slotsOf optionals) fill) outs) ∧
    ∀ leaves outs, Derives emitted (rule.symbolKinds n m) ctx ex rule.lhs leaves outs →
      ∃ fill, List.Forall₂ Slot.Admits (rule.slotsOf optionals) fill ∧ fill.reduceOption = leaves ∧
        rule.Agrees fn ctx ex leaves (arguments (rule.slotsOf optionals) fill) outs := by
  have hall := interprets_binarize h huser ctx ex
  have hbound : rule.sem.bound = false := by rwa [hsem]
  constructor
  · intro fill hfill
    obtain ⟨outs, hd, hcomputes⟩ := hall.complete hfill (reduceOption_ne_nil h hfill)
    exact ⟨outs, hd, fun hok hfolds => Builtin.direct_of_computes hsem hbound hok hfolds hcomputes⟩
  · intro leaves outs hd
    obtain ⟨fill, hfill, rfl, -, hcomputes⟩ := hall.sound hd
    exact ⟨fill, hfill, rfl, fun hok hfolds => Builtin.direct_of_computes hsem hbound hok hfolds hcomputes⟩

theorem binarize_sound_sample :
    ∃ emitted m outs, sampleSum.binarize [false, true, false] 0 = .ok (emitted, m) ∧
      Derives emitted (sampleSum.symbolKinds 0 m) {} default "$Sum"
        [.child (sampleChild "$Term" 0 "b"), .word "and" 1 2, .child (sampleChild "$Term" 2 "c")] outs ∧
      mapOk Child.meaning outs = [.ok (.ofString "b c", .string)] := by
  obtain ⟨⟨emitted, m⟩, h⟩ : ∃ result, sampleSum.binarize [false, true, false] 0 = .ok result := ⟨_, rfl⟩
  have huser : ∀ s ∈ sampleSum.lhs :: sampleSum.rhs, ¬ IsFreshBetween 0 m s := fun s hs hfresh =>
    absurd (isReserved_of_isFreshBetween hfresh)
      ((by decide +kernel : ∀ s ∈ sampleSum.lhs :: sampleSum.rhs, ¬ IsReserved s) s hs)
  have hsem : sampleSum.sem = (Builtin.concat ⟨" "⟩).toFn := rfl
  obtain ⟨hcomplete, -⟩ := binarize_sound h hsem rfl huser {} default
  obtain ⟨outs, hd, hagrees⟩ := hcomplete
    [some (.child (sampleChild "$Term" 0 "b")), some (.word "and" 1 2), some (.child (sampleChild "$Term" 2 "c"))]
    (.cons ⟨rfl, rfl⟩ (.cons ⟨rfl, rfl⟩ (.cons ⟨rfl, rfl⟩ .nil)))
  refine ⟨emitted, m, outs, h, hd, hagrees ?_ (Or.inl (List.cons_ne_nil _ _))⟩
  intro e he
  rw [show Builtin.direct _ _ _ _ _ _ = [Except.ok _] from rfl, List.mem_singleton] at he
  cases he

/-- **Whether the rules for two symbols get another meaning** than the function makes of the arguments directly, which
has one result and no error, by some derivation from the same fillers. -/
def Diverges (rule : Rule) (fn : Builtin) (optionals : List Bool) (ctx : SemContext) (ex : Example)
    (fill : List (Option Filler)) : Prop :=
  rule.sem = fn.toFn ∧ fn.toFn.bound = false ∧ List.Forall₂ Slot.Admits (rule.slotsOf optionals) fill ∧
    ∃ emitted m outs, rule.binarize optionals 0 = .ok (emitted, m) ∧
      Derives emitted (rule.symbolKinds 0 m) ctx ex rule.lhs fill.reduceOption outs ∧
      ∃ result, fn.direct ctx ex (Filler.start fill.reduceOption) (Filler.stop fill.reduceOption)
          (arguments (rule.slotsOf optionals) fill) = [.ok result] ∧
        mapOk Child.formula outs ≠ [.ok result.formula]

/-- A rule of three categories. -/
def ternary (fn : Builtin) : Rule where
  lhs := "$A"
  rhs := ["$B", "$C", "$D"]
  sem := fn.toFn

/-- Three children that mean their texts. -/
def sampleLeaves : List Filler :=
  [.child (sampleChild "$B" 0 "b"), .child (sampleChild "$C" 1 "c"), .child (sampleChild "$D" 2 "d")]

theorem isFreshBetween_one : IsFreshBetween 0 1 "$Intermediate1" := ⟨1, by decide, by decide, rfl⟩

/-- The rule for the first two categories of three. -/
def ternaryPair (fn : Builtin) : Rule := (ternary fn).derive "$Intermediate1" ["$B", "$C"] fn.toFn

/-- The rule for what the first two categories make, and the third one. -/
def ternaryTop (fn : Builtin) : Rule := (ternary fn).derive "$A" ["$Intermediate1", "$D"] fn.toFn

/-- What comes out when two children are put together, and that with a third one. -/
def pairwise (fn : Builtin) (ctx : SemContext) (ex : Example) : Outcomes Candidate :=
  let pair := [sampleChild "$B" 0 "b", sampleChild "$C" 1 "c"]
  onEach (fn.direct ctx ex 0 2 pair) fun r =>
    fn.direct ctx ex 0 3 [(ternaryPair fn).child ⟨0, 2, pair⟩ r, sampleChild "$D" 2 "d"]

/-- The rules of three categories put two children together, and that with a third one. -/
theorem derives_ternary (fn : Builtin) (ctx : SemContext) (ex : Example) :
    ∃ outs, mapOk Child.formula outs = mapOk Candidate.formula (pairwise fn ctx ex) ∧
      Derives [ternaryPair fn, ternaryTop fn] ((ternary fn).symbolKinds 0 1) ctx ex "$A" sampleLeaves outs := by
  have hgiven : ∀ s ∈ ["$B", "$C", "$D"], ((ternary fn).symbolKinds 0 1).given s := fun _ h => h
  have hpair : DerivesAll [ternaryPair fn, ternaryTop fn] ((ternary fn).symbolKinds 0 1) ctx ex ["$B", "$C"]
      _ _ := derivesAll_children (c := sampleChild "$B" 0 "b") (d := sampleChild "$C" 1 "c")
    (hgiven "$B" (by simp)) (hgiven "$C" (by simp)) (by decide +kernel) (by decide +kernel)
  have hd := Derives.rewrite (r := ternaryTop fn) (List.mem_cons_of_mem _ List.mem_cons_self)
    (.expand isFreshBetween_one (.rewrite (r := ternaryPair fn) List.mem_cons_self hpair)
      (.stay (f := .child (sampleChild "$D" 2 "d")) (hgiven "$D" (by simp)) rfl .nil))
  refine ⟨_, ?_, hd⟩
  simp only [pairwise, onEach_ok, onEach_nil, List.append_nil, Filler.child?, Option.toList_some,
    List.singleton_append, mapOk_ok, mapOk_nil, onEach_single, Rule.results, onEach_mapOk, mapOk_onEach, mapOk_mapOk]
  rfl

/-- A rule of three categories diverges if its function does in pairs. -/
theorem diverges_ternary {fn : Builtin} (hbound : fn.toFn.bound = false) {ctx : SemContext} {ex : Example}
    {result : Candidate} (hdirect : fn.direct ctx ex 0 3 (sampleLeaves.filterMap Filler.child?) = [.ok result])
    (hne : mapOk Candidate.formula (pairwise fn ctx ex) ≠ [.ok result.formula]) :
    (ternary fn).Diverges fn [false, false, false] ctx ex (sampleLeaves.map some) := by
  have hemit : (ternary fn).binarize [false, false, false] 0 = .ok ([ternaryPair fn, ternaryTop fn], 1) := by
    unfold binarize
    simp only [ternary, hbound]
    rfl
  obtain ⟨outs, houts, hd⟩ := derives_ternary fn ctx ex
  refine ⟨rfl, hbound, ?_, _, 1, outs, hemit, hd, result, hdirect, houts ▸ hne⟩
  exact .cons ⟨rfl, rfl⟩ (.cons ⟨rfl, rfl⟩ (.cons ⟨rfl, rfl⟩ .nil))

/-- An entity of three tokens. -/
def sampleEntity : Example where
  utterance := "b c d"
  info := {
    tokens := ["b", "c", "d"]
    nerTags := ["NUMBER", "NUMBER", "NUMBER"]
    nerValues := [some "3", some "3", some "3"] }

/-- The entry of a lexicon with one phrase. -/
def sampleEntry : LexicalEntry := ⟨"b", .ofString "entry", .string, []⟩

/-- A context with a lexicon of one phrase. -/
def sampleLexicon : SemContext where
  lexicon := Lexicon.empty.add sampleEntry

/-- Without a restriction all entries of the first text are results. -/
theorem lexicon_direct {tree : Sexp} {ctx : SemContext} {ex : Example} {first last : Nat} {c : Child}
    {args : List Child} {text : String} (entries : List LexicalEntry) (hc : c.formula.plain? = some text)
    (hentries : ctx.lexicon.lookup text = entries) (hvalid : ∀ entry ∈ entries, entry.type.isValid = true) :
    (Builtin.lexicon ⟨.top, tree⟩).direct ctx ex first last (c :: args) =
      entries.map fun entry => .ok (LexiconFn.candidate text entry) := by
  have htext : Call.childText ⟨first, last, c :: args⟩ 0 = .ok text := by
    unfold Call.childText Call.child
    simp [bind, Except.bind, hc, pure, Except.pure]
  have hall : entries.filter (fun entry => (SemType.top.meet ctx.hierarchy entry.type).isValid) = entries :=
    List.filter_eq_self.mpr fun entry he => by rw [SemType.meet_top_left, hvalid entry he]
  show ((LexiconFn.mk .top tree).apply ctx _).items = _
  unfold LexiconFn.apply
  rw [htext]
  dsimp only
  rw [hentries, hall]
  exact List.map_map

theorem diverges_select :
    (ternary (.select ⟨1⟩)).Diverges (.select ⟨1⟩) [false, false, false] {} default (sampleLeaves.map some) := by
  refine diverges_ternary rfl rfl ?_
  show [Except.ok (Formula.ofString "d")] ≠ [.ok (Formula.ofString "c")]
  simp [Formula.ofString]

theorem diverges_number :
    (ternary (.number ⟨none⟩)).Diverges (.number ⟨none⟩) [false, false, false] {} sampleEntity
      (sampleLeaves.map some) := by
  refine diverges_ternary rfl rfl fun h => ?_
  -- the first two tokens alone are no entity
  cases h

theorem diverges_lexicon :
    (ternary (.lexicon ⟨.top, .list []⟩)).Diverges (.lexicon ⟨.top, .list []⟩) [false, false, false] sampleLexicon
      default (sampleLeaves.map some) := by
  refine diverges_ternary rfl (lexicon_direct [sampleEntry] rfl rfl (by decide)) ?_
  dsimp only [pairwise]
  rw [lexicon_direct [sampleEntry] rfl rfl (by decide)]
  simp only [List.map_cons, List.map_nil, onEach_ok, onEach_nil, List.append_nil]
  -- the text of the entry is not a phrase of the lexicon
  rw [lexicon_direct [] (show _ = some "entry" from rfl) rfl (by simp)]
  exact (List.cons_ne_nil _ _).symm

/-- A rule of two words. -/
def wordsOnly : Rule where
  lhs := "$A"
  rhs := ["a", "b"]
  sem := (Builtin.concat ⟨" "⟩).toFn

/-- A rule whose last symbol is a word. -/
def wordLast : Rule where
  lhs := "$A"
  rhs := ["$B", "$C", "d"]
  sem := (Builtin.number ⟨none⟩).toFn

/-- A rule for a category that is handed out as a fresh one, with one symbol that may be left out. -/
def freshLhs : Rule where
  lhs := "$Intermediate1"
  rhs := ["$B", "$B", "$B"]
  sem := (Builtin.concat ⟨" "⟩).toFn

/-- A rule that takes a category that is handed out as a fresh one. -/
def freshRhs : Rule where
  lhs := "$A"
  rhs := ["$Intermediate1", "$Intermediate1", "$Intermediate1"]
  sem := (Builtin.concat ⟨" "⟩).toFn

theorem diverges_wordsOnly : wordsOnly.Diverges (.concat ⟨" "⟩) [false, false] {} default
    [some (.word "a" 0 1), some (.word "b" 1 2)] := by
  refine ⟨rfl, rfl, .cons ⟨rfl, rfl⟩ (.cons ⟨rfl, rfl⟩ .nil), _, 1, _, rfl,
    .rewrite (r := wordsOnly.derive "$A" ["$Intermediate1"] wordsOnly.sem)
      (List.mem_cons_of_mem _ List.mem_cons_self)
      (.expand isFreshBetween_one
        (.rewrite (r := wordsOnly.derive "$Intermediate1" ["a", "b"] ConstantFn.null.toFn) List.mem_cons_self
          (.stay (f := .word "a" 0 1) List.mem_cons_self rfl
            (.stay (f := .word "b" 1 2) (show "b" ∈ _ by decide +kernel) rfl .nil)))
        .nil),
    _, rfl, ?_⟩
  show [Except.ok (Formula.ofString "null")] ≠ [.ok (Formula.ofString "")]
  simp [Formula.ofString]

theorem diverges_wordLast : wordLast.Diverges (.number ⟨none⟩) [false, false, false] {} sampleEntity
    [some (.child (sampleChild "$B" 0 "b")), some (.child (sampleChild "$C" 1 "c")), some (.word "d" 2 3)] := by
  refine ⟨rfl, rfl, .cons ⟨rfl, rfl⟩ (.cons ⟨rfl, rfl⟩ (.cons ⟨rfl, rfl⟩ .nil)), _, 1, _, rfl,
    .rewrite (r := wordLast.derive "$A" ["$Intermediate1", "d"] (SelectFn.mk 0).toFn)
      (List.mem_cons_of_mem _ List.mem_cons_self)
      (.expand isFreshBetween_one
        (.rewrite (r := wordLast.derive "$Intermediate1" ["$B", "$C"] wordLast.sem) List.mem_cons_self
          (.stay (f := .child (sampleChild "$B" 0 "b")) List.mem_cons_self rfl
            (.stay (f := .child (sampleChild "$C" 1 "c")) (show "$C" ∈ _ by decide +kernel) rfl .nil)))
        (.stay (f := .word "d" 2 3) (show "d" ∈ _ by decide +kernel) rfl .nil)),
    _, rfl, ?_⟩
  intro h
  cases h

theorem diverges_freshLhs : freshLhs.Diverges (.concat ⟨" "⟩) [false, true, false] {} default
    [some (.child (sampleChild "$B" 0 "b")), some (.child (sampleChild "$B" 1 "c")),
      some (.child (sampleChild "$B" 2 "d"))] := by
  refine ⟨rfl, rfl, .cons ⟨rfl, rfl⟩ (.cons ⟨rfl, rfl⟩ (.cons ⟨rfl, rfl⟩ .nil)), _, 1, _, rfl,
    .rewrite (r := freshLhs.derive "$Intermediate1" ["$Intermediate1", "$B"] freshLhs.sem)
      (List.mem_cons_of_mem _ (List.mem_cons_of_mem _ List.mem_cons_self))
      (.expand isFreshBetween_one
        (.rewrite (r := freshLhs.derive "$Intermediate1" ["$Intermediate1", "$B"] freshLhs.sem)
          (List.mem_cons_of_mem _ (List.mem_cons_of_mem _ List.mem_cons_self))
          (.expand isFreshBetween_one
            (.rewrite (r := freshLhs.derive "$Intermediate1" ["$B"] (SelectFn.mk 0).toFn) List.mem_cons_self
              (.stay (f := .child (sampleChild "$B" 0 "b")) List.mem_cons_self rfl .nil))
            (.stay (f := .child (sampleChild "$B" 1 "c")) List.mem_cons_self rfl .nil)))
        (.stay (f := .child (sampleChild "$B" 2 "d")) List.mem_cons_self rfl .nil)),
    _, rfl, ?_⟩
  show [Except.ok (Formula.ofString "b c d")] ≠ [.ok (Formula.ofString "b d")]
  simp [Formula.ofString]

theorem diverges_freshRhs : freshRhs.Diverges (.concat ⟨" "⟩) [false, false, true] {} default
    [some (.child (sampleChild "$Intermediate1" 0 "b")), some (.child (sampleChild "$Intermediate1" 1 "c")),
      some (.child (sampleChild "$Intermediate1" 2 "d"))] := by
  refine ⟨rfl, rfl, .cons ⟨rfl, rfl⟩ (.cons ⟨rfl, rfl⟩ (.cons ⟨rfl, rfl⟩ .nil)), _, 1, _, rfl,
    .rewrite (r := freshRhs.derive "$A" ["$Intermediate1", "$Intermediate1"] (SelectFn.mk 0).toFn)
      (List.mem_cons_of_mem _ (List.mem_cons_of_mem _ List.mem_cons_self))
      (.stay (f := .child (sampleChild "$Intermediate1" 0 "b")) List.mem_cons_self rfl
        (.expand isFreshBetween_one
          (.rewrite (r := freshRhs.derive "$Intermediate1" ["$Intermediate1", "$Intermediate1"] freshRhs.sem)
            List.mem_cons_self
            (.stay (f := .child (sampleChild "$Intermediate1" 1 "c")) List.mem_cons_self rfl
              (.stay (f := .child (sampleChild "$Intermediate1" 2 "d")) List.mem_cons_self rfl .nil)))
          .nil)),
    _, rfl, ?_⟩
  show [Except.ok (Formula.ofString "b")] ≠ [.ok (Formula.ofString "b c")]
  simp [Formula.ofString]

/-- Without the conditions the meaning may change. An inner argument is not selected, no text at all becomes the null
constant's, a part of an entity is no number, what a lexicon found is looked up again, and fresh categories that
are symbols of the rule allow other derivations. -/
theorem binarize_sound_not :
    (ternary (.select ⟨1⟩)).Diverges (.select ⟨1⟩) [false, false, false] {} default (sampleLeaves.map some) ∧
    wordsOnly.Diverges (.concat ⟨" "⟩) [false, false] {} default [some (.word "a" 0 1), some (.word "b" 1 2)] ∧
    (ternary (.number ⟨none⟩)).Diverges (.number ⟨none⟩) [false, false, false] {} sampleEntity
      (sampleLeaves.map some) ∧
    wordLast.Diverges (.number ⟨none⟩) [false, false, false] {} sampleEntity
      [some (.child (sampleChild "$B" 0 "b")), some (.child (sampleChild "$C" 1 "c")), some (.word "d" 2 3)] ∧
    (ternary (.lexicon ⟨.top, .list []⟩)).Diverges (.lexicon ⟨.top, .list []⟩) [false, false, false] sampleLexicon
      default (sampleLeaves.map some) ∧
    freshLhs.Diverges (.concat ⟨" "⟩) [false, true, false] {} default
      [some (.child (sampleChild "$B" 0 "b")), some (.child (sampleChild "$B" 1 "c")),
        some (.child (sampleChild "$B" 2 "d"))] ∧
    freshRhs.Diverges (.concat ⟨" "⟩) [false, false, true] {} default
      [some (.child (sampleChild "$Intermediate1" 0 "b")), some (.child (sampleChild "$Intermediate1" 1 "c")),
        some (.child (sampleChild "$Intermediate1" 2 "d"))] :=
  ⟨diverges_select, diverges_wordsOnly, diverges_number, diverges_wordLast, diverges_lexicon, diverges_freshLhs,
    diverges_freshRhs⟩

end Rule

end Parlance
