import Parlance.Execution.Arithmetic
import Parlance.Proofs.Reduction
import Parlance.Typing.Inference

/-!
# `Proofs.Termination` — which reductions end

Inference narrows the type of a variable by each of its uses and never asks whether the uses fit together. So a
variable may be applied to itself, and a formula with a type need not have a value: a lambda that applies its argument
to itself, applied to itself, is reduced for ever. To give each lambda a type of its own is not enough either, because
substitution renames nothing: a variable put below a lambda that binds the same name is from then on the variable of
that lambda, and may end up applied to itself although it never was before.

A reduction ends if every lambda has a simple type for its variable, and a name that is captured has only one of
them: then a captured variable has the type that it had before, and no step of a reduction makes a formula ill-typed.
What is put in the place of a variable can be applied there, but only to arguments of smaller types, and so the
reductions that this gives rise to end by induction on the type. That covers formulas with one type for each name,
whatever is captured, and formulas with one type for each lambda of which no variable is captured.

## Contents
- **Endless reductions.** Two formulas that have a type, and whose reduction has no end.
- **Reductions that end.** `Halts`, by the kinds of formulas.
- **Simple types.** `SimpleType`, `HasType` with one for each name, and `HasLocalType` with one for each lambda.
- **Captured names.** `ReachesCapture`, and what substitution and reduction keep without it.
- **Formulas with simple types.** `halts_substitute` by induction on types, and so `halts_of_hasLocalType`.
- **Execution.** `exists_evaluateReduced_eq`, and `exists_evaluateReduced_eq_of_safe`.
-/

namespace Parlance

namespace Formula

variable {f g r c b : Formula} {n m : Nat} {x : String}

/-! ## Endless reductions -/

/-- A join to which its own reduction comes back is never reduced to an end. -/
theorem reduce?_eq_none_of_returns (hr : reduce? n r = some (lambda x b)) (hback : substitute x c b = join r c)
    (m : Nat) : reduce? m (join r c) = none := by
  induction m with
  | zero => rfl
  | succ m ih =>
    cases h : reduce? (m + 1) (join r c) with
    | none => rfl
    | some g =>
      obtain ⟨r', hr', ⟨y, e, rfl, he⟩ | ⟨hne, -⟩⟩ := reduce?_join.mp h
      · obtain ⟨rfl, rfl⟩ := lambda.inj (reduce?_unique hr hr')
        rw [hback, ih] at he
        cases he
      · exact absurd (reduce?_unique hr' hr) (hne x b)

/-- Applies its argument to itself. -/
def selfApplication : Formula := lambda "x" (join (var "x") (var "x"))

/-- Applies its argument to what it is applied to next. Both lambdas that bind `y` could have a type, but they would
have different ones: the inner one captures the argument of the outer one. -/
def capturedApplication : Formula :=
  lambda "y" (join (lambda "x" (lambda "y" (join (var "x") (var "y")))) (var "y"))

/-- A relation whose argument is captured. -/
def capturedRelation : Formula := join capturedApplication (ofName "fb:people.person.parent")

theorem reduce?_capturedRelation (m : Nat) : reduce? m (join capturedRelation capturedRelation) = none := by
  have hself : reduce? 8 capturedRelation = some (lambda "y" (join (var "y") (var "y"))) := rfl
  exact reduce?_eq_none_of_returns hself rfl m

/-- **A formula with a type need not have a value**: inference accepts a lambda that is applied to itself for ever, and
also a formula in which a variable is applied to itself only once it has been captured. -/
theorem inferType_endless :
    ((Typing.inferType ⟨.nothing, .standard, false⟩ (join selfApplication selfApplication)).isValid = true ∧
        ∀ m, reduce? m (join selfApplication selfApplication) = none) ∧
      (Typing.inferType ⟨.nothing, .standard, false⟩ (join capturedRelation capturedRelation)).isValid = true ∧
        ∀ m, reduce? m (join capturedRelation capturedRelation) = none := by
  refine ⟨⟨by decide +kernel, ?_⟩, by decide +kernel, reduce?_capturedRelation⟩
  have hself : reduce? 3 selfApplication = some selfApplication := rfl
  exact reduce?_eq_none_of_returns hself rfl

/-! ## Reductions that end -/

/-- **Whether a reduction ends**, in however many nested steps. -/
def Halts (f : Formula) : Prop := ∃ n g, reduce? n f = some g

/-- Reductions that end all end in some number of nested steps. -/
theorem exists_common_depth {k : Formula → Formula} {cs : List Formula}
    (h : ∀ c ∈ cs, ∃ n, reduce? n c = some (k c)) : ∃ n, ∀ c ∈ cs, reduce? n c = some (k c) := by
  induction cs with
  | nil => exact ⟨0, by simp⟩
  | cons d cs ih =>
    obtain ⟨n, hn⟩ := ih fun c hc => h c (List.mem_cons_of_mem _ hc)
    obtain ⟨m, hm⟩ := h d List.mem_cons_self
    refine ⟨max n m, ?_⟩
    rintro c (_ | ⟨_, hc⟩)
    · exact reduce?_mono hm (Nat.le_max_right n m)
    · exact reduce?_mono (hn c hc) (Nat.le_max_left n m)

theorem reduce?_children {k : Formula → Formula} (hf : f.isJoin = false)
    (h : ∀ c ∈ f.children, ∃ n, reduce? n c = some (k c)) :
    ∃ n, reduce? n f = some (f.withChildren (f.children.map k)) := by
  obtain ⟨n, hn⟩ := exists_common_depth h
  refine ⟨n + 1, (reduce?_of_not_isJoin hf).mpr ⟨_, ?_, rfl⟩⟩
  rw [List.forall₂_map_right_iff, List.forall₂_same]
  exact hn

theorem halts_of_not_isJoin (hf : f.isJoin = false) (h : ∀ c ∈ f.children, c.Halts) : f.Halts := by
  have hresult : ∀ c ∈ f.children, ∃ g n, reduce? n c = some g := fun c hc => exists_comm.mp (h c hc)
  choose! k hk using hresult
  obtain ⟨n, hn⟩ := reduce?_children hf hk
  exact ⟨n, _, hn⟩

theorem halts_join_apply (hr : reduce? n r = some (lambda x b)) (h : (substitute x c b).Halts) :
    (join r c).Halts := by
  obtain ⟨m, g, hm⟩ := h
  have hr' := reduce?_mono hr (Nat.le_max_left n m)
  have hm' := reduce?_mono hm (Nat.le_max_right n m)
  exact ⟨max n m + 1, g, reduce?_join.mpr ⟨_, hr', .inl ⟨x, b, rfl, hm'⟩⟩⟩

theorem exists_reduce?_join {r' c' : Formula} (hr : reduce? n r = some r') (hne : ∀ x b, r' ≠ lambda x b)
    (hc : reduce? m c = some c') : ∃ k, reduce? k (join r c) = some (join r' c') := by
  have hr' := reduce?_mono hr (Nat.le_max_left n m)
  have hc' := reduce?_mono hc (Nat.le_max_right n m)
  exact ⟨max n m + 1, reduce?_join.mpr ⟨r', hr', .inr ⟨hne, c', hc', rfl⟩⟩⟩

/-- A normal formula is reduced to itself. -/
theorem exists_reduce?_self (h : f.IsNormal) : ∃ n, reduce? n f = some f := by
  induction f using children_induction with
  | step f ih =>
    by_cases hf : f.isJoin = true
    · obtain ⟨r, c, rfl⟩ := exists_of_isJoin hf
      obtain ⟨hne, hr, hc⟩ := isNormal_join.mp h
      obtain ⟨n, hn⟩ := ih r (by simp [children]) hr
      obtain ⟨m, hm⟩ := ih c (by simp [children]) hc
      exact exists_reduce?_join hn hne hm
    · rw [Bool.not_eq_true] at hf
      have hchildren := (isNormal_of_not_isJoin hf).mp h
      simpa using reduce?_children (k := id) hf fun c hc => ih c hc (hchildren c hc)

/-! ## Simple types -/

/-- A simple type: of a formula that is never applied, or of a function. -/
inductive SimpleType where
  | base
  | arrow (argument result : SimpleType)

/-- **A formula has a simple type**, given one for each name. A join applies its relation to its child. Nothing but
variables, lambdas and joins can become a lambda, so any other formula may have whatever type is asked of it. -/
inductive HasType (types : String → SimpleType) : Formula → SimpleType → Prop
  | var (x : String) : HasType types (var x) (types x)
  | lambda (x : String) {b : Formula} {t : SimpleType} (hb : HasType types b t) :
    HasType types (lambda x b) (.arrow (types x) t)
  | join {r c : Formula} {s t : SimpleType} (hr : HasType types r (.arrow s t)) (hc : HasType types c s) :
    HasType types (join r c) t
  | other {f : Formula} (hneutral : f.isNeutral = true) (hjoin : f.isJoin = false) (part : Formula → SimpleType)
    (hparts : ∀ c ∈ f.children, HasType types c (part c)) (t : SimpleType) : HasType types f t

/-- **A formula has a simple type**, given one for each free variable, where a lambda whose name `varies` has a type of
its own for its variable and any other lambda that of its name. -/
inductive HasLocalType (varies : String → Prop) : (String → SimpleType) → Formula → SimpleType → Prop
  | var (types : String → SimpleType) (x : String) : HasLocalType varies types (var x) (types x)
  | lambda {types : String → SimpleType} (x : String) {b : Formula} {s t : SimpleType} (hs : varies x ∨ s = types x)
    (hb : HasLocalType varies (Function.update types x s) b t) : HasLocalType varies types (lambda x b) (.arrow s t)
  | join {types : String → SimpleType} {r c : Formula} {s t : SimpleType}
    (hr : HasLocalType varies types r (.arrow s t)) (hc : HasLocalType varies types c s) :
    HasLocalType varies types (join r c) t
  | other {types : String → SimpleType} {f : Formula} (hneutral : f.isNeutral = true) (hjoin : f.isJoin = false)
    (part : Formula → SimpleType) (hparts : ∀ c ∈ f.children, HasLocalType varies types c (part c))
    (t : SimpleType) : HasLocalType varies types f t

variable {varies : String → Prop} {types types' : String → SimpleType} {s t : SimpleType}

theorem hasType_var (h : HasType types (var x) t) : t = types x := by
  cases h with
  | var => rfl
  | other hneutral => cases hneutral

theorem hasType_lambda (h : HasType types (lambda x b) t) : ∃ s, t = .arrow (types x) s ∧ HasType types b s := by
  cases h with
  | lambda _ hb => exact ⟨_, rfl, hb⟩
  | other hneutral => cases hneutral

/-- With one type for each name there is one for each lambda, and no name varies. -/
theorem HasType.hasLocalType (h : HasType types f t) : HasLocalType (fun _ => False) types f t := by
  induction h with
  | var x => exact .var types x
  | lambda x _ ih => exact .lambda x (.inr rfl) (by rwa [Function.update_eq_self])
  | join _ _ ihr ihc => exact .join ihr ihc
  | other hneutral hjoin part _ t ih => exact .other hneutral hjoin part ih t

/-- What is neither a variable nor a lambda nor a join has any type over other subformulas that have one. -/
theorem hasLocalType_withChildren {cs : List Formula} (hneutral : f.isNeutral = true) (hjoin : f.isJoin = false)
    (hlength : cs.length = f.children.length) (hcs : ∀ c ∈ cs, ∃ s, HasLocalType varies types c s)
    (t : SimpleType) : HasLocalType varies types (f.withChildren cs) t := by
  have : Nonempty SimpleType := ⟨.base⟩
  choose! part hpart using hcs
  refine .other (by rw [isNeutral_withChildren, hneutral]) (by rw [isJoin_withChildren, hjoin]) part ?_ t
  rwa [children_withChildren hlength]

/-- Only the types of free variables and of names that do not vary matter. -/
theorem HasLocalType.congr (h : HasLocalType varies types f t)
    (hagree : ∀ x, hasFree x f = true ∨ ¬varies x → types' x = types x) : HasLocalType varies types' f t := by
  induction h generalizing types' with
  | var types x =>
    rw [← hagree x (.inl (by simp [hasFree]))]
    exact .var types' x
  | @lambda types x b s t hs _ ih =>
    refine .lambda x ?_ (ih ?_)
    · by_cases hx : varies x
      · exact .inl hx
      · rw [hagree x (.inr hx)]
        exact hs
    · intro y hy
      by_cases hxy : y = x
      · rw [hxy, Function.update_self, Function.update_self]
      · rw [Function.update_of_ne hxy, Function.update_of_ne hxy]
        exact hagree y (hy.imp_left fun hb => by simp [hasFree, hb, Ne.symm hxy])
  | join _ _ ihr ihc =>
    refine .join (ihr ?_) (ihc ?_)
    · intro x hx
      exact hagree x (hx.imp_left fun hr => by simp [hasFree, hr])
    · intro x hx
      exact hagree x (hx.imp_left fun hc => by simp [hasFree, hc])
  | @other types f hneutral hjoin part _ t ih =>
    refine .other hneutral hjoin part (fun c hc => ih c hc ?_) t
    intro x hx
    refine hagree x (hx.imp_left fun hfree => ?_)
    rw [hasFree_of_isNeutral x hneutral]
    exact List.any_eq_true.mpr ⟨c, hc, hfree⟩

/-- The type of a name does not matter to a formula in which it is not free, nor if it is the one that it has. -/
theorem hasLocalType_update (hs : varies x ∨ s = types x) (hfree : hasFree x f = true → ¬varies x) :
    HasLocalType varies (Function.update types x s) f t ↔ HasLocalType varies types f t := by
  have hagree : ∀ y, hasFree y f = true ∨ ¬varies y → Function.update types x s y = types y := by
    intro y hy
    by_cases hyx : y = x
    · subst hyx
      rw [Function.update_self]
      exact hs.resolve_left (hy.elim hfree id)
    · rw [Function.update_of_ne hyx]
  exact ⟨fun h => h.congr fun y hy => (hagree y hy).symm, fun h => h.congr hagree⟩

/-! ## Captured names -/

/-- **A lambda captures a name that varies** when the free occurrences of a variable are replaced. -/
inductive CapturesVarying (varies : String → Prop) (x : String) (replacement : Formula) : Formula → Prop
  | here {y : String} {b : Formula} (hne : y ≠ x) (hx : hasFree x b = true) (hy : hasFree y replacement = true)
    (hvaries : varies y) : CapturesVarying varies x replacement (lambda y b)
  | under {y : String} {b : Formula} (hne : y ≠ x) (hb : CapturesVarying varies x replacement b) :
    CapturesVarying varies x replacement (lambda y b)
  | part {f c : Formula} (hneutral : f.isNeutral = true) (hc : c ∈ f.children)
    (h : CapturesVarying varies x replacement c) : CapturesVarying varies x replacement f

/-- **A reduction comes to capture a name that varies.** The child of a join is reduced only where its relation has not
become a lambda. -/
inductive ReachesCapture (varies : String → Prop) : Formula → Prop
  | relation {r c : Formula} (h : ReachesCapture varies r) : ReachesCapture varies (join r c)
  | now {n : Nat} {r c b : Formula} {x : String} (hr : reduce? n r = some (lambda x b))
    (h : CapturesVarying varies x c b) : ReachesCapture varies (join r c)
  | later {n : Nat} {r c b : Formula} {x : String} (hr : reduce? n r = some (lambda x b))
    (h : ReachesCapture varies (substitute x c b)) : ReachesCapture varies (join r c)
  | child {n : Nat} {r c r' : Formula} (hr : reduce? n r = some r') (hne : ∀ x b, r' ≠ lambda x b)
    (h : ReachesCapture varies c) : ReachesCapture varies (join r c)
  | part {f c : Formula} (hjoin : f.isJoin = false) (hc : c ∈ f.children) (h : ReachesCapture varies c) :
    ReachesCapture varies f

theorem captures_of_capturesVarying (h : CapturesVarying varies x c b) : captures x c b = true := by
  induction h with
  | here hne hx hy _ => simp [captures, hne, hx, hy]
  | under hne _ ih => simp [captures, hne, ih]
  | part hneutral hc _ ih =>
    rw [captures_of_isNeutral _ _ hneutral]
    exact List.any_eq_true.mpr ⟨_, hc, ih⟩

/-- A capture that a reduction comes to is found with enough nested steps. -/
theorem exists_reducesSafely_eq_false (h : ReachesCapture varies f) :
    ∃ N, ∀ n, N ≤ n → reducesSafely n f = false := by
  have hsucc : ∀ {f : Formula} (N : Nat), (∀ n, N ≤ n → reducesSafely (n + 1) f = false) →
      ∃ N, ∀ n, N ≤ n → reducesSafely n f = false := by
    intro f N hN
    refine ⟨N + 1, ?_⟩
    rintro (_ | n) hn
    · omega
    · exact hN n (by omega)
  induction h with
  | relation _ ih =>
    obtain ⟨N, hN⟩ := ih
    refine hsucc N fun n hn => ?_
    rw [reducesSafely, hN n hn, Bool.false_and]
  | @now k r c b x hr h =>
    refine hsucc k fun n hn => ?_
    simp [reducesSafely, reduce?_mono hr hn, captures_of_capturesVarying h]
  | @later k r c b x hr _ ih =>
    obtain ⟨N, hN⟩ := ih
    refine hsucc (max k N) fun n hn => ?_
    simp [reducesSafely, reduce?_mono hr (show k ≤ n by omega), hN n (by omega)]
  | @child k r c r' hr hne _ ih =>
    obtain ⟨N, hN⟩ := ih
    refine hsucc (max k N) fun n hn => ?_
    rw [reducesSafely, reduce?_mono hr (show k ≤ n by omega)]
    cases r' with
    | lambda x b => exact absurd rfl (hne x b)
    | _ => simp [hN n (by omega)]
  | part hjoin hc _ ih =>
    obtain ⟨N, hN⟩ := ih
    refine hsucc N fun n hn => ?_
    rw [reducesSafely_of_not_isJoin n hjoin]
    exact List.all_eq_false.mpr ⟨_, hc, by simp [hN n hn]⟩

/-- **No name varies**, and so none is captured that does. -/
theorem not_reachesCapture (f : Formula) : ¬ReachesCapture (fun _ => False) f := by
  have hnone : ∀ {x : String} {c b : Formula}, ¬CapturesVarying (fun _ => False) x c b := by
    intro x c b h
    induction h with
    | here _ _ _ hvaries => exact hvaries
    | under _ _ ih => exact ih
    | part _ _ _ ih => exact ih
  intro h
  induction h with
  | now _ h => exact hnone h
  | relation _ ih | later _ _ ih | child _ _ _ ih | part _ _ _ ih => exact ih

/-- What is put in the place of a variable keeps its type below a lambda that does not capture it. -/
theorem HasLocalType.enter {y : String} {s' : SimpleType} (hc : HasLocalType varies types c s)
    (hs : varies y ∨ s' = types y) (hne : y ≠ x) (hfree : hasFree x b = true)
    (hcapture : ¬CapturesVarying varies x c (.lambda y b)) :
    HasLocalType varies (Function.update types y s') c s :=
  (hasLocalType_update hs fun hy hvaries => hcapture (.here hne hfree hy hvaries)).mpr hc

/-- **Substitution keeps types**, if no name is captured that varies. -/
theorem HasLocalType.substitute (hb : HasLocalType varies (Function.update types x s) b t)
    (hx : varies x ∨ s = types x) (hc : HasLocalType varies types c s)
    (hcapture : ¬CapturesVarying varies x c b) : HasLocalType varies types (substitute x c b) t := by
  -- below a lambda for another name, the type of `x` is no longer the last one that was given
  generalize htypes : Function.update types x s = inner at hb
  induction hb generalizing types with
  | var inner y =>
    subst htypes
    rw [Formula.substitute]
    split
    · rename_i hy
      rwa [hy, Function.update_self]
    · rename_i hy
      rw [Function.update_of_ne hy]
      exact .var types y
  | @lambda inner y b s' t hs' hb ih =>
    subst htypes
    rw [Formula.substitute]
    split
    · rename_i hy
      subst hy
      rw [Function.update_self] at hs'
      rw [Function.update_idem] at hb
      have hs : varies y ∨ s' = types y := hs'.elim .inl fun h => hx.imp_right h.trans
      exact .lambda y hs hb
    · rename_i hy
      rw [Function.update_of_ne hy] at hs'
      have hx' : varies x ∨ s = Function.update types y s' x := by rwa [Function.update_of_ne (Ne.symm hy)]
      refine .lambda y hs' ?_
      rw [← Function.update_comm hy] at hb
      by_cases hfree : hasFree x b = true
      · exact ih hx' (hc.enter hs' hy hfree hcapture) (fun h => hcapture (.under hy h)) (Function.update_comm hy _ _ _)
      · rw [substitute_of_not_free c b (by simpa using hfree)]
        exact (hasLocalType_update hx' fun h => absurd h hfree).mp hb
  | join _ _ ihr ihd =>
    exact .join (ihr hx hc (fun h => hcapture (.part rfl (by simp [children]) h)) htypes)
      (ihd hx hc (fun h => hcapture (.part rfl (by simp [children]) h)) htypes)
  | @other inner f hneutral hjoin part _ t ih =>
    rw [substitute_of_isNeutral x c hneutral]
    refine hasLocalType_withChildren hneutral hjoin (List.length_map _) ?_ t
    intro d hd
    obtain ⟨e, he, rfl⟩ := List.mem_map.mp hd
    exact ⟨part e, ih e he hx hc (fun h => hcapture (.part hneutral he h)) htypes⟩

/-- **Reduction keeps types**, if it does not come to capture a name that varies. -/
theorem HasLocalType.reduce? (hf : HasLocalType varies types f t) (h : reduce? n f = some g)
    (hsafe : ¬ReachesCapture varies f) : HasLocalType varies types g t := by
  refine reduce?_induction (motive := fun _ f g => ∀ types t, HasLocalType varies types f t →
    ¬ReachesCapture varies f → HasLocalType varies types g t) ?apply ?join ?other h types t hf hsafe
  case apply =>
    intro n r c x b g hreduced hr _ hg types t hjoin hsafe
    cases hjoin with
    | join hr' hc =>
      cases hr _ _ hr' (fun h => hsafe (.relation h)) with
      | lambda _ hs hb =>
        have hb' := hb.substitute hs hc (fun h => hsafe (.now hreduced h))
        exact hg _ _ hb' (fun h => hsafe (.later hreduced h))
      | other hneutral => cases hneutral
    | other _ hjoin => cases hjoin
  case join =>
    intro n r c r' c' hne hreduced hr _ hc types t hjoin hsafe
    cases hjoin with
    | join hr' hc' =>
      exact .join (hr _ _ hr' fun h => hsafe (.relation h)) (hc _ _ hc' fun h => hsafe (.child hreduced hne h))
    | other _ hjoin => cases hjoin
  case other =>
    intro n f cs hjoin hcs types t hf hsafe
    cases hf with
    | var _ x =>
      cases hcs
      exact .var types x
    | lambda x hs hb =>
      cases hcs with
      | cons hb' hrest =>
        cases hrest
        exact .lambda x hs (hb'.2 _ _ hb fun h => hsafe (.part rfl (by simp [children]) h))
    | join => cases hjoin
    | other hneutral _ part hparts =>
      have hpart : ∀ c ∈ f.children, HasLocalType varies types c (part c) ∧ ¬ReachesCapture varies c :=
        fun c hc => ⟨hparts c hc, fun h => hsafe (.part hjoin hc h)⟩
      have hparts' := (List.forall₂_and_left _ _).mpr ⟨hpart, hcs⟩
      refine hasLocalType_withChildren hneutral hjoin hcs.length_eq.symm ?_ t
      exact forall_of_forall₂ (hparts'.imp fun c c' hc => ⟨hc.1, part c, hc.2.2 _ _ hc.1.1 hc.1.2⟩)

/-! ## Formulas with simple types -/

/-- A join ends if its relation does and, where the relation becomes a lambda, the body with the child put into it, and
otherwise the child. -/
theorem halts_join (hr : HasLocalType varies types r (.arrow s t)) (hsafe : ¬ReachesCapture varies (join r c))
    (hhr : r.Halts) (hhc : ¬ReachesCapture varies c → c.Halts)
    (hbody : ∀ n y e, Formula.reduce? n r = some (lambda y e) → (varies y ∨ s = types y) →
      HasLocalType varies (Function.update types y s) e t → e.IsNormal → (Formula.substitute y c e).Halts) :
    (join r c).Halts := by
  obtain ⟨n, r', hn⟩ := hhr
  by_cases happlied : ∃ y e, r' = lambda y e
  · obtain ⟨y, e, rfl⟩ := happlied
    have hnormal : e.IsNormal := (isNormal_of_not_isJoin rfl).mp (isNormal_reduce? hn) e (by simp [children])
    cases hr.reduce? hn fun h => hsafe (.relation h) with
    | lambda _ hs he => exact halts_join_apply hn (hbody n y e hn hs he hnormal)
    | other hneutral => cases hneutral
  · rw [not_exists] at happlied
    have hne : ∀ y e, r' ≠ lambda y e := fun y e he => happlied y ⟨e, he⟩
    obtain ⟨m, c', hm⟩ := hhc fun h => hsafe (.child hn hne h)
    exact (exists_reduce?_join hn hne hm).imp fun k hk => ⟨_, hk⟩

/-- **A normal formula with an argument put into it** is reduced to an end. If that makes a lambda of what was none,
then the lambda is part of the argument, and its type part of the argument's type.

The induction is on the type of the argument and, for each type, on the formula. Where a relation becomes a lambda, the
variable of that lambda has a smaller type, and so its body with the child put into it ends by induction on types. -/
theorem halts_substitute (hb : HasLocalType varies (Function.update types x s) b t) (hn : b.IsNormal)
    (hx : varies x ∨ s = types x) (hc : HasLocalType varies types c s)
    (hh : ¬ReachesCapture varies c → c.Halts) (hcapture : ¬CapturesVarying varies x c b)
    (hsafe : ¬ReachesCapture varies (substitute x c b)) :
    (substitute x c b).Halts ∧ ((∀ y e, b ≠ lambda y e) → ∀ n y e,
      Formula.reduce? n (substitute x c b) = some (lambda y e) → sizeOf t ≤ sizeOf s) := by
  induction hsize : sizeOf s using Nat.strongRecOn generalizing types x b c s t with
  | ind size ihsize =>
    generalize htypes : Function.update types x s = inner at hb
    induction hb generalizing types with
    | var inner y =>
      subst htypes
      rw [substitute] at hsafe ⊢
      split
      · rename_i hy
        subst hy
        rw [if_pos rfl] at hsafe
        refine ⟨hh hsafe, ?_⟩
        intro _ _ _ _ _
        rw [Function.update_self, hsize]
      · refine ⟨⟨1, var y, rfl⟩, ?_⟩
        intro _ n z e h
        cases reduce?_unique h (rfl : Formula.reduce? 1 (var y) = some (var y))
    | @lambda inner y b s' t hs' hb ih =>
      subst htypes
      have hnormal := (isNormal_of_not_isJoin rfl).mp hn b (by simp [children])
      refine ⟨?_, fun hne => absurd rfl (hne y b)⟩
      rw [substitute] at hsafe ⊢
      split
      · exact (exists_reduce?_self hn).imp fun n h => ⟨_, h⟩
      · rename_i hy
        rw [if_neg hy] at hsafe
        rw [Function.update_of_ne hy] at hs'
        have hx' : varies x ∨ s = Function.update types y s' x := by rwa [Function.update_of_ne (Ne.symm hy)]
        refine halts_of_not_isJoin rfl ?_
        rw [children, List.forall_mem_singleton]
        by_cases hfree : hasFree x b = true
        · have hsafe' : ¬ReachesCapture varies (substitute x c b) := fun h => hsafe (.part rfl (by simp [children]) h)
          exact (ih hnormal hx' (hc.enter hs' hy hfree hcapture) (fun h => hcapture (.under hy h)) hsafe'
            (Function.update_comm hy _ _ _)).1
        · rw [substitute_of_not_free c b (by simpa using hfree)]
          exact (exists_reduce?_self hnormal).imp fun n h => ⟨_, h⟩
    | @join inner r d s' t hr hd ihr ihd =>
      obtain ⟨hne, hnr, hnd⟩ := isNormal_join.mp hn
      have hcapture_r : ¬CapturesVarying varies x c r := fun h => hcapture (.part rfl (by simp [children]) h)
      have hcapture_d : ¬CapturesVarying varies x c d := fun h => hcapture (.part rfl (by simp [children]) h)
      rw [substitute] at hsafe ⊢
      obtain ⟨hhr, hlambda⟩ := ihr hnr hx hc hcapture_r (fun h => hsafe (.relation h)) htypes
      have hhd : ¬ReachesCapture varies (substitute x c d) → (substitute x c d).Halts :=
        fun h => (ihd hnd hx hc hcapture_d h htypes).1
      subst htypes
      refine ⟨halts_join (hr.substitute hx hc hcapture_r) hsafe hhr hhd ?_, ?_⟩
      · intro n y e hr' hs' he hnormal
        have hle := hlambda hne n y e hr'
        rw [SimpleType.arrow.sizeOf_spec] at hle
        exact (ihsize (sizeOf s') (by omega) he hnormal hs' (hd.substitute hx hc hcapture_d) hhd
          (fun h => hsafe (.now hr' h)) (fun h => hsafe (.later hr' h)) rfl).1
      · intro _ n y e h
        -- only a join whose relation becomes a lambda can become one
        obtain ⟨r', hr', ⟨z, b, rfl, -⟩ | ⟨-, d', -, heq⟩⟩ := reduce?_join.mp (reduce?_succ h)
        · have hle := hlambda hne n z b hr'
          rw [SimpleType.arrow.sizeOf_spec] at hle
          omega
        · cases heq
    | @other inner f hneutral hjoin part hparts t ih =>
      have hjoin' : (substitute x c f).isJoin = false := by
        rw [substitute_of_isNeutral x c hneutral, isJoin_withChildren, hjoin]
      have hchildren := children_substitute x c hneutral
      constructor
      · refine halts_of_not_isJoin hjoin' ?_
        intro d hd
        have hsafe' : ¬ReachesCapture varies d := fun h => hsafe (.part hjoin' hd h)
        rw [hchildren] at hd
        obtain ⟨e, he, rfl⟩ := List.mem_map.mp hd
        have hnormal := (isNormal_of_not_isJoin hjoin).mp hn e he
        exact (ih e he hnormal hx hc (fun h => hcapture (.part hneutral he h)) hsafe' htypes).1
      · intro _ n y e h
        cases isNeutral_reduce? (isNeutral_substitute x c hneutral) hjoin' h

/-- **What has a simple type for each lambda** is reduced to an end, if its reduction does not come to capture a name
that varies. -/
theorem halts_of_hasLocalType (h : HasLocalType varies types f t) (hsafe : ¬ReachesCapture varies f) : f.Halts := by
  induction h with
  | var types x => exact ⟨1, var x, rfl⟩
  | lambda x _ _ ih =>
    refine halts_of_not_isJoin rfl ?_
    have hb := ih fun h => hsafe (.part rfl (by simp [children]) h)
    simpa [children] using hb
  | join hr hc ihr ihc =>
    refine halts_join hr hsafe (ihr fun h => hsafe (.relation h)) ihc ?_
    intro n y e hreduced hs he hnormal
    exact (halts_substitute he hnormal hs hc ihc (fun h => hsafe (.now hreduced h))
      fun h => hsafe (.later hreduced h)).1
  | other _ hjoin _ _ _ ih =>
    exact halts_of_not_isJoin hjoin fun c hc => ih c hc fun h => hsafe (.part hjoin hc h)

/-- Without the condition on captures that would be false: here a variable is captured by a lambda that has another type
for its name. -/
theorem halts_of_hasLocalType_not (types : String → SimpleType) :
    HasLocalType (fun _ => True) types (join capturedRelation capturedRelation) .base ∧
      ¬(join capturedRelation capturedRelation).Halts := by
  have hname : ∀ t, HasLocalType (fun _ => True) types (ofName "fb:people.person.parent") t := fun t =>
    .other rfl rfl (fun _ => .base) (by simp [ofName, children]) t
  have hrelation : ∀ s t, HasLocalType (fun _ => True) types capturedRelation (.arrow s t) := by
    intro s t
    refine .join (.lambda "y" (.inl trivial) (.join (.lambda "x" (.inl trivial) ?_) (.var _ "y"))) (hname (.arrow s t))
    exact .lambda "y" (.inl trivial) (.join (.var _ "x") (.var _ "y"))
  refine ⟨.join (hrelation (.arrow .base .base) .base) (hrelation .base .base), ?_⟩
  rintro ⟨n, g, hn⟩
  rw [reduce?_capturedRelation n] at hn
  cases hn

/-- **What has a simple type**, given one for each name, is reduced to an end, whatever is captured. -/
theorem halts_of_hasType (h : HasType types f t) : f.Halts :=
  halts_of_hasLocalType h.hasLocalType (not_reachesCapture f)

/-! ## Execution -/

end Formula

namespace Execution

open Formula

/-- With enough nested steps, a formula whose reduction ends is reduced to the same formula, and its value is that of
the reduced formula. -/
theorem evaluateReduced_of_halts {f : Formula} (h : f.Halts) :
    ∃ n g, ∀ m, n ≤ m → f.reduce? m = some g ∧ evaluateReduced m f = evaluate g := by
  obtain ⟨n, g, hn⟩ := h
  refine ⟨n, g, ?_⟩
  intro m hle
  have hm := reduce?_mono hn hle
  refine ⟨hm, ?_⟩
  rw [evaluateReduced, hm]

/-- **Execution ends** for every formula that has a simple type, given one for each name: with enough nested steps it
is reduced, always to the same formula, and its value is that of the reduced formula. -/
theorem exists_evaluateReduced_eq {types : String → SimpleType} {f : Formula} {t : SimpleType}
    (h : HasType types f t) :
    ∃ n g, ∀ m, n ≤ m → f.reduce? m = some g ∧ evaluateReduced m f = evaluate g :=
  evaluateReduced_of_halts (halts_of_hasType h)

/-- A function applied twice, to a string. -/
def appliedTwice : Formula :=
  join (lambda "f" (join (var "f") (join (var "f") (ofString "a"))))
    (lambda "x" (.call (ofName ".concat") [var "x", var "x"]))

/-- The variable `f` stands for a function, all others for what is never applied. -/
def appliedTwiceTypes : String → SimpleType
  | "f" => .arrow .base .base
  | _ => .base

theorem exists_evaluateReduced_eq_sample :
    (Typing.inferType ⟨.nothing, .standard, false⟩ appliedTwice).isValid = true ∧
      HasType appliedTwiceTypes appliedTwice .base ∧
      (∃ n g, ∀ m, n ≤ m → appliedTwice.reduce? m = some g ∧ evaluateReduced m appliedTwice = evaluate g) ∧
      evaluateReduced 10 appliedTwice = .ok (.string "aaaa") := by
  have hvalue : ∀ v, HasType appliedTwiceTypes (.value v) .base := fun v =>
    .other rfl rfl (fun _ => .base) (by simp [children]) .base
  have hconcat : HasType appliedTwiceTypes (.call (ofName ".concat") [var "x", var "x"]) .base := by
    refine .other rfl rfl (fun _ => .base) ?_ .base
    intro c hc
    have hmem : c = ofName ".concat" ∨ c = var "x" := by simpa [children] using hc
    rcases hmem with rfl | rfl
    · exact hvalue _
    · exact .var "x"
  have hjoin : HasType appliedTwiceTypes appliedTwice .base :=
    .join (.lambda "f" (.join (.var "f") (.join (.var "f") (hvalue _)))) (.lambda "x" hconcat)
  exact ⟨by decide +kernel, hjoin, exists_evaluateReduced_eq hjoin, rfl⟩

/-- **Execution ends** also where each lambda has a type of its own for its variable, if no variable is captured. -/
theorem exists_evaluateReduced_eq_of_safe {types : String → SimpleType} {f : Formula} {t : SimpleType} {N : Nat}
    (h : HasLocalType (fun _ => True) types f t) (hsafe : ∀ n, N ≤ n → reducesSafely n f = true) :
    ∃ n g, ∀ m, n ≤ m → f.reduce? m = some g ∧ evaluateReduced m f = evaluate g := by
  refine evaluateReduced_of_halts (halts_of_hasLocalType h ?_)
  intro hreaches
  obtain ⟨M, hM⟩ := exists_reducesSafely_eq_false hreaches
  have hfalse := hM (max N M) (Nat.le_max_right N M)
  rw [hsafe (max N M) (Nat.le_max_left N M)] at hfalse
  cases hfalse

/-- A lambda applied to one that binds the same name, with another type. -/
def sharedName : Formula :=
  join (lambda "x" (join (var "x") (ofString "a"))) (lambda "x" (var "x"))

theorem exists_evaluateReduced_eq_of_safe_sample :
    (∀ types t, ¬HasType types sharedName t) ∧
      HasLocalType (fun _ => True) (fun _ => .base) sharedName .base ∧
      (∀ n, 4 ≤ n → reducesSafely n sharedName = true) ∧
      (∃ n g, ∀ m, n ≤ m → sharedName.reduce? m = some g ∧ evaluateReduced m sharedName = evaluate g) ∧
      evaluateReduced 10 sharedName = .ok (.string "a") := by
  have hshared : ∀ types t, ¬HasType types sharedName t := by
    intro types t h
    cases h with
    | join hr hc =>
      -- the type of `x` would be a part of itself
      obtain ⟨t', hr, -⟩ := hasType_lambda hr
      obtain ⟨s', rfl, hx⟩ := hasType_lambda hc
      rw [hasType_var hx] at hr
      have hsize := congrArg sizeOf (SimpleType.arrow.inj hr).1
      rw [SimpleType.arrow.sizeOf_spec] at hsize
      omega
    | other _ hjoin => cases hjoin
  have hvalue : ∀ types, HasLocalType (fun _ => True) types (ofString "a") .base := fun types =>
    .other rfl rfl (fun _ => .base) (by simp [ofString, children]) .base
  have hlocal : HasLocalType (fun _ => True) (fun _ => .base) sharedName .base :=
    .join (.lambda "x" (.inl trivial) (.join (.var _ "x") (hvalue _)))
      (.lambda "x" (.inl trivial) (.var _ "x"))
  have hsafe : ∀ n, 4 ≤ n → reducesSafely n sharedName = true := by
    intro n hn
    obtain ⟨m, rfl⟩ := Nat.exists_eq_add_of_le' hn
    rfl
  exact ⟨hshared, hlocal, hsafe, exists_evaluateReduced_eq_of_safe hlocal hsafe, rfl⟩

end Execution

end Parlance
