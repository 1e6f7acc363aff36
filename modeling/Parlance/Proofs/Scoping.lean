import Parlance.Proofs.BoundNames

/-!
# `Proofs.Scoping` — a valid type certifies that no variable is free

Where free variables are not allowed, inference stops at the first variable that no lambda and no mark binds. It looks
at every subformula at least once, those of calls apart that are malformed or of unknown functions. So a formula that
has a valid type has all its variables bound, as far as inference looks, and then it does not matter whether free
variables are allowed.

## Contents
- **Bound variables.** No run changes which variables are bound: `names_infer`.
- **What is looked at.** `Visits`: a formula hands its runs on to its subformulas, and so to what stands in it.
- **The whole statement**, `scoped_of_isValid`.
-/

namespace Parlance.Typing

open Formula

variable {lookup : TypeLookup} {hierarchy : Hierarchy} {s : Setting} {f c g : Formula} {x : String}
  {scope scope' : Scope} {t u : SemType} {outer bound : List String}

/-! ## Bound variables -/

/-- The variables that are bound, the innermost first. -/
def Scope.names (scope : Scope) : List String := scope.map Prod.fst

theorem Scope.Paired.names_eq {pairs : List (String × String)} (h : Scope.Paired pairs scope scope') :
    scope.names = pairs.map Prod.fst := by
  induction h with
  | nil => rfl
  | cons x y t _ ih => exact congrArg (x :: ·) ih

theorem Scope.Paired.self (scope : Scope) : Scope.Paired (scope.names.map fun y => (y, y)) scope scope := by
  induction scope with
  | nil => exact .nil
  | cons entry scope ih => exact .cons entry.1 entry.1 entry.2 ih

theorem corresponds_self (names : List String) (x : String) : Corresponds (names.map fun y => (y, y)) x x := by
  induction names with
  | nil => rfl
  | cons y names ih => exact .under y fun _ => ih

/-- **Inference leaves the same variables bound** that were bound before. -/
theorem names_infer (h : (infer s f t).run scope = some (u, scope')) : scope'.names = scope.names := by
  have hf : AlphaEq (scope.names.map fun y => (y, y)) f f := .refl f fun z _ => corresponds_self scope.names z
  obtain ⟨last, -, hpaired⟩ := tracks_infer id hf t scope scope u scope' (.self scope) h
  rw [hpaired.names_eq, List.map_map]
  exact List.map_id _

theorem mem_names_of_find? {known : SemType} (h : scope.find? x = some known) : x ∈ scope.names := by
  induction scope with
  | nil => cases h
  | cons entry scope ih =>
    unfold Scope.find? at h
    split at h
    case isTrue heq =>
      obtain rfl := beq_iff_eq.mp heq
      exact List.mem_cons_self
    case isFalse => exact List.mem_cons_of_mem _ (ih h)

/-! ## What is looked at -/

/-- **Inference has come through a formula** below some binders. -/
def Visits (s : Setting) (f : Formula) (bound : List String) : Prop :=
  ∃ t scope u scope', (infer s f t).run scope = some (u, scope') ∧ scope.names = bound

theorem visits_of_run (h : (infer s f t).run scope = some (u, scope')) : Visits s f scope.names :=
  ⟨t, scope, u, scope', h, rfl⟩

theorem name?_of_value? (h : f.value? = none) : f.name? = none := by
  cases f with
  | value => cases h
  | _ => rfl

/-- Nothing stands in a value. -/
theorem value?_eq_none_of_mem_children (h : c ∈ f.children) : f.value? = none := by
  cases f with
  | value => cases h
  | _ => rfl

theorem plain?_of_value? (h : f.value? = none) : f.plain? = none := by
  rw [plain?, h]
  rfl

/-- A join with a side that is not a value does not name a type. -/
theorem namedType?_eq_none {relation child : Formula} (hc : c = relation ∨ c = child) (hv : c.value? = none) :
    namedType? relation child = none := by
  unfold namedType?
  rcases hc with rfl | rfl
  · rw [name?_of_value? hv]
    rfl
  · rw [plain?_of_value? hv, ite_self]

/-- Both sides of a join are looked at, unless they are values. -/
theorem visits_of_join {relation child : Formula} (hc : c = relation ∨ c = child) (hv : c.value? = none)
    (h : Visits s (join relation child) bound) : Visits s c bound := by
  obtain ⟨t, scope, u, scope', h, rfl⟩ := h
  simp only [infer, namedType?_eq_none hc hv] at h
  split at h
  case isTrue hordering =>
    obtain ⟨_, _, hchild, -⟩ := run_bind_iff.mp h
    rcases hc with rfl | rfl
    · simp [isOrdering, name?_of_value? hv] at hordering
    · exact visits_of_run hchild
  case isFalse =>
    simp only [run_bind_iff] at h
    obtain ⟨_, _, hrelation, _, _, hchild, -⟩ := h
    rcases hc with rfl | rfl
    · exact visits_of_run hrelation
    · rw [← names_infer hrelation]
      exact visits_of_run hchild

/-- All arguments are looked at. -/
theorem visits_of_mem_arguments {arguments : List Formula} {types : List SemType}
    (hlen : types.length = arguments.length) (hc : c ∈ arguments)
    (h : (inferArguments s arguments types).run scope = some ((), scope')) : Visits s c scope.names := by
  induction arguments generalizing types scope with
  | nil => cases hc
  | cons argument rest ih =>
    cases types with
    | nil => cases hlen
    | cons t types =>
      simp only [inferArguments, run_bind_iff] at h
      obtain ⟨u, middle, hfirst, hrest⟩ := h
      rcases List.mem_cons.mp hc with rfl | hc
      · exact visits_of_run hfirst
      · rw [← names_infer hfirst]
        exact ih (Nat.succ.inj hlen) hc hrest

/-- **A formula hands its runs on** to all its immediate subformulas, those that are values apart. -/
theorem visits_child (hf : looksInside f = true) (hc : c ∈ f.children) (hv : c.value? = none)
    (h : Visits s f bound) : Visits s c (f.binders ++ bound) := by
  cases f with
  | value | var => cases hc
  | join relation child => exact visits_of_join (by simpa [children] using hc) hv h
  | merge m left right =>
    obtain ⟨t, scope, u, scope', h, rfl⟩ := h
    simp only [infer, run_bind_iff, run_demand_iff] at h
    obtain ⟨_, _, ⟨-, -, rfl⟩, _, _, hleft, hright⟩ := h
    rcases List.mem_pair.mp hc with rfl | rfl
    · exact visits_of_run hleft
    · rw [← names_infer hleft]
      exact visits_of_run hright
  | lambda x body =>
    obtain rfl := List.mem_singleton.mp hc
    obtain ⟨t, scope, u, scope', h, rfl⟩ := h
    rw [infer, run_withVariable_iff] at h
    simp only [run_bind_iff] at h
    obtain ⟨_, ⟨_, _, hbody, -⟩, -⟩ := h
    exact visits_of_run hbody
  | mark x body =>
    obtain rfl := List.mem_singleton.mp hc
    obtain ⟨t, scope, u, scope', h, rfl⟩ := h
    simp only [infer, run_bind_iff, run_demand_iff, run_withVariable_iff] at h
    obtain ⟨_, _, ⟨-, -, rfl⟩, _, ⟨_, _, hbody, -⟩, -⟩ := h
    exact visits_of_run hbody
  | not child =>
    obtain rfl := List.mem_singleton.mp hc
    obtain ⟨t, scope, u, scope', h, rfl⟩ := h
    simp only [infer, run_bind_iff, run_demand_iff] at h
    obtain ⟨_, _, ⟨-, -, rfl⟩, hchild⟩ := h
    exact visits_of_run hchild
  | aggregate m child =>
    obtain rfl := List.mem_singleton.mp hc
    obtain ⟨t, scope, u, scope', h, rfl⟩ := h
    rw [infer, run_bind_iff] at h
    obtain ⟨_, _, hchild, -⟩ := h
    exact visits_of_run hchild
  | arithmetic m left right =>
    obtain ⟨t, scope, u, scope', h, rfl⟩ := h
    simp only [infer, run_bind_iff] at h
    obtain ⟨_, _, hleft, _, _, hright, -⟩ := h
    rcases List.mem_pair.mp hc with rfl | rfl
    · exact visits_of_run hleft
    · rw [← names_infer hleft]
      exact visits_of_run hright
  | reverse child =>
    obtain rfl := List.mem_singleton.mp hc
    obtain ⟨t, scope, u, scope', h, rfl⟩ := h
    rw [infer, run_bind_iff] at h
    obtain ⟨_, _, hchild, -⟩ := h
    exact visits_of_run hchild
  | superlative m rank count head relation =>
    obtain ⟨t, scope, u, scope', h, rfl⟩ := h
    simp only [infer, run_bind_iff, run_demand_iff] at h
    obtain ⟨_, _, hrank, _, _, hcount, _, _, ⟨-, -, rfl⟩, _, _, hhead, _, _, hrelation, -⟩ := h
    simp only [children, List.mem_cons, List.not_mem_nil, or_false] at hc
    show Visits s c scope.names
    rcases hc with rfl | rfl | rfl | rfl
    · exact visits_of_run hrank
    · rw [← names_infer hrank]
      exact visits_of_run hcount
    · rw [← names_infer hrank, ← names_infer hcount]
      exact visits_of_run hhead
    · rw [← names_infer hrank, ← names_infer hcount, ← names_infer hhead]
      exact visits_of_run hrelation
  | call function arguments =>
    obtain ⟨hfunction, types, result, hlen, hinfer⟩ := exists_infer_call (s := s) hf
    obtain ⟨t, scope, u, scope', h, rfl⟩ := h
    rw [hinfer, run_bind_iff] at h
    obtain ⟨_, _, harguments, -⟩ := h
    rcases List.mem_cons.mp hc with rfl | hc
    · simp [hv] at hfunction
    · exact visits_of_mem_arguments hlen hc harguments

/-- **Inference has come through whatever it looks at**, below all the binders on the way. -/
theorem visits_found (hg : Found looksInside f bound g) (hv : g.value? = none) (h : Visits s f outer) :
    Visits s g (bound ++ outer) := by
  induction hg generalizing outer with
  | here => exact h
  | @inside f c g bound hf hc hg ih =>
    have hcv : c.value? = none := by
      cases hg with
      | here => exact hv
      | inside _ hd => exact value?_eq_none_of_mem_children hd
    rw [List.append_assoc]
    exact ih hv (visits_child hf hc hcv h)

/-- A variable that inference has come through is bound, if free ones are not allowed. -/
theorem mem_of_visits_var (h : Visits ⟨lookup, hierarchy, false⟩ (var x) bound) : x ∈ bound := by
  obtain ⟨t, scope, u, scope', h, rfl⟩ := h
  rw [infer] at h
  cases hx : scope.find? x with
  | some known => exact mem_names_of_find? hx
  | none =>
    rw [run_narrow_none hx] at h
    cases h

/-! ## The whole statement -/

/-- A formula with a valid type is run through to that type. -/
theorem exists_run_of_isValid (h : (inferType s f).isValid = true) :
    ∃ scope, (infer s f .top).run [] = some (inferType s f, scope) := by
  unfold inferType at h ⊢
  cases hrun : (infer s f .top).run [] with
  | none =>
    rw [hrun] at h
    cases h
  | some result => exact ⟨result.2, rfl⟩

/-- **A valid type certifies the scoping.** If a formula has a valid type where free variables are not allowed, then
every variable that does not stand inside of a call that is malformed or of an unknown function is bound by a lambda or
a mark of its name around it, and where free variables are allowed the formula has the same type. -/
theorem scoped_of_isValid (lookup : TypeLookup) (hierarchy : Hierarchy) (f : Formula)
    (h : (inferType ⟨lookup, hierarchy, false⟩ f).isValid = true) :
    (∀ bound x, Found looksInside f bound (var x) → x ∈ bound) ∧
      inferType ⟨lookup, hierarchy, true⟩ f = inferType ⟨lookup, hierarchy, false⟩ f := by
  obtain ⟨scope, hrun⟩ := exists_run_of_isValid h
  constructor
  · intro bound x hx
    have hvisits := visits_found hx rfl (visits_of_run hrun)
    rw [← List.append_nil bound]
    exact mem_of_visits_var hvisits
  · have hself : AlphaEq [] f f := .refl f fun _ _ => rfl
    have hfree : false = true → true = true := nofun
    obtain ⟨scope', hrun'⟩ := run_infer_of_alphaEq hfree hself hrun
    conv_lhs => rw [inferType, hrun']

/-- What comes out of an unknown function, and is in the set that `y` marks. -/
def unknownAndMarked : Formula := merge .and (call (ofName "f") [var "z"]) (var "y")

/-- A text made from a marked set. -/
def textOfMarked : Formula := call (ofName ".toString") [mark "y" unknownAndMarked]

/-- The two texts one after the other. Inference does not look at the variable in the call of the unknown function,
which is free. -/
def concatMarked : Formula := lambda "x" (call (ofName ".concat") [var "x", textOfMarked])

theorem scoped_of_isValid_sample :
    (inferType ⟨.nothing, .standard, false⟩ concatMarked).isValid = true ∧
      Found looksInside concatMarked ["y", "x"] (var "y") ∧ "y" ∈ ["y", "x"] ∧
      inferType ⟨.nothing, .standard, true⟩ concatMarked = inferType ⟨.nothing, .standard, false⟩ concatMarked := by
  have hvalid : (inferType ⟨.nothing, .standard, false⟩ concatMarked).isValid = true := by decide +kernel
  have hfound : Found looksInside concatMarked ["y", "x"] (var "y") := by
    have hmerge : Found looksInside unknownAndMarked [] (var "y") :=
      .inside rfl (by simp [unknownAndMarked, children]) (.here _)
    have hmark : Found looksInside (mark "y" unknownAndMarked) ["y"] (var "y") :=
      .inside rfl List.mem_cons_self hmerge
    have htext : Found looksInside textOfMarked ["y"] (var "y") :=
      .inside rfl (by simp [textOfMarked, children]) hmark
    have hconcat : Found looksInside (call (ofName ".concat") [var "x", textOfMarked]) ["y"] (var "y") :=
      .inside rfl (by simp [children]) htext
    exact .inside rfl List.mem_cons_self hconcat
  obtain ⟨hscoped, hmode⟩ := scoped_of_isValid .nothing .standard concatMarked hvalid
  exact ⟨hvalid, hfound, hscoped _ _ hfound, hmode⟩

end Parlance.Typing
