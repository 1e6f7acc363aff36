import Parlance.Proofs.InferenceRun

/-!
# `Proofs.BoundNames` — inference does not depend on bound names

The scope of a run has one entry for each binder on the way to where the run is, and a variable is narrowed at its
innermost binder. So two formulas that differ in bound names only are run through in lockstep: the scopes have the same
types in the same order, under names that correspond.

The two runs may also differ in whether free variables are allowed. What does not stop where they are not allowed does
not stop where they are.

## Contents
- **Scopes.** `Scope.Paired`, and that corresponding names find the same type.
- **Lockstep.** `Tracks` for runs, with one lemma for each way to put runs together, and so `tracks_infer`.
- **The whole statement**, `inferType_renamesBinder`.
-/

namespace Parlance.Typing

open Formula

variable {pairs : List (String × String)} {β γ : Type} {x y : String} {scope scope' : Scope} {t : SemType}

/-! ## Scopes -/

/-- **Scopes with the same types** in the same order, the names of which are on both sides of the pairs. -/
inductive Scope.Paired : List (String × String) → Scope → Scope → Prop
  | nil : Paired [] [] []
  | cons {pairs : List (String × String)} {scope scope' : Scope} (x y : String) (t : SemType)
    (h : Paired pairs scope scope') : Paired ((x, y) :: pairs) ((x, t) :: scope) ((y, t) :: scope')

theorem Scope.Paired.find?_eq (hp : Scope.Paired pairs scope scope') (h : Corresponds pairs x y) :
    scope'.find? y = scope.find? x := by
  induction hp with
  | nil => rfl
  | cons a b t _ ih =>
    rcases h with ⟨rfl, rfl⟩ | ⟨hx, hy, h⟩
    · simp [find?]
    · simp [find?, hx, hy, ih h]

theorem Scope.Paired.set (hp : Scope.Paired pairs scope scope') (h : Corresponds pairs x y) (t : SemType) :
    Scope.Paired pairs (scope.set x t) (scope'.set y t) := by
  induction hp with
  | nil => exact .nil
  | cons a b u hrest ih =>
    rcases h with ⟨rfl, rfl⟩ | ⟨hx, hy, h⟩
    · simpa [Scope.set] using .cons _ _ t hrest
    · simpa [Scope.set, hx, hy] using .cons a b u (ih h)

/-! ## Lockstep -/

/-- **A run that another one follows**: from scopes that are paired, if the first run comes to something then the second
one comes to the same, and the scopes are paired again. -/
def Tracks (pairs : List (String × String)) (run run' : Inference β) : Prop :=
  ∀ scope scope' b last, Scope.Paired pairs scope scope' → run.run scope = some (b, last) →
    ∃ last', run'.run scope' = some (b, last') ∧ Scope.Paired pairs last last'

theorem Tracks.pure (b : β) : Tracks pairs (pure b) (pure b) := by
  intro scope scope' b' last hp hrun
  obtain ⟨rfl, rfl⟩ := run_pure_iff.mp hrun
  exact ⟨scope', rfl, hp⟩

theorem Tracks.bind {run run' : Inference β} {next next' : β → Inference γ} (h : Tracks pairs run run')
    (hnext : ∀ b, Tracks pairs (next b) (next' b)) : Tracks pairs (run >>= next) (run' >>= next') := by
  intro scope scope' c last hp hrun
  obtain ⟨b, middle, hb, hc⟩ := run_bind_iff.mp hrun
  obtain ⟨middle', hb', hmiddle⟩ := h _ _ b middle hp hb
  obtain ⟨last', hc', hlast⟩ := hnext b _ _ c last hmiddle hc
  exact ⟨last', run_bind_iff.mpr ⟨b, middle', hb', hc'⟩, hlast⟩

theorem Tracks.demand (t : SemType) : Tracks pairs (demand t) (demand t) := by
  intro scope scope' u last hp hrun
  obtain ⟨hvalid, rfl, rfl⟩ := run_demand_iff.mp hrun
  exact ⟨scope', run_demand_iff.mpr ⟨hvalid, rfl, rfl⟩, hp⟩

variable {lookup : TypeLookup} {hierarchy : Hierarchy} {free free' : Bool}

theorem Tracks.narrow (hfree : free = true → free' = true) (h : Corresponds pairs x y) (t : SemType) :
    Tracks pairs (narrow ⟨lookup, hierarchy, free⟩ x t) (narrow ⟨lookup, hierarchy, free'⟩ y t) := by
  intro scope scope' u last hp hrun
  cases hx : scope.find? x with
  | some known =>
    rw [run_narrow_some hx] at hrun
    rw [run_narrow_some ((hp.find?_eq h).trans hx)]
    exact Tracks.demand _ _ _ u last (hp.set h _) hrun
  | none =>
    rw [run_narrow_none hx] at hrun
    rw [run_narrow_none ((hp.find?_eq h).trans hx)]
    cases free with
    | false => cases hrun
    | true =>
      rw [hfree rfl]
      exact Tracks.demand t _ _ u last hp hrun

theorem Tracks.withVariable {body body' : Inference SemType} (h : Tracks ((x, y) :: pairs) body body') :
    Tracks pairs (withVariable x body) (withVariable y body') := by
  intro scope scope' t last hp hrun
  obtain ⟨middle, hbody, rfl⟩ := run_withVariable_iff.mp hrun
  obtain ⟨middle', hbody', hmiddle⟩ := h _ _ t middle (.cons x y .top hp) hbody
  cases hmiddle with
  | cons _ _ _ hlast => exact ⟨_, run_withVariable_iff.mpr ⟨_, hbody', rfl⟩, hlast⟩

/-- Arguments are gone through one after the other. -/
theorem Tracks.inferArguments {as bs : List Formula}
    (h : List.Forall₂ (fun a b => ∀ t, Tracks pairs (infer ⟨lookup, hierarchy, free⟩ a t)
      (infer ⟨lookup, hierarchy, free'⟩ b t)) as bs) (types : List SemType) :
    Tracks pairs (inferArguments ⟨lookup, hierarchy, free⟩ as types)
      (inferArguments ⟨lookup, hierarchy, free'⟩ bs types) := by
  induction h generalizing types with
  | nil =>
    simp only [Typing.inferArguments]
    exact .pure ()
  | cons hab _ ih =>
    cases types with
    | nil =>
      simp only [Typing.inferArguments]
      exact .pure ()
    | cons t types =>
      simp only [Typing.inferArguments]
      exact .bind (hab t) fun _ => ih types

theorem AlphaEq.namedType?_eq {relation relation' child child' : Formula} (hr : AlphaEq pairs relation relation')
    (hc : AlphaEq pairs child child') : namedType? relation' child' = namedType? relation child := by
  rw [namedType?, namedType?, hr.name?_eq, hc.plain?_eq]

theorem AlphaEq.isOrdering_eq {relation relation' : Formula} (hr : AlphaEq pairs relation relation') :
    isOrdering relation' = isOrdering relation := by
  rw [isOrdering, isOrdering, hr.name?_eq]

/-- **Inference runs in lockstep** on formulas that differ in bound names only. -/
theorem tracks_infer {f g : Formula} (hfree : free = true → free' = true) (h : AlphaEq pairs f g) (t : SemType) :
    Tracks pairs (infer ⟨lookup, hierarchy, free⟩ f t) (infer ⟨lookup, hierarchy, free'⟩ g t) := by
  induction h generalizing t with
  | var h =>
    rw [infer, infer]
    exact .narrow hfree h t
  | lambda _ ih =>
    rw [infer, infer]
    apply Tracks.withVariable
    apply Tracks.bind (ih _)
    intro bodyType
    apply Tracks.bind (.narrow hfree (.innermost _ _) _)
    intro varType
    exact .pure _
  | mark _ ih =>
    rw [infer, infer]
    apply Tracks.bind (.demand _)
    intro t
    apply Tracks.withVariable
    apply Tracks.bind (ih _)
    intro bodyType
    exact .narrow hfree (.innermost _ _) _
  | @plain pairs f ds hf hlen h ih =>
    have hall := List.forall₂_iff_zip.mpr ⟨hlen, fun hcd => And.intro (h hcd) (ih hcd)⟩
    cases f with
    | var | lambda | mark => cases hf
    | value v =>
      obtain ⟨own, hown⟩ := exists_inferValue lookup hierarchy v
      rw [withChildren, infer, infer, hown, hown]
      · exact .demand _
      all_goals simp
    | join relation child =>
      -- the names of types and comparators are not bound, so both joins are of the same kind
      obtain _ | ⟨⟨hr, ihr⟩, _ | ⟨⟨hc, ihc⟩, ⟨⟩⟩⟩ := hall
      rw [withChildren, infer, infer, AlphaEq.namedType?_eq hr hc, AlphaEq.isOrdering_eq hr]
      cases namedType? relation child with
      | some name => exact .demand _
      | none =>
        cases isOrdering relation with
        | true => exact .bind (ihc _) fun _ => .demand _
        | false =>
          apply Tracks.bind (ihr _)
          intro relationType
          apply Tracks.bind (ihc _)
          intro childType
          exact .bind (ihr _) fun _ => .demand _
    | merge m left right =>
      obtain _ | ⟨⟨_, ihl⟩, _ | ⟨⟨_, ihr⟩, ⟨⟩⟩⟩ := hall
      rw [withChildren, infer, infer]
      apply Tracks.bind (.demand _)
      intro t
      exact .bind (ihl t) fun t => ihr t
    | not child =>
      obtain _ | ⟨⟨_, ihc⟩, ⟨⟩⟩ := hall
      rw [withChildren, infer, infer]
      exact .bind (.demand _) fun t => ihc t
    | aggregate m child =>
      obtain _ | ⟨⟨_, ihc⟩, ⟨⟩⟩ := hall
      rw [withChildren, infer, infer]
      apply Tracks.bind (ihc _)
      intro childType
      split
      · exact .demand _
      · exact .demand _
    | arithmetic m left right =>
      obtain _ | ⟨⟨_, ihl⟩, _ | ⟨⟨_, ihr⟩, ⟨⟩⟩⟩ := hall
      rw [withChildren, infer, infer]
      apply Tracks.bind (ihl t)
      intro t
      exact .bind (ihr t) fun t => .demand _
    | reverse child =>
      obtain _ | ⟨⟨_, ihc⟩, ⟨⟩⟩ := hall
      rw [withChildren, infer, infer]
      exact .bind (ihc _) fun reversed => .demand _
    | superlative m rank count head relation =>
      obtain _ | ⟨⟨_, ihrank⟩, _ | ⟨⟨_, ihcount⟩, _ | ⟨⟨_, ihhead⟩, _ | ⟨⟨_, ihrel⟩, ⟨⟩⟩⟩⟩⟩ := hall
      rw [withChildren, infer, infer]
      apply Tracks.bind (ihrank _)
      intro _
      apply Tracks.bind (ihcount _)
      intro _
      apply Tracks.bind (.demand _)
      intro t
      apply Tracks.bind (ihhead t)
      intro t
      exact .bind (ihrel _) fun relationType => ihhead _
    | call function arguments =>
      -- nor is the name of a function
      obtain _ | ⟨⟨hf, _⟩, hargs⟩ := hall
      rw [withChildren, infer, infer, hf.name?_eq, hargs.length_eq]
      cases function.name? with
      | none => exact .pure _
      | some name =>
        dsimp only
        cases signature? name with
        | none => exact .pure _
        | some types =>
          dsimp only
          split
          · exact .pure _
          · exact .bind (.inferArguments (hargs.imp fun _ _ h => h.2) _) fun _ => .demand _

/-! ## The whole statement -/

/-- What is inferred at the start of one formula is inferred at the start of the other one. -/
theorem run_infer_of_alphaEq {f g : Formula} (hfree : free = true → free' = true) (h : AlphaEq [] f g)
    {u : SemType} (hrun : (infer ⟨lookup, hierarchy, free⟩ f .top).run [] = some (u, scope)) :
    ∃ scope', (infer ⟨lookup, hierarchy, free'⟩ g .top).run [] = some (u, scope') := by
  obtain ⟨last', hrun', -⟩ := tracks_infer hfree h .top [] [] u scope .nil hrun
  exact ⟨last', hrun'⟩

/-- Formulas that differ in bound names only have the same type. -/
theorem inferType_eq_of_alphaEq {f g : Formula} {s : Setting} (h : AlphaEq [] f g) : inferType s g = inferType s f := by
  unfold inferType
  cases hf : (infer s f .top).run [] with
  | some result =>
    obtain ⟨scope', hg⟩ := run_infer_of_alphaEq id h hf
    rw [hg]
  | none =>
    cases hg : (infer s g .top).run [] with
    | none => rfl
    | some result =>
      obtain ⟨scope', hf'⟩ := run_infer_of_alphaEq id h.symm hg
      rw [hf] at hf'
      cases hf'

/-- **Inference does not depend on bound names.** If one binder of a formula, be it a lambda or a mark, gets a name that
occurs nowhere in the formula, together with exactly what it binds, then the type of the formula stays the same. -/
theorem inferType_renamesBinder (s : Setting) {y : String} {f g : Formula} (h : RenamesBinder y f g)
    (hfresh : y ∉ f.varNames) : inferType s g = inferType s f :=
  inferType_eq_of_alphaEq (h.alphaEq hfresh fun _ _ => rfl)

/-- A set under the given name, in which a lambda binds `x` once more. -/
def marked (y : String) : Formula := mark y (merge .and (var y) (join (lambda "x" (var "x")) (ofName "fb:en.ann")))

/-- A relation applied to such a set, below a lambda that binds `x`. -/
def relatedToMarked (y : String) : Formula := lambda "x" (join (var "x") (marked y))

theorem inferType_renamesBinder_sample :
    RenamesBinder "y" (relatedToMarked "x") (relatedToMarked "y") ∧ "y" ∉ (relatedToMarked "x").varNames ∧
      inferType ⟨.nothing, .standard, false⟩ (relatedToMarked "x") = .func (.func .any .top) .top ∧
      inferType ⟨.nothing, .standard, false⟩ (relatedToMarked "y") = .func (.func .any .top) .top := by
  have hmark : RenamesBinder "y" (marked "x") (marked "y") := by
    have hbound : rename "x" "y" (merge .and (var "x") (join (lambda "x" (var "x")) (ofName "fb:en.ann"))) =
        merge .and (var "y") (join (lambda "x" (var "x")) (ofName "fb:en.ann")) := by
      simp [rename, binders, children, withChildren, ofName]
    rw [marked, marked, ← hbound]
    exact .mark "x" _
  have hrename : RenamesBinder "y" (relatedToMarked "x") (relatedToMarked "y") := by
    have hjoin : (join (var "x") (marked "x")).children = [var "x"] ++ marked "x" :: [] := rfl
    have hlambda : (relatedToMarked "x").children = [] ++ join (var "x") (marked "x") :: [] := rfl
    exact .inside hlambda (.inside hjoin hmark)
  have hfresh : "y" ∉ (relatedToMarked "x").varNames := by decide +kernel
  have htype : inferType ⟨.nothing, .standard, false⟩ (relatedToMarked "x") = .func (.func .any .top) .top := by
    decide +kernel
  exact ⟨hrename, hfresh, htype, (inferType_renamesBinder _ hrename hfresh).trans htype⟩

end Parlance.Typing
