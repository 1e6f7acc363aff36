import Parlance.Proofs.Meet
import Parlance.Proofs.Table
import Parlance.Semantics.Join
import Parlance.Semantics.Merge

/-!
# `Proofs.Policies` — dropping mismatches and marking them

Joining and merging check types, and a policy says what becomes of a candidate that fails: it is dropped, or it is kept
and marked. A join is checked twice, and where the first check fails a dropped candidate is not even built, so that
building it cannot fail either. Else the two policies go through the same candidates: what dropping leaves is what
marking leaves unmarked.

## Contents
- **Marks.** `Features.isMarked` and `Candidate.isMarked`.
- **Enforcement.** `Enforces` for the items of two streams, and `Hardened` for what becomes of one candidate.
- **Functions.** `JoinFn.hardened_slotItem` and `hard_enforces_soft`.
-/

namespace Parlance

/-! ## Marks -/

/-- Whether one of the features is the mark of a type check. -/
def Features.isMarked (v : Features Float) : Bool :=
  v.keys.any fun key => (Features.key "typeCheck" "").toList.isPrefixOf key.toList

theorem Features.isMarked_add (v : Features Float) (mark : String) (value : Float) :
    (v.add "typeCheck" mark value).isMarked = true := by
  have hmem : Features.key "typeCheck" mark ∈ (v.add "typeCheck" mark value).keys :=
    Table.mem_keys_update.mpr (Or.inr rfl)
  refine List.any_eq_true.mpr ⟨_, hmem, List.isPrefixOf_iff_prefix.mpr ⟨mark.toList, ?_⟩⟩
  simp [Features.key]

/-- **Whether a type check left its mark** on a candidate. -/
def Candidate.isMarked (c : Candidate) : Bool := c.features.isMarked

/-- Whether an item of a stream is a candidate with a mark. -/
def isMarkedItem : Except SemanticError Candidate → Bool
  | .ok c => c.isMarked
  | .error _ => false

/-! ## Enforcement -/

/-- **What dropping leaves of the items that marking gives.** Nothing is added and the order is kept. All candidates that
are left have a valid type. If no item is an error, just those with a mark are gone. -/
structure Enforces (hard soft : List (Except SemanticError Candidate)) : Prop where
  sublist : hard.Sublist soft
  errors : ∀ e, .error e ∈ hard → .error e ∈ soft
  unmarked : (∀ e, .error e ∉ soft) → hard = soft.filter fun item => !isMarkedItem item
  valid : ∀ c, .ok c ∈ hard → c.type.isValid = true

/-- **What becomes of one candidate**, under the policy that drops and under the one that marks. Only what is marked, or
cannot be built, is there under the second alone. -/
inductive Hardened : Option (Except SemanticError Candidate) → Option (Except SemanticError Candidate) → Prop
  | kept {item : Except SemanticError Candidate}
      (h : ∀ c, item = .ok c → c.isMarked = false ∧ c.type.isValid = true) : Hardened (some item) (some item)
  | dropped {item : Except SemanticError Candidate} (h : ∀ c, item = .ok c → c.isMarked = true) :
      Hardened none (some item)

namespace Hardened

/-- An error is there under both policies. -/
theorem failed (e : SemanticError) : Hardened (some (.error e)) (some (.error e)) := .kept fun _ hc => nomatch hc

theorem admitted {c : Candidate} (hmark : c.isMarked = false) (hvalid : c.type.isValid = true) :
    Hardened (some (.ok c)) (some (.ok c)) := by
  refine .kept fun d hd => ?_
  obtain rfl := Except.ok.inj hd
  exact ⟨hmark, hvalid⟩

theorem marked {c : Candidate} (hmark : c.isMarked = true) : Hardened none (some (.ok c)) := by
  refine .dropped fun d hd => ?_
  obtain rfl := Except.ok.inj hd
  exact hmark

end Hardened

theorem enforces_nil : Enforces [] [] where
  sublist := .slnil
  errors _ h := h
  unmarked _ := rfl
  valid _ h := nomatch h

/-- One more candidate in front. -/
theorem Enforces.cons {hard soft : List (Except SemanticError Candidate)}
    {first first' : Option (Except SemanticError Candidate)} (h : Enforces hard soft) (hfirst : Hardened first first') :
    Enforces (first.toList ++ hard) (first'.toList ++ soft) := by
  cases hfirst with
  | @kept item hitem =>
    have hsub : (item :: hard).Sublist (item :: soft) := h.sublist.cons_cons item
    refine ⟨hsub, fun _ he => hsub.subset he, ?_, ?_⟩
    · intro hnone
      have hrest := h.unmarked fun e he => hnone e (List.mem_cons_of_mem _ he)
      cases item with
      | error e => exact absurd List.mem_cons_self (hnone e)
      | ok c =>
        have hclean : isMarkedItem (.ok c) = false := (hitem c rfl).1
        simp [hrest, hclean]
    · intro c hc
      rcases List.mem_cons.mp hc with rfl | hc
      · exact (hitem c rfl).2
      · exact h.valid c hc
  | @dropped item hitem =>
    have hsub : hard.Sublist (item :: soft) := h.sublist.cons item
    refine ⟨hsub, fun _ he => hsub.subset he, ?_, h.valid⟩
    intro hnone
    have hrest := h.unmarked fun e he => hnone e (List.mem_cons_of_mem _ he)
    cases item with
    | error e => exact absurd List.mem_cons_self (hnone e)
    | ok c =>
      have hmarked : isMarkedItem (.ok c) = true := hitem c rfl
      simp [hrest, hmarked]

/-- Candidates one after another. -/
theorem enforces_filterMap {α : Type} {f g : α → Option (Except SemanticError Candidate)} {l : List α}
    (h : ∀ a ∈ l, Hardened (f a) (g a)) : Enforces (l.filterMap f) (l.filterMap g) := by
  induction l with
  | nil => exact enforces_nil
  | cons a rest ih =>
    have hcons : ∀ k : α → Option (Except SemanticError Candidate),
        (a :: rest).filterMap k = (k a).toList ++ rest.filterMap k := fun k => by
      rw [List.filterMap_cons]
      cases k a <;> rfl
    rw [hcons, hcons]
    exact (ih fun b hb => h b (List.mem_cons_of_mem _ hb)).cons (h a List.mem_cons_self)

/-! ## Functions -/

theorem Policy.admit_of_isValid {type : SemType} (h : type.isValid = true) (policy : Policy) (mark : String)
    (features : Features Float) : policy.admit type mark features = some features := if_pos h

theorem Policy.admit_hard {type : SemType} (h : type.isValid = false) (mark : String) (features : Features Float) :
    Policy.hard.admit type mark features = none := by
  unfold Policy.admit
  simp [h]

theorem Policy.admit_soft {type : SemType} (h : type.isValid = false) (mark : String) (features : Features Float) :
    Policy.soft.admit type mark features = some (features.add "typeCheck" mark 1.0) := by
  unfold Policy.admit
  simp [h]

/-- **A slot under both policies.** Of the four ways in which the two checks can come out, only the one in which both
succeed leaves a candidate under the policy that drops. -/
theorem JoinFn.hardened_slotItem (fn : JoinFn) (ctx : SemContext) (binary unary : Part) (slot : Slot) :
    Hardened (fn.slotItem { ctx with joinPolicy := .hard } binary unary slot)
      (fn.slotItem { ctx with joinPolicy := .soft } binary unary slot) := by
  unfold slotItem join?
  dsimp only
  generalize hcoarse : ctx.joinCheck.check (orient binary slot).type unary.type ctx.hierarchy = coarse
  generalize fn.build (orient binary slot).formula unary.formula = built
  have hinfer : ∀ policy formula, ({ ctx with joinPolicy := policy } : SemContext).inferType formula =
      ctx.inferType formula := fun _ _ => rfl
  simp only [hinfer]
  cases hfirst : coarse.isValid with
  | true =>
    rw [Policy.admit_of_isValid hfirst, Policy.admit_of_isValid hfirst]
    cases built with
    | error e => exact .failed e
    | ok formula =>
      cases hsecond : (ctx.inferType formula).isValid with
      | true =>
        simp only [bind, Except.bind, hsecond, if_true]
        exact .admitted rfl hsecond
      | false =>
        simp only [bind, Except.bind, hsecond, Policy.admit_hard, Policy.admit_soft]
        exact .marked (Features.isMarked_add _ _ _)
  | false =>
    rw [Policy.admit_hard hfirst, Policy.admit_soft hfirst]
    cases built with
    | error e => exact .dropped fun c hc => nomatch hc
    | ok formula =>
      cases hsecond : (ctx.inferType formula).isValid with
      | true =>
        simp only [bind, Except.bind, hsecond, if_true]
        exact .marked (Features.isMarked_add _ _ _)
      | false =>
        simp only [bind, Except.bind, hsecond, Policy.admit_soft]
        exact .marked (Features.isMarked_add _ _ _)

/-- What a join function gives under both policies. -/
theorem JoinFn.enforces_apply (fn : JoinFn) (ctx : SemContext) (call : Call) :
    Enforces (fn.apply { ctx with joinPolicy := .hard } call).items
      (fn.apply { ctx with joinPolicy := .soft } call).items := by
  have hparts : ∀ policy, fn.parts { ctx with joinPolicy := policy } call = fn.parts ctx call := fun _ => rfl
  unfold apply
  rw [hparts .hard, hparts .soft]
  cases fn.parts ctx call with
  | error e => exact enforces_nil.cons (.failed e)
  | ok parts =>
    obtain ⟨binary, unary⟩ := parts
    exact enforces_filterMap fun slot _ => fn.hardened_slotItem ctx binary unary slot

/-- What a merge function gives under both policies. -/
theorem MergeFn.enforces_apply (fn : MergeFn) (ctx : SemContext) (call : Call) :
    Enforces (fn.apply { ctx with mergePolicy := .hard } call).items
      (fn.apply { ctx with mergePolicy := .soft } call).items := by
  have hparts : ∀ policy, fn.parts { ctx with mergePolicy := policy } call = fn.parts ctx call := fun _ => rfl
  unfold apply
  rw [hparts .hard, hparts .soft]
  cases fn.parts ctx call with
  | error e => exact enforces_nil.cons (.failed e)
  | ok parts =>
    obtain ⟨merged, type⟩ := parts
    dsimp only
    cases hvalid : type.isValid with
    | true =>
      rw [Policy.admit_of_isValid hvalid, Policy.admit_of_isValid hvalid]
      exact enforces_nil.cons (.admitted rfl hvalid)
    | false =>
      rw [Policy.admit_hard hvalid, Policy.admit_soft hvalid]
      refine enforces_nil.cons (Hardened.marked ?_)
      exact Features.isMarked_add _ _ _

/-- A merge whose type is not valid is there, with a mark. -/
theorem MergeFn.items_soft_of_not_isValid {fn : MergeFn} {ctx : SemContext} {call : Call} {merged : Formula}
    {type : SemType} (hparts : fn.parts ctx call = .ok (merged, type)) (hvalid : type.isValid = false) :
    ∃ c, (fn.apply { ctx with mergePolicy := .soft } call).items = [.ok c] ∧ c.isMarked = true := by
  have hsoft : fn.parts { ctx with mergePolicy := .soft } call = .ok (merged, type) := hparts
  unfold apply
  rw [hsoft]
  dsimp only
  rw [Policy.admit_soft hvalid]
  exact ⟨_, rfl, Features.isMarked_add _ _ _⟩

/-- **Dropping mismatches is marking them less what is marked**, for joins and for merges, whatever their options, their
context and their children are. -/
theorem hard_enforces_soft :
    (∀ (fn : JoinFn) (ctx : SemContext) (call : Call),
      Enforces (fn.apply { ctx with joinPolicy := .hard } call).items
        (fn.apply { ctx with joinPolicy := .soft } call).items) ∧
    ∀ (fn : MergeFn) (ctx : SemContext) (call : Call),
      Enforces (fn.apply { ctx with mergePolicy := .hard } call).items
        (fn.apply { ctx with mergePolicy := .soft } call).items :=
  ⟨JoinFn.enforces_apply, MergeFn.enforces_apply⟩

/-- A number and a text, to be merged. -/
def sampleMerge : Call where
  first := 0
  last := 2
  children := [⟨"$Number", 0, 1, .var "n", .int, "n"⟩, ⟨"$Text", 1, 2, .var "t", .string, "t"⟩]

/-- Intersections. -/
def sampleIntersection : MergeFn := ⟨.and, none, .form "MergeFn" [.leaf "and"]⟩

/-- Under the one policy their intersection is there and has a mark, and under the other it is gone. -/
theorem hard_enforces_soft_sample :
    (∃ c, (sampleIntersection.apply { mergePolicy := .soft } sampleMerge).items = [.ok c] ∧ c.isMarked = true) ∧
      (sampleIntersection.apply { mergePolicy := .hard } sampleMerge).items = [] := by
  have hmismatch : (SemType.meet .standard .int .string).isValid = false := by
    rw [SemType.int, SemType.string, SemType.meet_atomic, if_neg (by decide), if_neg (by decide)]
    rfl
  have hparts : sampleIntersection.parts {} sampleMerge =
      .ok (.merge .and (.var "n") (.var "t"), SemType.meet .standard .int .string) := rfl
  obtain ⟨c, hitems, hmarked⟩ := MergeFn.items_soft_of_not_isValid hparts hmismatch
  have henforces := hard_enforces_soft.2 sampleIntersection {} sampleMerge
  have hhard := henforces.unmarked (by simp [hitems])
  have hmarkedItem : isMarkedItem (.ok c) = true := hmarked
  refine ⟨⟨c, hitems, hmarked⟩, ?_⟩
  rw [hhard, hitems]
  simp [hmarkedItem]

end Parlance
