import Parlance.Proofs.SimplestForm
import Parlance.Semantics.Join

/-!
# `Proofs.JoinChecks` — the strict check before a join only removes joins

The default check applies the type of the binary to that of the unary. The strict one takes the argument type of the
whole binary, looks for it among the supertypes of the unary's members, and answers with the result type of the whole
binary. Both say the same of a join that the strict one lets pass: if the argument type of the whole is a name, that
name is the argument type of each function that the binary is made of, so one test decides for all of them.

## Contents
- **Below a name.** `isValid_meet_of_anyBelow`, what the test on supertypes says about the meet.
- **Argument types.** `mem_members_apply` and `argument_eq_of_mem`: the functions of a union share a name.
- **Both checks.** `retType_eq_apply` and `JoinCheck.specialized_removes_only`.
-/

namespace Parlance

theorem Hierarchy.mem_supertypes_iff {h : Hierarchy} {sub sup : String} :
    (h.supertypes sub).contains sup = true ↔ h.isSubtype sub sup = true := by
  unfold supertypes isSubtype
  rw [List.contains_iff_mem, List.mem_mergeSort]
  cases h.supers.get? sub with
  | some known => exact List.contains_iff_mem.symm
  | none => simp [implicit, or_assoc]

namespace SemType

variable {h : Hierarchy} {t u : SemType} {name : String}

/-! ## Below a name -/

theorem isValid_meet_atomic {sub sup : String} (hsub : h.isSubtype sub sup = true) :
    (meet h (atomic sup) (atomic sub)).isValid = true := by
  rw [meet_atomic, if_pos hsub]
  split <;> rfl

/-- A unary meets a name below which one of its members lies. -/
theorem isValid_meet_of_anyBelow {ts : List SemType} (hu : u.alternatives? = some ts)
    (hbelow : anyBelow h name ts = true) : (meet h (atomic name) u).isValid = true := by
  obtain ⟨m, hm, hmatch⟩ := List.any_eq_true.mp hbelow
  have hmeet : (meet h (atomic name) m).isValid = true := by
    cases m with
    | atomic sub => exact isValid_meet_atomic (Hierarchy.mem_supertypes_iff.mp hmatch)
    | _ => cases hmatch
  cases u with
  | atomic sub =>
    obtain rfl := Option.some.inj hu
    obtain rfl := List.mem_singleton.mp hm
    exact hmeet
  | union ms =>
    obtain rfl := Option.some.inj hu
    rw [meet_union_right h _ (by simp) (by simp), isValid_unionOf]
    exact ⟨_, List.mem_map_of_mem hm, hmeet⟩
  | _ => cases hu

/-! ## Argument types -/

/-- What a function among the members of a type gives is part of what the whole type gives, unless nothing is known
of that. -/
theorem mem_members_apply (ht : Simplified t) {a r argument m : SemType} (hf : func a r ∈ members t)
    (hvalid : (meet h a argument).isValid = true) (hm : m ∈ members r) :
    m ∈ members (apply h t argument) ∨ apply h t argument = top := by
  have hself : apply h (func a r) argument = r := by rw [apply, if_pos hvalid]
  by_cases hu : ∃ ms, t = union ms
  · obtain ⟨ms, rfl⟩ := hu
    rw [members_union ht] at hf
    have hall : m ∈ membersOfAll (ms.map fun s => apply h s argument) :=
      mem_membersOfAll.mpr ⟨r, List.mem_map.mpr ⟨_, hf, hself⟩, hm⟩
    rw [apply_union]
    by_cases htop : top ∈ membersOfAll (ms.map fun s => apply h s argument)
    · exact Or.inr (unionOf_of_mem_top htop)
    · exact Or.inl ((mem_members_unionOf htop).mpr hall)
  · -- a type that is no union has no other member than itself
    have hsingle : t = func a r := by
      rcases members_eq_self_or_nil (not_exists.mp hu) with hself | hnil
      · exact (List.mem_singleton.mp (hself ▸ hf)).symm
      · rw [hnil] at hf
        cases hf
    rw [hsingle, hself]
    exact Or.inl hm

/-- Something in simplest form that is a name in each of its members is that name. -/
theorem eq_atomic_of_members (ht : Simplified t) (hvalid : t.isValid = true)
    (hall : ∀ m ∈ members t, m = atomic name) : t = atomic name := by
  by_cases hu : ∃ ms, t = union ms
  · obtain ⟨ms, rfl⟩ := hu
    rw [members_union ht] at hall
    rw [isValid_iff, members_union ht] at hvalid
    cases ht with
    | union _ _ hordered hlength =>
      match ms, hvalid, hlength with
      | [], ⟨_, hm⟩, _ => cases hm
      | [_], _, hlength => exact absurd rfl hlength
      | m :: n :: rest, _, _ =>
        -- two members would be the same type, and a union has none twice
        have hm := hall m (by simp)
        have hn := hall n (by simp)
        exact absurd (hm.trans hn.symm) ((List.pairwise_cons.mp hordered).1 n (by simp)).2
  · obtain ⟨m, hm⟩ := (isValid_iff t).mp hvalid
    rcases members_eq_self_or_nil (not_exists.mp hu) with hself | hnil
    · exact hall t (by simp [hself])
    · rw [hnil] at hm
      cases hm

/-- **The functions of a union share a name** as their argument type if the union has it for its own. -/
theorem argument_eq_of_mem {ms : List SemType} (ht : Simplified (union ms))
    (hargument : argType h (union ms) = atomic name) {a r : SemType} (hf : func a r ∈ ms) : a = atomic name := by
  obtain ⟨hsimple, hmember⟩ : Simplified (func a r) ∧ isMember (func a r) = true := by
    cases ht with
    | union hms hmember => exact ⟨hms _ hf, hmember _ hf⟩
  obtain ⟨ha, hr⟩ : a.isValid = true ∧ r.isValid = true := by simpa [isMember] using hmember
  have hreversed : func r a ∈ members (reverse (union ms)) := by
    have hall : func r a ∈ membersOfAll (ms.map reverse) :=
      mem_membersOfAll.mpr ⟨func r a, List.mem_map.mpr ⟨_, hf, by rw [reverse]⟩, by simp [members, ha, hr]⟩
    rw [reverse_union]
    refine (mem_members_unionOf fun htop => ?_).mpr hall
    -- nothing would be known of the arguments
    rw [argType, reverse_union, unionOf_of_mem_top htop, apply] at hargument
    cases hargument
  cases hsimple with
  | func hsimple _ =>
    refine eq_atomic_of_members hsimple ha fun m hm => ?_
    have hvalid : (meet h r top).isValid = true := by simpa using hr
    have hpart := mem_members_apply (simplified_reverse ht) hreversed hvalid hm
    rw [← argType, hargument] at hpart
    simpa [members] using hpart

/-! ## Both checks -/

/-- A function or union of functions with a name for its argument type gives all of its results to whatever meets
that name. -/
theorem retType_eq_apply (ht : Simplified t) (hargument : argType h t = atomic name)
    (hmeet : (meet h (atomic name) u).isValid = true) : retType h t = apply h t u := by
  -- one function with the name for its argument gives the same both ways
  have hfunc : ∀ r, apply h (func (atomic name) r) top = apply h (func (atomic name) r) u := fun r => by
    rw [apply, apply, if_pos hmeet, meet_top_right]
    exact if_pos rfl
  cases t with
  | top => simp [argType, reverse, apply] at hargument
  | atomic x => simp [argType, reverse, apply, bottom, applyAll, unionOf, membersOfAll, sortedSet,
      dropRepeats] at hargument
  | func a r =>
    rw [argType, reverse, apply, meet_top_right] at hargument
    split at hargument
    · subst hargument
      exact hfunc r
    · cases hargument
  | union ms =>
    rw [retType, apply_union, apply_union]
    congr 1
    apply List.map_congr_left
    intro m hm
    have hmember : isMember m = true := by
      cases ht with
      | union _ hmember => exact hmember m hm
    cases m with
    | atomic x => rw [apply, apply]
    | func a r =>
      obtain rfl := argument_eq_of_mem ht hargument hm
      exact hfunc r
    | _ => cases hmember

end SemType

open SemType

/-- What the strict check does not rule out has the type that the default check gives it. -/
theorem JoinCheck.specialized_eq_bottom_or (h : Hierarchy) {binary : SemType} (hb : Simplified binary)
    (unary : SemType) :
    specialized.check binary unary h = bottom ∨
      specialized.check binary unary h = JoinCheck.apply.check binary unary h := by
  have happly : JoinCheck.apply.check binary unary h = binary.apply h unary := by rw [check]
  rw [happly]
  unfold check
  split
  case h_1 => contradiction
  case h_2 => exact Or.inl rfl
  case h_3 =>
    split
    case h_1 hu hargument =>
      split
      case isTrue hbelow =>
        exact Or.inr (retType_eq_apply hb hargument (isValid_meet_of_anyBelow hu hbelow))
      case isFalse => exact Or.inl rfl
    case h_2 => exact Or.inr rfl

namespace JoinFn

variable {fn : JoinFn} {ctx : SemContext}

/-- With the strict check a slot gives what it gives with the default one, or nothing. -/
theorem slotItem_specialized (hpolicy : ctx.joinPolicy = .hard) {binary : Part} (hb : Simplified binary.type)
    (unary : Part) (slot : Slot) :
    fn.slotItem { ctx with joinCheck := .specialized } binary unary slot = none ∨
      fn.slotItem { ctx with joinCheck := .specialized } binary unary slot =
        fn.slotItem { ctx with joinCheck := .apply } binary unary slot := by
  have hb' : Simplified (orient binary slot).type := by
    cases slot with
    | arg0 => exact simplified_reverse hb
    | arg1 => exact hb
  rcases JoinCheck.specialized_eq_bottom_or ctx.hierarchy hb' unary.type with hbottom | hsame
  · left
    simp [slotItem, join?, hbottom, hpolicy, Policy.admit]
    rfl
  · right
    simp only [slotItem, join?, hsame]
    rfl

end JoinFn

/-- Items that some positions of a list lack, and that are the same at all others, come in the same order. -/
theorem filterMap_sublist {α β : Type} {f g : α → Option β} {l : List α}
    (h : ∀ a ∈ l, f a = none ∨ f a = g a) : (l.filterMap f).Sublist (l.filterMap g) := by
  induction l with
  | nil => exact .slnil
  | cons a rest ih =>
    have hrest := ih fun b hb => h b (List.mem_cons_of_mem _ hb)
    rw [List.filterMap_cons, List.filterMap_cons]
    rcases h a List.mem_cons_self with hnone | hsame
    · rw [hnone]
      cases g a with
      | none => exact hrest
      | some b => exact hrest.cons b
    · rw [hsame]
      cases g a with
      | none => exact hrest
      | some b => exact hrest.cons_cons b

/-- **The strict check only removes joins.** Of a binary in simplest form and any unary it says `bottom`, or what the
default check says. So wherever mismatches are dropped, what a join function gives under the strict check is, in the
same order, a part of what it gives under the default one. -/
theorem JoinCheck.specialized_removes_only (h : Hierarchy) {binary : SemType} (hb : Simplified binary)
    (unary : SemType) :
    (specialized.check binary unary h = bottom ∨
      specialized.check binary unary h = JoinCheck.apply.check binary unary h) ∧
    ∀ (fn : JoinFn) (ctx : SemContext) (call : Call) (f g : Formula), ctx.joinPolicy = .hard →
      fn.parts ctx call = .ok (⟨f, binary⟩, ⟨g, unary⟩) →
      (fn.apply { ctx with joinCheck := .specialized } call).items.Sublist
        (fn.apply { ctx with joinCheck := .apply } call).items := by
  refine ⟨specialized_eq_bottom_or h hb unary, ?_⟩
  intro fn ctx call f g hpolicy hparts
  have hstrict : fn.parts { ctx with joinCheck := .specialized } call = .ok (⟨f, binary⟩, ⟨g, unary⟩) := hparts
  have hdefault : fn.parts { ctx with joinCheck := .apply } call = .ok (⟨f, binary⟩, ⟨g, unary⟩) := hparts
  simp only [JoinFn.apply, hstrict, hdefault]
  exact filterMap_sublist fun slot _ => JoinFn.slotItem_specialized hpolicy hb ⟨g, unary⟩ slot

/-- What relates numbers to dates, or numbers to texts. -/
def sampleRelation : SemType := union [func number date, func number string]

/-- A relation and a number, to be joined. -/
def sampleJoin : Call where
  first := 0
  last := 2
  children := [⟨"$Relation", 0, 1, .var "r", sampleRelation, "r"⟩, ⟨"$Number", 1, 2, .var "n", int, "n"⟩]

theorem JoinCheck.specialized_removes_only_sample :
    Simplified sampleRelation ∧
      (specialized.check sampleRelation int .standard = bottom ∨
        specialized.check sampleRelation int .standard =
          JoinCheck.apply.check sampleRelation int .standard) ∧
      (JoinFn.forwardBetaReduce.apply { joinCheck := .specialized } sampleJoin).items.Sublist
        (JoinFn.forwardBetaReduce.apply {} sampleJoin).items := by
  have hsimple : Simplified sampleRelation :=
    .union (by
      intro m hm
      rcases List.mem_pair.mp hm with rfl | rfl <;> exact .func (.atomic _) (.atomic _))
      (by decide) (by unfold Before; decide) (by decide)
  obtain ⟨hcheck, hjoins⟩ := JoinCheck.specialized_removes_only .standard hsimple int
  exact ⟨hsimple, hcheck, hjoins .forwardBetaReduce {} sampleJoin (.var "r") (.var "n") rfl rfl⟩

end Parlance
