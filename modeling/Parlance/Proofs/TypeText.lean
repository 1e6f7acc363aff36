import Mathlib
import Parlance.Proofs.SexpRoundTrip
import Parlance.Proofs.SimplestForm

/-!
# `Proofs.TypeText` — which types read back

The text of a type is read by making the type anew: its unions are united again, and a leaf `top` is the type `top`.
A union in simplest form stays as it is when its members are united, so that what comes back is the type itself, for
just those types that are in simplest form and have no atomic type with the name `top`. Whatever is read is of that
kind. No other name is in the way: heads of lists are looked at only in front of a list, and a leaf is quoted where it
has to be.

## Contents
- **Names.** `names`, those of the atomic types in a type.
- **Writing, then reading.** `unionOf_members`, `ofSexp_toSexp`.
- **Reading, then writing.** `readingKeeps_names`.
- **Texts.** `reads_back_iff`.
-/

namespace Parlance.SemType

/-! ## Names -/

mutual
/-- The names of the atomic types in a type. -/
def names : SemType → List String
  | top => []
  | atomic name => [name]
  | func a r => names a ++ names r
  | union ms => namesOfAll ms
/-- The names of the atomic types in several types. -/
def namesOfAll : List SemType → List String
  | [] => []
  | t :: rest => names t ++ namesOfAll rest
end

theorem mem_namesOfAll {name : String} {ts : List SemType} :
    name ∈ namesOfAll ts ↔ ∃ t ∈ ts, name ∈ names t := by
  induction ts with
  | nil => simp [namesOfAll]
  | cons t rest ih => simp [namesOfAll, ih]

mutual
/-- A member of a type has no names but those of the type. -/
theorem names_subset_of_mem {m : SemType} (t : SemType) (h : m ∈ members t) : names m ⊆ names t := by
  cases t with
  | union ts => exact names_subset_of_mem_all ts h
  | func a r =>
    rw [members] at h
    split at h
    · exact List.mem_singleton.mp h ▸ List.Subset.refl _
    · cases h
  | _ => exact List.mem_singleton.mp h ▸ List.Subset.refl _
theorem names_subset_of_mem_all {m : SemType} (ts : List SemType) (h : m ∈ membersOfAll ts) :
    names m ⊆ namesOfAll ts := by
  cases ts with
  | nil => cases h
  | cons t rest =>
    rcases List.mem_append.mp h with h | h
    · exact List.subset_append_of_subset_left _ (names_subset_of_mem t h)
    · exact List.subset_append_of_subset_right _ (names_subset_of_mem_all rest h)
end

/-- A union has no names but those of the types that it unites. -/
theorem names_unionOf_subset (ts : List SemType) : names (unionOf ts) ⊆ namesOfAll ts := by
  by_cases htop : top ∈ membersOfAll ts
  · rw [unionOf_of_mem_top htop]
    exact List.nil_subset _
  · unfold unionOf
    dsimp only
    rw [if_neg (by rwa [List.contains_iff_mem])]
    split
    case h_1 t hsorted =>
      have hmem : t ∈ sortedSet le (membersOfAll ts) := hsorted ▸ List.mem_cons_self
      exact names_subset_of_mem_all ts (mem_sortedSet.mp hmem)
    case h_2 =>
      intro name hname
      obtain ⟨m, hm, hname⟩ := mem_namesOfAll.mp hname
      exact names_subset_of_mem_all ts (mem_sortedSet.mp hm) hname

/-! ## Writing, then reading -/

/-- **A union in simplest form** is what its members unite to. -/
theorem unionOf_members {ms : List SemType} (h : Simplified (union ms)) : unionOf ms = union ms := by
  have hmembers : membersOfAll ms = ms := members_union h
  cases h with
  | union _ hmember hsorted hlength =>
    have htop : top ∉ ms := fun h => by cases hmember _ h
    have hset : sortedSet le ms = ms := eq_of_mem_iff (pairwise_sortedSet ms) hsorted fun _ => mem_sortedSet
    unfold unionOf
    dsimp only
    rw [hmembers, if_neg (by rwa [List.contains_iff_mem]), hset]
    split
    case h_1 => exact absurd rfl hlength
    case h_2 => rfl

theorem toSexps_eq_map (ts : List SemType) : toSexps ts = ts.map toSexp := by
  induction ts with
  | nil => rfl
  | cons t rest ih => rw [toSexps, ih, List.map_cons]

theorem ofEach_eq_map (trees : List Sexp) : ofEach trees = trees.map ofSexp := by
  induction trees with
  | nil => rfl
  | cons tree rest ih => rw [ofEach, ih, List.map_cons]

/-- **The tree of a type stands for the type.** -/
theorem ofSexp_toSexp {t : SemType} (ht : Simplified t) (hnames : "top" ∉ t.names) : ofSexp t.toSexp = .ok t := by
  induction ht with
  | top =>
    rw [toSexp, ofSexp]
    rfl
  | atomic name =>
    have hname : name ≠ "top" := fun h => hnames (by simp [names, h])
    rw [toSexp, ofSexp]
    simp [hname]
  | @func a r _ _ iha ihr =>
    rw [names, List.mem_append, not_or] at hnames
    have heach : ofEach [toSexp a, toSexp r] = [.ok a, .ok r] := by
      rw [ofEach_eq_map, List.map_cons, List.map_singleton, iha hnames.1, ihr hnames.2]
    rw [toSexp, Sexp.form, ofSexp]
    simp only [Sexp.leaf?, heach]
    rfl
  | @union ms hms hmember hsorted hlength ih =>
    have heach : ofEach (toSexps ms) = ms.map .ok := by
      rw [toSexps_eq_map, ofEach_eq_map, List.map_map]
      refine List.map_congr_left fun m hm => ih m hm fun h => hnames ?_
      exact mem_namesOfAll.mpr ⟨m, hm, h⟩
    have hall : (ms.map Except.ok).mapM id = (.ok ms : Except ReadError (List SemType)) := by
      rw [List.mapM_map]
      exact List.mapM_pure.trans (congrArg Except.ok (List.map_id ms))
    rw [toSexp, Sexp.form, ofSexp]
    simp only [Sexp.leaf?, heach, hall]
    exact congrArg Except.ok (unionOf_members (.union hms hmember hsorted hlength))

/-! ## Reading, then writing -/

/-- No atomic type that is read has the name `top`. -/
theorem readingKeeps_names : ReadingKeeps fun t => "top" ∉ t.names where
  top := List.not_mem_nil
  atomic name hname h := hname (List.mem_singleton.mp h).symm
  func a r ha hr h := (List.mem_append.mp h).elim ha hr
  unionOf ts hts h := by
    obtain ⟨t, ht, hname⟩ := mem_namesOfAll.mp (names_unionOf_subset ts h)
    exact hts t ht hname

/-! ## Texts -/

theorem read_text_of_simplified {t : SemType} (ht : Simplified t) (hnames : "top" ∉ t.names) :
    read t.text = .ok t := by
  unfold read readWith text
  rw [Sexp.read_text]
  exact ofSexp_toSexp ht hnames

/-- **Which types read back**: a type is read from its text iff it is in simplest form and has no atomic type with
the name `top`. All types that are read are of that kind, so that the text of what was read from a text reads back. -/
theorem reads_back_iff :
    (∀ t : SemType, read t.text = .ok t ↔ Simplified t ∧ "top" ∉ t.names) ∧
      ∀ text t, read text = .ok t → read t.text = .ok t := by
  constructor
  · intro t
    exact ⟨fun h => ⟨simplified_read h, readingKeeps_names.read h⟩, fun h => read_text_of_simplified h.1 h.2⟩
  · intro text t h
    exact read_text_of_simplified (simplified_read h) (readingKeeps_names.read h)

/-- A function to nothing, from a union with the names that head lists and with names that have to be quoted. -/
def sampleArrow : SemType := func (union [atomic "", atomic "->", atomic "union", func top (atomic "a b")]) bottom

theorem reads_back_iff_sample :
    Simplified sampleArrow ∧ "top" ∉ sampleArrow.names ∧ read sampleArrow.text = .ok sampleArrow ∧
      read "(-> b (union a top) (union a a))" = .ok (func (atomic "b") (func top (atomic "a"))) ∧
      read (func (atomic "b") (func top (atomic "a"))).text = .ok (func (atomic "b") (func top (atomic "a"))) := by
  have hsimple : Simplified sampleArrow := by
    refine .func (.union ?_ ?_ ?_ ?_) simplified_bottom
    · intro m hm
      simp only [List.mem_cons, List.not_mem_nil, or_false] at hm
      rcases hm with rfl | rfl | rfl | rfl
      · exact .atomic _
      · exact .atomic _
      · exact .atomic _
      · exact .func .top (.atomic _)
    · decide
    · unfold Before
      decide
    · decide
  have hnames : "top" ∉ sampleArrow.names := by decide
  have hread : read "(-> b (union a top) (union a a))" = .ok (func (atomic "b") (func top (atomic "a"))) := by
    cbv
  obtain ⟨hiff, hagain⟩ := reads_back_iff
  exact ⟨hsimple, hnames, (hiff _).mpr ⟨hsimple, hnames⟩, hread, hagain _ _ hread⟩

end Parlance.SemType
