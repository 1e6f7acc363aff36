import Mathlib.Data.List.Infix
import Parlance.Language.Analyzer

/-!
# `Proofs.EntitySpans` — which spans are named entities

Tags and values are two columns that nothing ties together. A span is one entity if its value goes on through all of
it and no further on either side. Of the tags only the first one is looked at, so the tokens after it may have others:
as long as their value is the same they belong to the entity. They all have the tag that is asked for if tokens with
the same value have the same tag, and that is so in whatever `Language.analyze` makes.

## Contents
- **Comparison signs.** `WithoutComparison`, and that `dropComparison` does that.
- **Spans.** `IsRun`, and `nerSpan?_eq_some_iff`.
- **Tags.** `TagsFollowValues`, and `nerSpan?_uniform`.
-/

namespace Parlance

/-- The first item found in a list is the largest one if larger ones come first. -/
theorem le_of_find? {α : Type} {p : α → Bool} {f : α → Nat} {l : List α} {a : α}
    (sorted : l.Pairwise fun b c => f c ≤ f b) (h : l.find? p = some a) :
    ∀ b ∈ l, p b = true → f b ≤ f a := by
  obtain ⟨-, before, after, rfl, hbefore⟩ := List.find?_eq_some_iff_append.mp h
  intro b hb hpb
  rcases List.mem_append.mp hb with hb | hb
  · -- nothing in front of what is found passes the test
    have hfails := hbefore b hb
    rw [hpb] at hfails
    cases hfails
  · rcases List.mem_cons.mp hb with rfl | hb
    · exact Nat.le_refl _
    · exact (List.pairwise_cons.mp (List.pairwise_append.mp sorted).2.1).1 b hb

namespace LanguageInfo

/-! ## Comparison signs -/

/-- The signs that may stand in front of a value. -/
def comparisons : List String := ["<=", ">=", "<", ">"]

/-- Whether a value starts with a comparison sign. -/
def StartsWith (value sign : String) : Prop := sign ∈ comparisons ∧ sign.toList <+: value.toList

/-- **A value without one leading comparison sign**: the longest one that it starts with is taken off. -/
inductive WithoutComparison (value : String) : String → Prop
  | sign {sign rest : String} : StartsWith value sign →
      (∀ other, StartsWith value other → other.length ≤ sign.length) → value = sign ++ rest →
      WithoutComparison value rest
  | bare : (∀ sign, ¬ StartsWith value sign) → WithoutComparison value value

theorem withoutComparison_dropComparison (value : String) : WithoutComparison value (dropComparison value) := by
  unfold dropComparison
  dsimp only
  split
  case h_1 sign hfind =>
    have hsign : sign.toList.isPrefixOf value.toList = true :=
      List.find?_some (p := fun op : String => op.toList.isPrefixOf value.toList) hfind
    rw [List.isPrefixOf_iff_prefix] at hsign
    refine .sign ⟨List.mem_of_find?_eq_some hfind, hsign⟩ ?_ ?_
    · rintro other ⟨hmem, hother⟩
      exact le_of_find? (f := String.length) (by decide) hfind other hmem (List.isPrefixOf_iff_prefix.mpr hother)
    · obtain ⟨rest, hrest⟩ := hsign
      apply String.toList_inj.mp
      rw [String.toList_append, String.toList_ofList, ← hrest, ← String.length_toList, List.drop_left]
  case h_2 hfind =>
    refine .bare ?_
    rintro sign ⟨hmem, hsign⟩
    exact List.find?_eq_none.mp hfind sign hmem (List.isPrefixOf_iff_prefix.mpr hsign)

/-- There is just one way to take a sign off. -/
theorem WithoutComparison.unique {value rest rest' : String} (h : WithoutComparison value rest)
    (h' : WithoutComparison value rest') : rest = rest' := by
  cases h with
  | bare hbare =>
    cases h' with
    | bare => rfl
    | sign hsign => exact absurd hsign (hbare _)
  | sign hsign hlongest heq =>
    cases h' with
    | bare hbare => exact absurd hsign (hbare _)
    | sign hsign' hlongest' heq' =>
      -- the two signs have the same length, so that the value falls apart in the same way
      have hlength := Nat.le_antisymm (hlongest' _ hsign) (hlongest _ hsign')
      have happ := congrArg String.toList (heq.symm.trans heq')
      rw [String.toList_append, String.toList_append] at happ
      rw [← String.length_toList, ← String.length_toList] at hlength
      exact String.toList_inj.mp (List.append_inj happ hlength).2

theorem withoutComparison_iff {value result : String} :
    WithoutComparison value result ↔ dropComparison value = result :=
  ⟨(withoutComparison_dropComparison value).unique, fun h => h ▸ withoutComparison_dropComparison value⟩

/-! ## Spans -/

variable {info : LanguageInfo} {tag : String} {first last : Nat} {result : String}

/-- **A maximal run of a value**: the value of every token of a span and of neither neighbour. -/
structure IsRun (info : LanguageInfo) (value : String) (first last : Nat) : Prop where
  inside : ∀ i, first ≤ i → i < last → info.nerValue? i = some value
  before : 0 < first → info.nerValue? (first - 1) ≠ some value
  after : info.nerValue? last ≠ some value

/-- A token that is not there has no value. -/
theorem lt_of_nerValue? {i : Nat} {value : String} (h : info.nerValue? i = some value) :
    i < info.nerValues.length := by
  unfold nerValue? at h
  by_contra hi
  rw [List.getElem?_eq_none (Nat.le_of_not_lt hi)] at h
  cases h

/-- What `nerSpan?` asks of a span, check by check. -/
theorem nerSpan?_checks : info.nerSpan? tag first last = some result ↔
    ∃ value, info.nerValue? first = some value ∧ info.nerTags[first]? = some tag ∧
      (0 < first → info.nerValue? (first - 1) ≠ some value) ∧
      (last < info.nerValues.length → info.nerValue? last ≠ some value) ∧
      (∀ i ∈ List.range' (first + 1) (last - (first + 1)), info.nerValue? i = some value) ∧
      dropComparison value = result := by
  unfold nerSpan?
  simp only [Option.bind_eq_bind, Option.bind_none, Option.bind_eq_some_iff, Option.ite_none_left_eq_some]
  simp only [Option.pure_def, Option.some.injEq, Bool.and_eq_true, decide_eq_true_eq, beq_iff_eq, not_and,
    Bool.not_eq_true', Bool.not_eq_false, List.all_eq_true, ne_eq, not_not]

/-- **A span is an entity** iff its first token has the tag and its value goes on for just that span. -/
theorem nerSpan?_eq_some_iff (h : first < last) : info.nerSpan? tag first last = some result ↔
    ∃ value, info.nerTags[first]? = some tag ∧ info.IsRun value first last ∧ WithoutComparison value result := by
  rw [nerSpan?_checks]
  refine exists_congr fun value => ⟨?_, ?_⟩
  · rintro ⟨hfirst, htag, hbefore, hafter, hinside, hresult⟩
    refine ⟨htag, ⟨?_, hbefore, ?_⟩, withoutComparison_iff.mpr hresult⟩
    · intro i hi hlast
      rcases Nat.eq_or_lt_of_le hi with rfl | hi
      · exact hfirst
      · exact hinside i (List.mem_range'_1.mpr (by omega))
    · intro hlast
      exact hafter (lt_of_nerValue? hlast) hlast
  · rintro ⟨htag, hrun, hresult⟩
    refine ⟨hrun.inside first (Nat.le_refl _) h, htag, hrun.before, fun _ => hrun.after, ?_,
      withoutComparison_iff.mp hresult⟩
    intro i hi
    rw [List.mem_range'_1] at hi
    exact hrun.inside i (by omega) (by omega)

/-! ## Tags -/

/-- Every token of a span has the tag. -/
def AllTagged (info : LanguageInfo) (tag : String) (first last : Nat) : Prop :=
  ∀ i, first ≤ i → i < last → info.nerTags[i]? = some tag

/-- Tokens with the same value have the same tag. -/
def TagsFollowValues (info : LanguageInfo) : Prop :=
  ∀ i j value, info.nerValue? i = some value → info.nerValue? j = some value →
    info.nerTags[i]? = info.nerTags[j]?

theorem IsRun.allTagged {value : String} (hrun : info.IsRun value first last) (hfollow : info.TagsFollowValues)
    (h : first < last) (htag : info.nerTags[first]? = some tag) : info.AllTagged tag first last := by
  intro i hi hlast
  rw [← htag]
  exact hfollow i first value (hrun.inside i hi hlast) (hrun.inside first (Nat.le_refl _) h)

end LanguageInfo

namespace Language

open LanguageInfo

/-- The tag of a word can be told from its value. -/
theorem tag_eq_of_value (word : String) :
    (tag word).2.1 = if (tag word).2.2 = unknown then unknown else "NUMBER" := by
  unfold tag
  split
  case h_1 n hn =>
    have hlt : n < 11 := (List.idxOf?_eq_some_iff.mp hn).1
    have hvalue : ∀ n < 11, toString n ≠ unknown := by decide
    rw [if_neg (hvalue n hlt)]
  case h_2 =>
    split
    case isTrue hnumber =>
      have hword : word ≠ unknown := by
        rintro rfl
        revert hnumber
        decide
      rw [if_neg hword]
    case isFalse => rfl

/-- **Words of the same value have the same tag**, in every analysis. -/
theorem tagsFollowValues_analyze (lower : Bool) (utterance : String) :
    (analyze lower utterance).TagsFollowValues := by
  have htag : ∀ i value, (analyze lower utterance).nerValue? i = some value →
      (analyze lower utterance).nerTags[i]? = some (if value = unknown then unknown else "NUMBER") := by
    intro i value hvalue
    unfold analyze at *
    unfold nerValue? at hvalue
    simp only [List.map_map, List.getElem?_map, Option.join_eq_some_iff, Option.map_eq_some_iff] at *
    obtain ⟨word, hword, hvalue⟩ := hvalue
    obtain rfl := Option.some.inj hvalue
    exact ⟨word, hword, tag_eq_of_value word⟩
  intro i j value hi hj
  rw [htag i value hi, htag j value hj]

end Language

namespace LanguageInfo

/-- **Which spans are entities.** A span is read with a tag iff its first token has that tag and it is a maximal run
of one value, which is what is read, less a comparison sign. If tokens with the same value have the same tag, as in
every analysis that `Language.analyze` makes, the tag is that of all tokens of the span. -/
theorem nerSpan?_uniform (info : LanguageInfo) (tag : String) {first last : Nat} (h : first < last)
    (result : String) :
    (info.nerSpan? tag first last = some result ↔
      ∃ value, info.nerTags[first]? = some tag ∧ info.IsRun value first last ∧ WithoutComparison value result) ∧
    (info.TagsFollowValues →
      (info.nerSpan? tag first last = some result ↔
        ∃ value, info.AllTagged tag first last ∧ info.IsRun value first last ∧ WithoutComparison value result)) := by
  refine ⟨nerSpan?_eq_some_iff h, fun hfollow => ?_⟩
  rw [nerSpan?_eq_some_iff h]
  refine exists_congr fun value => and_congr_left ?_
  rintro ⟨hrun, -⟩
  exact ⟨hrun.allTagged hfollow h, fun hall => hall first (Nat.le_refl _) h⟩

/-- `five` and `5` have the same value, and the word after them has another one. -/
theorem nerSpan?_uniform_sample :
    0 < 2 ∧ (Language.analyze true "five 5 <=5").TagsFollowValues ∧
      (Language.analyze true "five 5 <=5").nerSpan? "NUMBER" 0 2 = some "5" := by
  have hfollow := Language.tagsFollowValues_analyze true "five 5 <=5"
  refine ⟨by decide, hfollow, ?_⟩
  refine ((nerSpan?_uniform _ "NUMBER" (by decide) "5").2 hfollow).mpr ⟨"5", ?_, ⟨?_, ?_, ?_⟩, ?_⟩
  · unfold AllTagged
    decide +kernel
  · decide +kernel
  · decide
  · decide +kernel
  · exact .bare (by simp [StartsWith, comparisons])

/-- **The tag need not be that of all tokens**: a number may go on with a date of the same value. -/
theorem nerSpan?_uniform_not :
    ¬ ∀ (info : LanguageInfo) (tag : String) (first last : Nat), info.align = info → first < last →
      last ≤ info.length →
      ((info.nerSpan? tag first last).isSome = true ↔
        ∃ value, info.AllTagged tag first last ∧ info.IsRun value first last) := by
  intro h
  let info : LanguageInfo :=
    { tokens := ["a", "b"], nerTags := ["NUMBER", "DATE"], nerValues := [some "5", some "5"] }
  obtain ⟨-, htagged, -⟩ := (h info.align "NUMBER" 0 2 (by decide) (by decide) (by decide)).mp (by decide)
  exact absurd (htagged 1 (by decide) (by decide)) (by decide)

end LanguageInfo

end Parlance
