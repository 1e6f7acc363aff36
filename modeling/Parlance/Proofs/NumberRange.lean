import Parlance.Proofs.Rounding
import Parlance.Language.Analyzer
import Parlance.Semantics.Number

/-!
# `Proofs.NumberRange` — which numbers come out of a bounded range

The range bounds what is read off an annotation, and a reading outside it is none. It does not bound what is converted
from the text of a token, so that a number outside it comes out whenever it is converted, also after its own
annotation was turned down. And a number that is not defined is not outside of anything.

## Contents
- **Doubles.** `Float.le_of_not_lt`.
- **Sources.** `Annotated` and `Converted`, and `mem_items_iff`: which of them yields.
- **The range.** `apply_range`.
-/

namespace Parlance

/-- Doubles are in order, if both of them are defined. -/
theorem Float.le_of_not_lt {a b : Float} (ha : a.isNaN = false) (hb : b.isNaN = false) (h : ¬ a < b) : b ≤ a := by
  have hlt : Score.lt a b = false := decide_eq_false h
  have hle : Score.le b a = true := by
    refine Float.le_iff.mpr ⟨hb, ha, ?_⟩
    rw [← not_lt]
    intro hrank
    rw [Float.lt_iff.mpr ⟨ha, hb, hrank⟩] at hlt
    cases hlt
  exact of_decide_eq_true hle

namespace NumberFn

variable {fn : NumberFn} {ctx : SemContext} {ex : Example} {call : Call} {lo hi x : Float}

/-- The given tag is asked for, and no other one. -/
def AsksOnly (fn : NumberFn) (tag : String) : Prop := ∀ other, fn.asks other = true ↔ other = tag

theorem asksOnly_singleton (tag : String) : AsksOnly ⟨some [tag]⟩ tag := by
  intro other
  simp [asks]

/-! ## Sources -/

/-- The span is annotated as a number. -/
def Annotated (ex : Example) (call : Call) (x : Float) : Prop :=
  ∃ value, ex.info.nerSpan? "NUMBER" call.first call.last = some value ∧ Decimal.readFloat value = some x

/-- The span is a single token that is converted to a number. -/
structure Converted (options : NumberOptions) (ex : Example) (call : Call) (x : Float) : Prop where
  enabled : options.byConversion = true
  single : call.last - call.first = 1
  reads : ∃ token, ex.info.tokens[call.first]? = some token ∧ Decimal.readFloat token = some x

theorem annotated_iff : Annotated ex call x ↔ tagged? ex.info "NUMBER" call.first call.last = some x :=
  Option.bind_eq_some_iff.symm

/-- If only plain numbers are asked for there is no special reading. -/
theorem special?_eq_none (only : fn.AsksOnly "NUMBER") (options : NumberOptions) (info : LanguageInfo)
    (first last : Nat) : fn.special? options info first last = none := by
  have hnot : ∀ tag, tag ≠ "NUMBER" → fn.asks tag = false := by
    intro tag htag
    rw [← Bool.not_eq_true, only tag]
    exact htag
  unfold special?
  rw [hnot "ORDINAL" (by decide), hnot "PERCENT" (by decide), hnot "MONEY" (by decide)]
  rfl

theorem inRange_iff {options : NumberOptions} (range : options.range = some (lo, hi)) :
    inRange options x = true ↔ ¬ x < lo ∧ ¬ hi < x := by
  unfold inRange
  rw [range]
  simp

/-- What is not defined is in every range. -/
example : inRange { range := some (0, 10) } (0 / 0) = true := by decide +kernel

/-- What is read off the annotation: its number, if that is not outside the range. -/
theorem annotated?_eq_some_iff (only : fn.AsksOnly "NUMBER") {options : NumberOptions}
    (range : options.range = some (lo, hi)) {found : Value × SemType} :
    fn.annotated? options ex.info call.first call.last = some found ↔
      ∃ x, (.ofFloat x, numberType x) = found ∧ Annotated ex call x ∧ ¬ x < lo ∧ ¬ hi < x := by
  unfold annotated?
  rw [if_pos ((only _).mpr rfl), special?_eq_none only]
  simp only [annotated_iff, ← inRange_iff range]
  cases tagged? ex.info "NUMBER" call.first call.last with
  | none => simp
  | some y =>
    by_cases hy : inRange options y = true <;> simp [hy]

/-- What is converted: the number that a single token is read as, if conversion is asked for. -/
theorem converted?_eq_some_iff (only : fn.AsksOnly "NUMBER") {options : NumberOptions} {found : Value × SemType} :
    fn.converted? options ex.info call.first call.last = some found ↔
      ∃ x, (.ofFloat x, numberType x) = found ∧ Converted options ex call x := by
  have hasks : fn.asks "NUMBER" = true := (only _).mpr rfl
  unfold converted?
  simp only [Option.ite_none_right_eq_some, Option.map_eq_some_iff, Option.bind_eq_some_iff, Bool.and_eq_true,
    beq_iff_eq, hasks, and_true]
  constructor
  · rintro ⟨⟨henabled, hsingle⟩, x, hreads, hfound⟩
    exact ⟨x, hfound, henabled, hsingle, hreads⟩
  · rintro ⟨x, hfound, henabled, hsingle, hreads⟩
    exact ⟨⟨henabled, hsingle⟩, x, hreads, hfound⟩

/-- The meaning of a span that is a number. -/
def candidate (x : Float) : Candidate := { formula := .value (.number x none), type := numberType x }

theorem mem_apply_iff {item : Except SemanticError Candidate} : item ∈ (fn.apply ctx ex call).items ↔
    ∃ found, item = .ok { formula := .value found.1, type := found.2 } ∧
      (fn.annotated? ctx.numbers ex.info call.first call.last = some found ∨
        fn.annotated? ctx.numbers ex.info call.first call.last = none ∧
          fn.converted? ctx.numbers ex.info call.first call.last = some found) := by
  simp only [← Option.orElse_eq_some]
  unfold apply
  dsimp only
  split
  case h_1 v type hfound => simp [hfound, Stream.single]
  case h_2 hfound => simp [hfound, Stream.empty]

/-- **Where numbers come from.** What is yielded is the number of the annotation unless that is outside the range, and
else the number that the token is converted to. -/
theorem mem_items_iff (only : fn.AsksOnly "NUMBER") (range : ctx.numbers.range = some (lo, hi))
    {item : Except SemanticError Candidate} : item ∈ (fn.apply ctx ex call).items ↔
      ∃ x, item = .ok (candidate x) ∧
        (Annotated ex call x ∧ ¬ x < lo ∧ ¬ hi < x ∨
          (∀ y, Annotated ex call y → y < lo ∨ hi < y) ∧ Converted ctx.numbers ex call x) := by
  have hnone : fn.annotated? ctx.numbers ex.info call.first call.last = none ↔
      ∀ y, Annotated ex call y → y < lo ∨ hi < y := by
    simp only [Option.eq_none_iff_forall_ne_some, ne_eq, annotated?_eq_some_iff only range]
    constructor
    · intro h y hy
      by_contra hout
      exact h _ ⟨y, rfl, hy, not_or.mp hout⟩
    · rintro h found ⟨y, -, hy, hlo, hhi⟩
      exact (h y hy).elim hlo hhi
  rw [mem_apply_iff]
  simp only [hnone, annotated?_eq_some_iff only range, converted?_eq_some_iff only]
  constructor
  · rintro ⟨found, rfl, ⟨x, rfl, hx⟩ | ⟨hout, x, rfl, hx⟩⟩
    · exact ⟨x, rfl, .inl hx⟩
    · exact ⟨x, rfl, .inr ⟨hout, hx⟩⟩
  · rintro ⟨x, rfl, hx | ⟨hout, hx⟩⟩
    · exact ⟨_, rfl, .inl ⟨x, rfl, hx⟩⟩
    · exact ⟨_, rfl, .inr ⟨hout, x, rfl, hx⟩⟩

/-! ## The range -/

/-- **Where the range is kept.** If only plain numbers are asked for and they are bounded, each result is a number. It
lies in the range, unless it was read off the annotation while it or a bound is not defined, or was converted. A
number is yielded iff it is the one of the annotation and not outside the range, or is converted when there is no such
one; so the range does not hold back a converted number. -/
theorem apply_range (fn : NumberFn) (ctx : SemContext) (ex : Example) (call : Call) {lo hi : Float}
    (only : fn.AsksOnly "NUMBER") (range : ctx.numbers.range = some (lo, hi)) :
    (∀ item ∈ (fn.apply ctx ex call).items, ∃ x, item = .ok (candidate x) ∧
      (lo ≤ x ∧ x ≤ hi ∨ Annotated ex call x ∧ (x.isNaN ∨ lo.isNaN ∨ hi.isNaN) ∨
        Converted ctx.numbers ex call x)) ∧
    ∀ x, .ok (candidate x) ∈ (fn.apply ctx ex call).items ↔
      Annotated ex call x ∧ ¬ x < lo ∧ ¬ hi < x ∨
        (∀ y, Annotated ex call y → y < lo ∨ hi < y) ∧ Converted ctx.numbers ex call x := by
  simp only [mem_items_iff only range]
  constructor
  · rintro item ⟨x, rfl, ⟨hx, hlo, hhi⟩ | ⟨-, hx⟩⟩
    · refine ⟨x, rfl, ?_⟩
      by_cases hnan : x.isNaN ∨ lo.isNaN ∨ hi.isNaN
      · exact .inr (.inl ⟨hx, hnan⟩)
      · simp only [not_or, Bool.not_eq_true] at hnan
        obtain ⟨hxnan, hlonan, hhinan⟩ := hnan
        exact .inl ⟨Float.le_of_not_lt hxnan hlonan hlo, Float.le_of_not_lt hhinan hxnan hhi⟩
    · exact ⟨x, rfl, .inr (.inr hx)⟩
  · intro x
    constructor
    · rintro ⟨y, hy, h⟩
      obtain ⟨rfl, -⟩ : x = y ∧ numberType x = numberType y := by
        simpa [candidate, Value.ofFloat] using hy
      exact h
    · exact fun h => ⟨x, rfl, h⟩

/-- Asks for plain numbers from zero to ten, and converts what it can. -/
def sampleContext : SemContext := { numbers := { byConversion := true, range := some (0, 10) } }

/-- Two numbers, only the second one of which lies in the range. -/
def sampleExample : Example := { utterance := "42 7", info := Language.analyze true "42 7" }

theorem apply_range_sample :
    AsksOnly ⟨some ["NUMBER"]⟩ "NUMBER" ∧ sampleContext.numbers.range = some (0, 10) ∧
      .ok (candidate 7) ∈ (apply ⟨some ["NUMBER"]⟩ sampleContext sampleExample ⟨1, 2, []⟩).items := by
  have only := asksOnly_singleton "NUMBER"
  refine ⟨only, rfl, ?_⟩
  refine ((apply_range _ _ sampleExample ⟨1, 2, []⟩ only rfl).2 7).mpr (.inl ⟨⟨"7", ?_, ?_⟩, ?_, ?_⟩)
  · decide +kernel
  · decide +kernel
  · decide +kernel
  · decide +kernel

/-- **Not every number is in range**: `42` is turned down as an annotation, and then converted. -/
theorem apply_range_not :
    ¬ ∀ (fn : NumberFn) (ctx : SemContext) (ex : Example) (call : Call) (lo hi : Float),
      fn.AsksOnly "NUMBER" → ctx.numbers.range = some (lo, hi) →
      ∀ item ∈ (fn.apply ctx ex call).items, ∃ c x unit, item = .ok c ∧ c.formula = .value (.number x unit) ∧
        lo ≤ x ∧ x ≤ hi := by
  intro h
  have only := asksOnly_singleton "NUMBER"
  have hitem : .ok (candidate 42) ∈ (apply ⟨some ["NUMBER"]⟩ sampleContext sampleExample ⟨0, 1, []⟩).items := by
    refine (mem_items_iff only rfl).mpr ⟨42, rfl, .inr ⟨?_, rfl, rfl, "42", ?_, ?_⟩⟩
    · rintro y ⟨value, hvalue, hy⟩
      have hspan : sampleExample.info.nerSpan? "NUMBER" 0 1 = some "42" := by decide +kernel
      have hread : Decimal.readFloat "42" = some 42 := by decide +kernel
      obtain rfl := Option.some.inj (hspan.symm.trans hvalue)
      obtain rfl := Option.some.inj (hread.symm.trans hy)
      exact .inr (by decide +kernel)
    · decide +kernel
    · decide +kernel
  obtain ⟨c, x, unit, hc, hx, -, hle⟩ := h _ _ _ _ _ _ only rfl _ hitem
  obtain rfl := Except.ok.inj hc
  obtain ⟨rfl, -⟩ : 42 = x ∧ none = unit := by
    simpa [candidate] using hx
  exact absurd hle (by decide +kernel)

end NumberFn

end Parlance
