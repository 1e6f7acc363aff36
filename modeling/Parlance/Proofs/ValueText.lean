import Parlance.Proofs.Misreading

/-!
# `Proofs.ValueText` — which values read back

A reader takes all parts of a value from leaves, except for the message of an error, for which it takes whatever
stands there, as it is printed. A message that is printed in quotes so comes back with the quotes on, and with one
more pair of them each time that the value is written and read again. Every value without such a message is read
back from its text.

## Contents
- **Parts.** `parts`, and what is assumed of the numbers and dates among them.
- **Messages.** `asPrinted`, and `text_leaf_eq_iff`: which texts are printed as they are.
- **The text of a value.** `reads_back_as_printed`.
-/

namespace Parlance

/-! ## Messages in quotes -/

namespace Sexp

theorem length_le_flatMap_escape (text : List Char) : text.length ≤ (text.flatMap escape).length := by
  induction text with
  | nil => exact Nat.le_refl 0
  | cons c rest ih =>
    have hone : 1 ≤ (escape c).length := by
      unfold escape
      split_ifs <;> simp
    rw [List.flatMap_cons, List.length_append, List.length_cons]
    omega

/-- A leaf is printed as it is iff it needs no quotes. -/
theorem text_leaf_eq_iff (message : String) :
    (leaf message).text = message ↔ needsQuotes message.toList = false := by
  unfold text chars leafChars
  constructor
  · intro h
    by_contra hquotes
    rw [if_pos (Bool.eq_true_of_not_eq_false hquotes)] at h
    -- with the quotes the text is longer by two
    have hlength := congrArg (fun s => s.toList.length) h
    have hescaped := length_le_flatMap_escape message.toList
    simp only [String.toList_ofList, List.cons_append, List.length_cons, List.length_append, List.length_nil] at hlength
    omega
  · intro h
    rw [h]
    exact String.ofList_toList

end Sexp

namespace Value

/-! ## Parts -/

mutual
/-- The value and all values inside it. -/
def parts : Value → List Value
  | list items => list items :: partsOfAll items
  | v => [v]
/-- The values and all values inside them. -/
def partsOfAll : List Value → List Value
  | [] => []
  | v :: rest => parts v ++ partsOfAll rest
end

mutual
/-- The value with the message of each error as it is printed. -/
def asPrinted : Value → Value
  | list items => list (asPrintedAll items)
  | error message => error (Sexp.leaf message).text
  | v => v
/-- The values with the message of each error as it is printed. -/
def asPrintedAll : List Value → List Value
  | [] => []
  | v :: rest => asPrinted v :: asPrintedAll rest
end

/-- What the texts of numbers are taken to satisfy: each of them reads back as a number that is the same. -/
def NumbersReadBack (vs : List Value) : Prop :=
  ∀ x unit, number x unit ∈ vs → ∃ y, Decimal.readFloat (Decimal.showFloat x) = some y ∧ sameNumber x y = true

/-- The dates fit their bits. -/
def DatesFit (vs : List Value) : Prop := ∀ d, date d ∈ vs → d.Fits

/-- No error has a message that is printed in quotes. -/
def NoneQuoted (vs : List Value) : Prop := ∀ message, error message ∈ vs → Sexp.needsQuotes message.toList = false

theorem NumbersReadBack.mono {vs ws : List Value} (h : NumbersReadBack ws) (hsub : vs ⊆ ws) : NumbersReadBack vs :=
  fun x unit hx => h x unit (hsub hx)

theorem DatesFit.mono {vs ws : List Value} (h : DatesFit ws) (hsub : vs ⊆ ws) : DatesFit vs :=
  fun d hd => h d (hsub hd)

theorem noneQuoted_append {vs ws : List Value} : NoneQuoted (vs ++ ws) ↔ NoneQuoted vs ∧ NoneQuoted ws := by
  unfold NoneQuoted
  simp only [List.mem_append, or_imp, forall_and]

theorem noneQuoted_error {message : String} :
    NoneQuoted [error message] ↔ Sexp.needsQuotes message.toList = false := by
  simp [NoneQuoted]

/-- A value that is neither a list nor an error has no message that could be quoted. -/
theorem noneQuoted_singleton {v : Value} (h : v.isError = false) : NoneQuoted [v] := by
  intro message hmessage
  obtain rfl := List.mem_singleton.mp hmessage
  cases h

/-! ## The text of a value -/

/-- What comes back from the tree of a value: the value as printed, which is the value itself iff no message in it is
quoted. -/
def ReadsAs (v w : Value) : Prop := v.asPrinted.same w = true ∧ (v.same w = true ↔ NoneQuoted v.parts)

/-- What comes back from the trees of several values. -/
def AllReadAs (vs ws : List Value) : Prop :=
  sameList (asPrintedAll vs) ws = true ∧ (sameList vs ws = true ↔ NoneQuoted (partsOfAll vs))

/-- A value without parts and without a message reads as whatever is the same. -/
theorem ReadsAs.of_same {v w : Value} (hprinted : v.asPrinted = v) (hparts : v.parts = [v])
    (herror : v.isError = false) (hsame : v.same w = true) : ReadsAs v w := by
  constructor
  · rw [hprinted]
    exact hsame
  · rw [hparts]
    exact iff_of_true hsame (noneQuoted_singleton herror)

mutual
/-- The tree of a value stands for the value as printed. -/
theorem exists_ofSexp (v : Value) (numbers : NumbersReadBack v.parts) (dates : DatesFit v.parts) :
    ∃ w, ofSexp v.toSexp = .ok w ∧ ReadsAs v w := by
  cases v with
  | boolean b =>
    refine ⟨boolean b, ?_, .of_same rfl rfl rfl (by simp [same])⟩
    cases b <;> rfl
  | number x unit =>
    obtain ⟨y, hy, hsame⟩ := numbers x unit List.mem_cons_self
    exact ⟨number y unit, ofSexp_number hy, .of_same rfl rfl rfl (by simp [same, hsame])⟩
  | string text => exact ⟨string text, rfl, .of_same rfl rfl rfl (by simp [same])⟩
  | name id description =>
    refine ⟨name id description, ?_, .of_same rfl rfl rfl (by simp [same])⟩
    cases description <;> rfl
  | date d =>
    -- the parts of a date are read as numbers with a sign, which fail if they do not fit
    have hd := dates d List.mem_cons_self
    exact ⟨date d, ofSexp_date hd, .of_same rfl rfl rfl (by simp [same])⟩
  | list items =>
    have hsub : partsOfAll items ⊆ (list items).parts := List.subset_cons_self _ _
    obtain ⟨ws, hws, hprinted, hiff⟩ := exists_ofSexps items (numbers.mono hsub) (dates.mono hsub)
    refine ⟨list ws, ?_, hprinted, ?_⟩
    · rw [toSexp, Sexp.form, ofSexp]
      show (do return list (← ofSexps (toSexps items))) = Except.ok (list ws)
      rw [hws]
      rfl
    · rw [same, hiff, parts, ← List.singleton_append, noneQuoted_append]
      exact ⟨fun h => ⟨noneQuoted_singleton rfl, h⟩, fun h => h.2⟩
  | error message =>
    -- the message is not taken from the leaf, but is the leaf as it is printed
    refine ⟨error (Sexp.leaf message).text, rfl, ?_, ?_⟩
    · simp [asPrinted, same]
    · show _ ↔ NoneQuoted [error message]
      rw [noneQuoted_error, ← Sexp.text_leaf_eq_iff, same, beq_iff_eq, eq_comm]
theorem exists_ofSexps (vs : List Value) (numbers : NumbersReadBack (partsOfAll vs))
    (dates : DatesFit (partsOfAll vs)) : ∃ ws, ofSexps (toSexps vs) = .ok ws ∧ AllReadAs vs ws := by
  cases vs with
  | nil => exact ⟨[], rfl, rfl, iff_of_true rfl fun _ h => absurd h List.not_mem_nil⟩
  | cons v rest =>
    have hleft : v.parts ⊆ partsOfAll (v :: rest) := List.subset_append_left _ _
    have hright : partsOfAll rest ⊆ partsOfAll (v :: rest) := List.subset_append_right _ _
    obtain ⟨w, hw, hprinted, hiff⟩ := exists_ofSexp v (numbers.mono hleft) (dates.mono hleft)
    obtain ⟨ws, hws, hallPrinted, hallIff⟩ := exists_ofSexps rest (numbers.mono hright) (dates.mono hright)
    refine ⟨w :: ws, ?_, ?_, ?_⟩
    · rw [toSexps, ofSexps, hw]
      show (do return w :: (← ofSexps (toSexps rest))) = Except.ok (w :: ws)
      rw [hws]
      rfl
    · rw [asPrintedAll, sameList, hprinted, hallPrinted]
      rfl
    · rw [sameList, Bool.and_eq_true, hiff, hallIff, partsOfAll, noneQuoted_append]
end

/-- **Which values read back.** From its text every value is read as it is printed, that is with its messages in
quotes where they are printed in quotes. So it reads back as the same value iff none of its errors, at any depth, has
such a message. -/
theorem reads_back_as_printed (v : Value) (numbers : NumbersReadBack v.parts) (dates : DatesFit v.parts) :
    ∃ w, Value.read v.text = .ok w ∧ v.asPrinted.same w = true ∧
      (v.same w = true ↔
        ∀ message, error message ∈ v.parts → Sexp.needsQuotes message.toList = false) := by
  obtain ⟨w, hw, hprinted, hiff⟩ := exists_ofSexp v numbers dates
  refine ⟨w, ?_, hprinted, hiff⟩
  rw [Value.read, readWith, text, Sexp.read_text]
  exact hw

/-- A list with a value of each kind, in which no message has to be quoted. -/
def sampleValue : Value :=
  list [boolean true, number 2.5 (some "m"), string "a b", name "fb:en.x" (some "X"), date ⟨2012, 3, -1⟩,
    list [error "lost", name "" none]]

theorem reads_back_as_printed_sample :
    NumbersReadBack sampleValue.parts ∧ DatesFit sampleValue.parts ∧
      ∃ w, Value.read sampleValue.text = .ok w ∧ sampleValue.same w = true := by
  have numbers : NumbersReadBack sampleValue.parts := by
    intro x unit hx
    obtain ⟨rfl, rfl⟩ : x = 2.5 ∧ unit = some "m" := by
      simpa [sampleValue, parts, partsOfAll] using hx
    have reads : (Decimal.readFloat (Decimal.showFloat 2.5)).any (sameNumber 2.5) = true := by
      decide +kernel
    exact (Option.any_eq_true _ _).mp reads
  have dates : DatesFit sampleValue.parts := by
    intro d hd
    obtain rfl : d = ⟨2012, 3, -1⟩ := by
      simpa [sampleValue, parts, partsOfAll] using hd
    unfold Date.Fits
    decide
  obtain ⟨w, hw, -, hiff⟩ := reads_back_as_printed sampleValue numbers dates
  refine ⟨numbers, dates, w, hw, hiff.mpr ?_⟩
  intro message hmessage
  obtain rfl : message = "lost" := by
    simpa [sampleValue, parts, partsOfAll] using hmessage
  decide

/-- **Not every value reads back**: the message `a b` comes back in quotes. -/
theorem reads_back_not :
    ¬ ∀ v : Value, NumbersReadBack v.parts → DatesFit v.parts →
      ∃ w, Value.read v.text = .ok w ∧ v.same w = true := by
  intro h
  obtain ⟨w, hw, hsame⟩ := h (error "a b") (by simp [NumbersReadBack, parts]) (by simp [DatesFit, parts])
  have hread : Value.read (error "a b").text = .ok (error "\"a b\"") := by
    rw [Value.read, readWith, text, Sexp.read_text]
    rfl
  obtain rfl := Except.ok.inj (hread.symm.trans hw)
  exact absurd hsame (by simp [same])

end Value

end Parlance
