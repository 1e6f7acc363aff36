import Parlance.Formula.Text
import Parlance.Proofs.Fold
import Parlance.Proofs.SexpRoundTrip
import Parlance.Proofs.Subformulas
import Mathlib.Tactic.FinCases

/-!
# `Proofs.Misreading` — which formulas are misread

The text of a formula is a list with a word in front, or a list of two for a join. So a join whose
relation is written as one of those words is taken for something else, and so is a superlative whose
rank or count is written like a whole number; a list of values and an error have no text of their own
as formulas. Every other formula is read back from its text.

## Contents
- **Numbers.** `readSigned_toString`: whole numbers are read off their digits.
- **Values.** `Value.ofSexp_number` and `Value.ofSexp_date`: numbers and dates are read off their texts.
- **Misreading.** The relation `Misread` of a formula that goes wrong at its root.
- **Reading.** What `ofSexp` makes of each kind of formula, as one equation per kind.
- **Survival.** `Survives` for each kind of formula in terms of its parts, and so `survives_iff`.
- **The text of a formula.** `read_text_iff`.
-/

namespace Parlance

/-! ## Numbers -/

namespace Decimal

/-- The digits of a natural number denote it. -/
theorem readDigits_toDigits (n : Nat) : readDigits (Nat.toDigits 10 n) = some n := by
  have digits : (Nat.toDigits 10 n).all Char.isDigit = true :=
    List.all_eq_true.mpr fun c hc => Nat.isDigit_of_mem_toDigits (by decide) (by decide) hc
  have value : ofDigits (Nat.toDigits 10 n) = n := by
    show Nat.ofDigitChars 10 _ 0 = n
    exact Nat.ofDigitChars_ten_toDigits
  simp [readDigits, digits, value, List.isEmpty_eq_false_iff]

/-- Digits have no sign in front. -/
theorem splitSign_toDigits (n : Nat) :
    splitSign (Nat.toDigits 10 n) = (false, Nat.toDigits 10 n) := by
  have digit : ∀ {c rest}, Nat.toDigits 10 n = c :: rest → c.isDigit = true := fun h =>
    Nat.isDigit_of_mem_toDigits (b := 10) (n := n) (by decide) (by decide) (by simp [h])
  unfold splitSign
  split
  case h_1 h => cases digit h
  case h_2 h => cases digit h
  case h_3 => rfl

/-- A sign and digits whose number fits the bits are read as that number. -/
theorem readSigned_of_splitSign {bits n : Nat} {text : String} (negative : Bool) (digits : List Char)
    {value : Int} (sign : splitSign text.toList = (negative, digits))
    (hdigits : readDigits digits = some n) (hvalue : value = if negative then -(n : Int) else n)
    (low : -(Nat.pow 2 (bits - 1) : Int) ≤ value) (high : value < Nat.pow 2 (bits - 1)) :
    readSigned bits text = some value := by
  have range : (decide (-(Nat.pow 2 (bits - 1) : Int) ≤ value) &&
      decide (value < Nat.pow 2 (bits - 1))) = true := by simp only [low, high]; rfl
  subst hvalue
  rw [readSigned, sign]
  show (readDigits digits).bind _ = _
  rw [hdigits]
  exact if_pos range

/-- An integer that fits the bits is read off its text. -/
theorem readSigned_toString {bits : Nat} {n : Int} (low : -(Nat.pow 2 (bits - 1) : Int) ≤ n)
    (high : n < Nat.pow 2 (bits - 1)) : readSigned bits (toString n) = some n := by
  rw [Int.toString_eq_repr, Int.repr_eq_if]
  split
  case isTrue h =>
    refine readSigned_of_splitSign false (Nat.toDigits 10 n.toNat) ?_
      (readDigits_toDigits n.toNat) ?_ low high
    · rw [Nat.toList_repr, splitSign_toDigits]
    · simp only [Bool.false_eq_true, if_false]; omega
  case isFalse h =>
    refine readSigned_of_splitSign true (Nat.toDigits 10 (-n).toNat) ?_
      (readDigits_toDigits (-n).toNat) ?_ low high
    · rw [String.toList_append, Nat.toList_repr]; rfl
    · simp only [if_true]; omega

end Decimal

/-! ## Values -/

/-- The parts of a date fit their bits. -/
def Date.Fits (d : Date) : Prop :=
  ∀ n ∈ [d.year, d.month, d.day], -(Nat.pow 2 (bits - 1) : Int) ≤ n ∧ n < Nat.pow 2 (bits - 1)

namespace Value

/-- A number is read off the text of a number; the unit, if there is one, is the third member. -/
theorem ofSexp_number {x y : Float} {unit : Option String} (h : Decimal.readFloat (Decimal.showFloat x) = some y) :
    ofSexp (number x unit).toSexp = .ok (number y unit) := by
  cases unit <;>
    simp [toSexp, Sexp.form, ofSexp, Sexp.leaf?, leafAt, Sexp.childLeaf?, Sexp.child?, Sexp.children, bind,
      Except.bind, h, pure, Except.pure]

/-- A part of a date is read off the leaf that it is written as. -/
theorem datePart_eq {tree : Sexp} {i : Nat} {n : Int} (leaf : tree.childLeaf? i = some (toString n))
    (low : -(Nat.pow 2 (Date.bits - 1) : Int) ≤ n) (high : n < Nat.pow 2 (Date.bits - 1)) :
    datePart tree i = .ok n := by
  have hleaf : leafAt tree i = .ok (toString n) := by
    unfold leafAt
    rw [leaf]
  unfold datePart
  rw [hleaf]
  dsimp only [bind, Except.bind]
  rw [Decimal.readSigned_toString low high]
  rfl

theorem ofSexp_date {d : Date} (h : d.Fits) : ofSexp (date d).toSexp = .ok (date d) := by
  have hyear := h d.year (by simp)
  have hmonth := h d.month (by simp)
  have hday := h d.day (by simp)
  -- four members: the parts are read one by one
  simp only [toSexp, Sexp.form, ofSexp, Sexp.leaf?]
  rw [if_neg (by simp [Sexp.length, Sexp.children]), datePart_eq rfl hyear.1 hyear.2, datePart_eq rfl hmonth.1 hmonth.2,
    datePart_eq rfl hday.1 hday.2]
  rfl

end Value

/-! ## Misreading -/

namespace Formula

theorem mem_subformulas_value {v : Value} {g : Formula} :
    g ∈ (value v).subformulas ↔ g = value v := by
  rw [mem_subformulas]
  simp [children]

/-- What the texts of numbers are taken to satisfy: each number in the formula reads back as a number
that is the same. -/
def NumbersReadBack (f : Formula) : Prop :=
  ∀ x unit, value (.number x unit) ∈ f.subformulas →
    ∃ y, Decimal.readFloat (Decimal.showFloat x) = some y ∧ Value.sameNumber x y = true

/-- The dates in the formula fit their bits. -/
def DatesFit (f : Formula) : Prop := ∀ d, value (.date d) ∈ f.subformulas → d.Fits

theorem NumbersReadBack.child {f c : Formula} (h : f.NumbersReadBack) (hc : c ∈ f.children) :
    c.NumbersReadBack := fun x unit hx => h x unit (mem_subformulas.mpr (.inr ⟨c, hc, hx⟩))

theorem DatesFit.child {f c : Formula} (h : f.DatesFit) (hc : c ∈ f.children) : c.DatesFit :=
  fun d hd => h d (mem_subformulas.mpr (.inr ⟨c, hc, hd⟩))

/-- The words that make a list of two something else than a join. -/
def reservedWords : List String :=
  ["boolean", "number", "string", "date", "name", "var", "lambda", "mark", "not", "reverse", "call",
    "and", "or", "count", "sum", "avg", "min", "max", "argmax", "argmin"]

/-- **Misreading at the root**: the formula is not what its text stands for, whatever its parts are. -/
inductive Misread : Formula → Prop
  | list {items : List Value} : Misread (value (.list items))
  | error {text : String} : Misread (value (.error text))
  | join {word : String} {child : Formula} (h : word ∈ reservedWords) :
    Misread (join (ofName word) child)
  | rank {mode : SuperlativeMode} {id : String} {count head relation : Formula}
    (h : (Decimal.readSigned 64 id).isSome) :
    Misread (superlative mode (ofName id) count head relation)
  | count {mode : SuperlativeMode} {rank : Formula} {id : String} {head relation : Formula}
    (h : (Decimal.readSigned 64 id).isSome) :
    Misread (superlative mode rank (ofName id) head relation)

/-- Whether a formula is what the tree that it is written as stands for. -/
def Survives (f : Formula) : Prop := ∃ g, ofSexp f.toSexp = .ok g ∧ f.same g = true

/-! ## Reading -/

section Reading

variable (x : String) (f a b c : Formula)

theorem ofSexp_merge (m : MergeMode) : ofSexp (merge m a b).toSexp = (do
    let a' ← ofSexp a.toSexp
    let b' ← ofSexp b.toSexp
    return merge m a' b') := by cases m <;> rfl

theorem ofSexp_arithmetic (m : ArithmeticMode) : ofSexp (arithmetic m a b).toSexp = (do
    let a' ← ofSexp a.toSexp
    let b' ← ofSexp b.toSexp
    return arithmetic m a' b') := by cases m <;> rfl

theorem ofSexp_aggregate (m : AggregateMode) : ofSexp (aggregate m c).toSexp = (do
    return aggregate m (← ofSexp c.toSexp)) := by cases m <;> rfl

theorem ofSexp_not : ofSexp (not c).toSexp = (do return not (← ofSexp c.toSexp)) := rfl

theorem ofSexp_reverse : ofSexp (reverse c).toSexp = (do return reverse (← ofSexp c.toSexp)) := rfl

theorem ofSexp_lambda : ofSexp (lambda x c).toSexp = (do return lambda x (← ofSexp c.toSexp)) := rfl

theorem ofSexp_mark : ofSexp (mark x c).toSexp = (do return mark x (← ofSexp c.toSexp)) := rfl

theorem ofSexp_call (as : List Formula) : ofSexp (call f as).toSexp = (do
    let as' ← (ofEach (toSexps as)).mapM id
    let f' ← ofSexp f.toSexp
    return call f' as') := rfl

/-- What is read where a superlative has its rank or its count. -/
def ofRank (tree : Sexp) : Except ReadError Formula :=
  match tree.leaf?.bind (Decimal.readSigned 64) with
  | some n => .ok (value (.ofFloat (Float.ofInt n)))
  | none => ofSexp tree

theorem ofSexp_superlative (m : SuperlativeMode) : ofSexp (superlative m a b c f).toSexp = (do
    let a' ← ofRank a.toSexp
    let b' ← ofRank b.toSexp
    let c' ← ofSexp c.toSexp
    let f' ← ofSexp f.toSexp
    return superlative m a' b' c' f') := by cases m <;> rfl

/-- Without a reserved word in front, a list is read as a join. -/
theorem formula_eq_join (form : Form)
    (h : ∀ word, (Sexp.list form.items).head? = some word → word ∉ reservedWords)
    (length : form.items.length = 2) : form.formula = form.join := by
  have arithmetic : ∀ left right : Except ReadError Formula,
      (if form.items.length = 3 then left else right) = right := fun _ _ => if_neg (by omega)
  unfold Form.formula
  split
  case h_12 word _ _ _ _ _ _ _ _ _ _ _ hword =>
    have free := h word hword
    have merge : MergeMode.ofWord word = none := by
      unfold MergeMode.ofWord; split <;> first | rfl | exact absurd (by decide) free
    have aggregate : AggregateMode.ofWord word = none := by
      unfold AggregateMode.ofWord; split <;> first | rfl | exact absurd (by decide) free
    have superlative : SuperlativeMode.ofWord word = none := by
      unfold SuperlativeMode.ofWord; split <;> first | rfl | exact absurd (by decide) free
    simp only [Form.operator, merge, aggregate, superlative, arithmetic]
    split <;> rfl
  case h_13 => rfl
  all_goals
    rename_i hword
    exact absurd (by decide) (h _ hword)

/-- With a reserved word in front, a list is never read as a join. -/
theorem formula_ne_join (form : Form) {word : String} (head : (Sexp.list form.items).head? = some word)
    (reserved : word ∈ reservedWords) (relation child : Formula) :
    form.formula ≠ .ok (join relation child) := by
  intro h
  unfold Form.formula at h
  rw [head] at h
  fin_cases reserved
  all_goals
    simp [Form.operator, MergeMode.ofWord, AggregateMode.ofWord, SuperlativeMode.ofWord, bind_eq_ok,
      pure, Except.pure] at h
  -- a call is left: whether it has a function makes no difference
  split at h <;> simp [bind_eq_ok] at h

theorem ofSexp_join (relation child : Formula)
    (h : ∀ word, relation.toSexp.leaf? = some word → word ∉ reservedWords) :
    ofSexp (join relation child).toSexp = (do
      let relation' ← ofSexp relation.toSexp
      let child' ← ofSexp child.toSexp
      return join relation' child') :=
  formula_eq_join ⟨[relation.toSexp, child.toSexp], _⟩ h rfl

end Reading

/-! ## Survival -/

section Survival

variable {f a b c : Formula}

/-- A formula whose text is read by reading its only part. -/
theorem survives_one {k : Formula → Formula}
    (read : ofSexp f.toSexp = (do return k (← ofSexp c.toSexp)))
    (same : ∀ c', f.same (k c') = c.same c') : Survives f ↔ Survives c := by
  constructor
  · rintro ⟨g, hg, hs⟩
    rw [read] at hg
    obtain ⟨c', hc, hg⟩ := bind_eq_ok.mp hg
    obtain rfl := Except.ok.inj hg
    exact ⟨c', hc, (same c').symm.trans hs⟩
  · rintro ⟨c', hc, hs⟩
    refine ⟨k c', ?_, (same c').trans hs⟩
    rw [read, hc]
    rfl

/-- A formula whose text is read by reading its two parts. -/
theorem survives_two {k : Formula → Formula → Formula}
    (read : ofSexp f.toSexp = (do
      let a' ← ofSexp a.toSexp
      let b' ← ofSexp b.toSexp
      return k a' b'))
    (same : ∀ a' b', f.same (k a' b') = (a.same a' && b.same b')) :
    Survives f ↔ Survives a ∧ Survives b := by
  constructor
  · rintro ⟨g, hg, hs⟩
    rw [read] at hg
    obtain ⟨a', ha, hg⟩ := bind_eq_ok.mp hg
    obtain ⟨b', hb, hg⟩ := bind_eq_ok.mp hg
    obtain rfl := Except.ok.inj hg
    rw [same, Bool.and_eq_true] at hs
    exact ⟨⟨a', ha, hs.1⟩, b', hb, hs.2⟩
  · rintro ⟨⟨a', ha, hsa⟩, b', hb, hsb⟩
    refine ⟨k a' b', ?_, by rw [same, hsa, hsb]; rfl⟩
    rw [read, ha, hb]
    rfl

/-! ### Values -/

/-- A value that reads back as a value, and is a list with the word of its kind in front. -/
theorem survives_value {v w : Value} (written : ofSexp v.toSexp = (do return value (← Value.ofSexp v.toSexp)))
    (read : Value.ofSexp v.toSexp = .ok w) (same : v.same w = true) : Survives (value v) := by
  refine ⟨value w, ?_, same⟩
  show ofSexp v.toSexp = _
  rw [written, read]
  rfl

theorem survives_boolean (t : Bool) : Survives (value (.boolean t)) :=
  survives_value (w := .boolean t) rfl (by cases t <;> rfl) (by simp [Value.same])

theorem survives_number {x : Float} {unit : Option String}
    (h : ∃ y, Decimal.readFloat (Decimal.showFloat x) = some y ∧ Value.sameNumber x y = true) :
    Survives (value (.number x unit)) := by
  obtain ⟨y, hy, hs⟩ := h
  exact survives_value (by cases unit <;> rfl) (Value.ofSexp_number hy) (by simp [Value.same, hs])

theorem survives_string (text : String) : Survives (value (.string text)) :=
  survives_value (w := .string text) rfl rfl (by simp [Value.same])

theorem survives_name (id : String) (description : Option String) :
    Survives (value (.name id description)) := by
  cases description with
  | none => exact ⟨ofName id, rfl, by simp [ofName, Value.ofName, same, Value.same]⟩
  | some description =>
    exact survives_value (w := .name id (some description)) rfl rfl (by simp [Value.same])

theorem survives_date {d : Date} (h : d.Fits) : Survives (value (.date d)) :=
  survives_value rfl (Value.ofSexp_date h) (by simp [Value.same])

theorem exists_of_join_eq_ok {form : Form} {g : Formula} (h : form.join = .ok g) :
    ∃ relation child, g = join relation child := by
  unfold Form.join at h
  split at h
  · cases (show Except.error _ = Except.ok g from h)
  · obtain ⟨relation, -, h⟩ := bind_eq_ok.mp h
    obtain ⟨child, -, h⟩ := bind_eq_ok.mp h
    exact ⟨relation, child, (Except.ok.inj h).symm⟩

/-- A value whose tree is read as a join, or refused, does not survive. -/
theorem not_survives_of_join {v : Value} {form : Form} (written : ofSexp v.toSexp = form.join) :
    ¬ Survives (value v) := by
  rintro ⟨g, hg, hs⟩
  obtain ⟨relation, child, rfl⟩ := exists_of_join_eq_ok (written.symm.trans hg)
  cases hs

theorem not_survives_list (items : List Value) : ¬ Survives (value (.list items)) := by
  have written : ofSexp (Value.toSexp (.list items)) = (Form.mk (.leaf "list" :: Value.toSexps items)
    (ofEach (.leaf "list" :: Value.toSexps items))).join := rfl
  exact not_survives_of_join written

theorem not_survives_error (text : String) : ¬ Survives (value (.error text)) := by
  have written : ofSexp (Value.toSexp (.error text)) =
    (Form.mk [.leaf "error", .leaf text] (ofEach [.leaf "error", .leaf text])).join := rfl
  exact not_survives_of_join written

/-! ### Joins and superlatives -/

/-- Only a name without a description is written as a leaf. -/
theorem leaf?_toSexp {f : Formula} {id : String} (h : f.toSexp.leaf? = some id) : f = ofName id := by
  cases f with
  | value v =>
    cases v with
    | name id' description =>
      cases description with
      | none => cases h; rfl
      | some _ => cases h
    | number x unit => cases unit <;> cases h
    | _ => cases h
  | _ => cases h

theorem survives_join :
    Survives (join a b) ↔ ¬ Misread (join a b) ∧ Survives a ∧ Survives b := by
  by_cases h : ∃ word ∈ reservedWords, a = ofName word
  case pos =>
    obtain ⟨word, reserved, rfl⟩ := h
    have misread : Misread (join (ofName word) b) := .join reserved
    have lost : ¬ Survives (join (ofName word) b) := by
      rintro ⟨g, hg, hs⟩
      -- only a join is the same as a join
      cases g <;> first | cases hs | exact formula_ne_join ⟨_, _⟩ rfl reserved _ _ hg
    simp [misread, lost]
  case neg =>
    have sound : ¬ Misread (join a b) := by
      rintro ⟨⟩
      exact h ⟨_, ‹_›, rfl⟩
    have read := ofSexp_join a b fun word hword reserved => h ⟨word, reserved, leaf?_toSexp hword⟩
    simp only [sound, not_false_eq_true, true_and]
    exact survives_two read fun _ _ => rfl

/-- Whether a formula is what is read where a superlative has its rank or its count. -/
def SurvivesAsRank (f : Formula) : Prop := ∃ g, ofRank f.toSexp = .ok g ∧ f.same g = true

/-- Whether a formula is written like a whole number. -/
def LooksWhole (f : Formula) : Prop := ∃ id, f = ofName id ∧ (Decimal.readSigned 64 id).isSome

theorem survivesAsRank_iff : SurvivesAsRank f ↔ ¬ LooksWhole f ∧ Survives f := by
  unfold SurvivesAsRank Survives ofRank
  split
  case h_1 n hn =>
    obtain ⟨id, hid, hn⟩ := Option.bind_eq_some_iff.mp hn
    obtain rfl := leaf?_toSexp hid
    have whole : LooksWhole (ofName id) := ⟨id, rfl, by simp_all⟩
    simp only [whole, not_true_eq_false, false_and, iff_false]
    rintro ⟨g, hg, hs⟩
    obtain rfl := Except.ok.inj hg
    cases hs
  case h_2 hn =>
    have plain : ¬ LooksWhole f := by
      rintro ⟨id, rfl, hid⟩
      have : (Decimal.readSigned 64 id) = none := hn
      simp [this] at hid
    simp [plain]

theorem survives_superlative {m : SuperlativeMode} {rank count head relation : Formula} :
    Survives (superlative m rank count head relation) ↔
      SurvivesAsRank rank ∧ SurvivesAsRank count ∧ Survives head ∧ Survives relation := by
  constructor
  · rintro ⟨g, hg, hs⟩
    rw [ofSexp_superlative] at hg
    obtain ⟨rank', hrank, hg⟩ := bind_eq_ok.mp hg
    obtain ⟨count', hcount, hg⟩ := bind_eq_ok.mp hg
    obtain ⟨head', hhead, hg⟩ := bind_eq_ok.mp hg
    obtain ⟨relation', hrelation, hg⟩ := bind_eq_ok.mp hg
    obtain rfl := Except.ok.inj hg
    simp only [same, Bool.and_eq_true] at hs
    obtain ⟨⟨⟨⟨-, srank⟩, scount⟩, shead⟩, srelation⟩ := hs
    exact ⟨⟨rank', hrank, srank⟩, ⟨count', hcount, scount⟩, ⟨head', hhead, shead⟩,
      relation', hrelation, srelation⟩
  · rintro ⟨⟨rank', hrank, srank⟩, ⟨count', hcount, scount⟩, ⟨head', hhead, shead⟩,
      relation', hrelation, srelation⟩
    refine ⟨superlative m rank' count' head' relation', ?_, ?_⟩
    · rw [ofSexp_superlative, hrank, hcount, hhead, hrelation]
      rfl
    · simp [same, srank, scount, shead, srelation]

theorem misread_superlative_iff {m : SuperlativeMode} {rank count head relation : Formula} :
    Misread (superlative m rank count head relation) ↔ LooksWhole rank ∨ LooksWhole count := by
  constructor
  · intro h
    cases h with
    | rank h => exact .inl ⟨_, rfl, h⟩
    | count h => exact .inr ⟨_, rfl, h⟩
  · rintro (⟨id, rfl, h⟩ | ⟨id, rfl, h⟩)
    · exact .rank h
    · exact .count h

/-! ### Calls -/

theorem survives_all (as : List Formula) :
    (∃ bs, (ofEach (toSexps as)).mapM id = .ok bs ∧ sameList as bs = true) ↔
      ∀ a ∈ as, Survives a := by
  induction as with
  | nil =>
    simp only [List.not_mem_nil, false_implies, implies_true, iff_true]
    exact ⟨[], rfl, rfl⟩
  | cons a as ih =>
    rw [List.forall_mem_cons, ← ih]
    simp only [toSexps, ofEach, List.mapM_cons, id_eq]
    constructor
    · rintro ⟨bs, hbs, hs⟩
      obtain ⟨b, hb, hbs⟩ := bind_eq_ok.mp hbs
      obtain ⟨rest, hrest, hbs⟩ := bind_eq_ok.mp hbs
      obtain rfl := Except.ok.inj hbs
      rw [sameList, Bool.and_eq_true] at hs
      exact ⟨⟨b, hb, hs.1⟩, rest, hrest, hs.2⟩
    · rintro ⟨⟨b, hb, hs⟩, rest, hrest, hss⟩
      refine ⟨b :: rest, ?_, by rw [sameList, hs, hss]; rfl⟩
      rw [hb, hrest]
      rfl

theorem survives_call {as : List Formula} :
    Survives (call f as) ↔ Survives f ∧ ∀ a ∈ as, Survives a := by
  rw [← survives_all]
  constructor
  · rintro ⟨g, hg, hs⟩
    rw [ofSexp_call] at hg
    obtain ⟨bs, hbs, hg⟩ := bind_eq_ok.mp hg
    obtain ⟨f', hf, hg⟩ := bind_eq_ok.mp hg
    obtain rfl := Except.ok.inj hg
    rw [same, Bool.and_eq_true] at hs
    exact ⟨⟨f', hf, hs.1⟩, bs, hbs, hs.2⟩
  · rintro ⟨⟨f', hf, hs⟩, bs, hbs, hss⟩
    refine ⟨call f' bs, ?_, by rw [same, hs, hss]; rfl⟩
    rw [ofSexp_call, hf, hbs]
    rfl

/-! ### All formulas -/

/-- Joins, superlatives and values go wrong at the root at most; every other kind never does. -/
theorem survives_iff (numbers : f.NumbersReadBack) (dates : f.DatesFit) :
    Survives f ↔ ¬ Misread f ∧ ∀ c ∈ f.children, Survives c := by
  cases f with
  | value v =>
    simp only [children, List.not_mem_nil, false_implies, implies_true, and_true]
    cases v with
    | boolean t => exact iff_of_true (survives_boolean t) (by rintro ⟨⟩)
    | number x unit =>
      exact iff_of_true (survives_number (numbers x unit (mem_subformulas_self _))) (by rintro ⟨⟩)
    | string text => exact iff_of_true (survives_string text) (by rintro ⟨⟩)
    | name id description => exact iff_of_true (survives_name id description) (by rintro ⟨⟩)
    | date d => exact iff_of_true (survives_date (dates d (mem_subformulas_self _))) (by rintro ⟨⟩)
    | list items => exact iff_of_false (not_survives_list items) fun h => h .list
    | error text => exact iff_of_false (not_survives_error text) fun h => h .error
  | var x =>
    have read : Survives (var x) := ⟨var x, rfl, by simp [same]⟩
    exact iff_of_true read ⟨by rintro ⟨⟩, by simp [children]⟩
  | join a b =>
    rw [survives_join]
    simp [children]
  | merge m a b =>
    rw [survives_two (ofSexp_merge a b m) fun _ _ => by simp [same]]
    simp [children, show ¬ Misread (merge m a b) by rintro ⟨⟩]
  | arithmetic m a b =>
    rw [survives_two (ofSexp_arithmetic a b m) fun _ _ => by simp [same]]
    simp [children, show ¬ Misread (arithmetic m a b) by rintro ⟨⟩]
  | not c =>
    rw [survives_one (ofSexp_not c) fun _ => by simp [same]]
    simp [children, show ¬ Misread (not c) by rintro ⟨⟩]
  | reverse c =>
    rw [survives_one (ofSexp_reverse c) fun _ => by simp [same]]
    simp [children, show ¬ Misread (reverse c) by rintro ⟨⟩]
  | aggregate m c =>
    rw [survives_one (ofSexp_aggregate c m) fun _ => by simp [same]]
    simp [children, show ¬ Misread (aggregate m c) by rintro ⟨⟩]
  | lambda x c =>
    rw [survives_one (ofSexp_lambda x c) fun _ => by simp [same]]
    simp [children, show ¬ Misread (lambda x c) by rintro ⟨⟩]
  | mark x c =>
    rw [survives_one (ofSexp_mark x c) fun _ => by simp [same]]
    simp [children, show ¬ Misread (mark x c) by rintro ⟨⟩]
  | superlative m rank count head relation =>
    rw [survives_superlative, survivesAsRank_iff, survivesAsRank_iff, misread_superlative_iff]
    simp only [children, List.forall_mem_cons, List.not_mem_nil, false_implies, implies_true, and_true,
      not_or]
    tauto
  | call g as =>
    rw [survives_call]
    simp [children, show ¬ Misread (call g as) by rintro ⟨⟩]

end Survival

/-! ## The text of a formula -/

/-- A formula is what its tree stands for exactly if nothing in it is misread. -/
theorem survives_iff_subformulas (f : Formula) (numbers : f.NumbersReadBack) (dates : f.DatesFit) :
    Survives f ↔ ∀ g ∈ f.subformulas, ¬ Misread g := by
  rw [survives_iff numbers dates]
  constructor
  · rintro ⟨root, parts⟩ g hg
    rcases mem_subformulas.mp hg with rfl | ⟨c, hc, hg⟩
    · exact root
    · have := sizeOf_lt_of_mem_children hc
      exact (survives_iff_subformulas c (numbers.child hc) (dates.child hc)).mp (parts c hc) g hg
  · intro h
    refine ⟨h f (mem_subformulas_self f), fun c hc => ?_⟩
    have := sizeOf_lt_of_mem_children hc
    exact (survives_iff_subformulas c (numbers.child hc) (dates.child hc)).mpr fun g hg =>
      h g (mem_subformulas.mpr (.inr ⟨c, hc, hg⟩))
termination_by sizeOf f

/-- **Which formulas read back.** Reading the text of a formula gives the formula again exactly if it
has no list of values, no error, no join with a reserved word for a relation, and no superlative with a
whole number for the name of its rank or its count, at any depth. -/
theorem read_text_iff (f : Formula) (numbers : f.NumbersReadBack) (dates : f.DatesFit) :
    (∃ g, Formula.read f.text = .ok g ∧ f.same g = true) ↔ ∀ g ∈ f.subformulas, ¬ Misread g := by
  rw [← survives_iff_subformulas f numbers dates, Survives]
  simp only [Formula.read, readWith, Formula.text, Sexp.read_text]

/-- A superlative with a number for its rank, a date for its count, and a reserved word for its
relation, where it does no harm. -/
theorem read_text_iff_sample :
    let f := superlative .argmax (value (.number 2.5 (some "m"))) (value (.date ⟨2012, 3, -1⟩))
      (ofName "fb:city") (ofName "and")
    f.NumbersReadBack ∧ f.DatesFit ∧ ∃ g, Formula.read f.text = .ok g ∧ f.same g = true := by
  intro f
  have all : ∀ g, g ∈ f.subformulas ↔ g = f ∨ g ∈ f.children := by
    intro g
    rw [mem_subformulas]
    simp [f, children, ofName, mem_subformulas_value]
  have numbers : f.NumbersReadBack := by
    intro x unit hx
    obtain ⟨rfl, rfl⟩ : x = 2.5 ∧ unit = some "m" := by
      simpa [f, children, ofName, Value.ofName] using (all _).mp hx
    have reads : (Decimal.readFloat (Decimal.showFloat 2.5)).any (Value.sameNumber 2.5) = true := by
      decide +kernel
    exact (Option.any_eq_true _ _).mp reads
  have dates : f.DatesFit := by
    intro d hd
    obtain rfl : d = ⟨2012, 3, -1⟩ := by
      simpa [f, children, ofName, Value.ofName] using (all _).mp hd
    unfold Date.Fits
    decide
  refine ⟨numbers, dates, (read_text_iff f numbers dates).mpr ?_⟩
  intro g hg
  rcases (all g).mp hg with rfl | hg
  · rw [misread_superlative_iff]
    rintro (⟨id, h, -⟩ | ⟨id, h, -⟩) <;> cases h
  · simp only [f, children, ofName, Value.ofName, List.mem_cons, List.not_mem_nil, or_false] at hg
    rcases hg with rfl | rfl | rfl | rfl <;> rintro ⟨⟩

end Formula

end Parlance
