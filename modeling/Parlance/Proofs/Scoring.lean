import Parlance.Proofs.Pruning

/-!
# `Proofs.Scoring` — the score of a derivation and that of its tree

A derivation is scored once, from its own features and the scores of its children. The score can be computed anew from
the leaves up, and it can be read off the features of the whole tree, where features of different derivations share a
key. In exact arithmetic the three agree.

## Contents
- **Arithmetic.** `Score.Arithmetic`, and sums.
- **Weighted sums.** `Weights.dot`, and what adding features adds to it.
- **Arenas.** `Arena.Scored`, of which every derivation has the score that it was given.
- **Agreement.** `Arena.Agrees` and `Arena.Scored.agrees`.
- **Rationals.** `RationalScore`, in which nothing is rounded.
-/

namespace Parlance

variable {α : Type}

/-! ## Arithmetic -/

/-- **Arithmetic without rounding.** -/
class Score.Arithmetic (α : Type) [Score α] : Prop extends Score.Ordered α where
  isNaN_nan : Score.isNaN (Score.nan : α) = true
  add_comm : ∀ a b : α, a + b = b + a
  add_assoc : ∀ a b c : α, a + b + c = a + (b + c)
  add_negZero : ∀ a : α, a + Score.negZero = a
  zero_add : ∀ a : α, Score.zero + a = a
  one_mul : ∀ a : α, Score.one * a = a
  add_mul : ∀ a b c : α, (a + b) * c = a * c + b * c

namespace Score

variable [Score α]

@[simp] theorem sum_nil : sum ([] : List α) = negZero := rfl

section Sums

variable [Arithmetic α]

instance : Std.Associative (α := α) (· + ·) := ⟨Arithmetic.add_assoc⟩

instance : Std.Commutative (α := α) (· + ·) := ⟨Arithmetic.add_comm⟩

theorem foldl_add (total : α) (l : List α) : l.foldl (· + ·) total = total + sum l := by
  unfold sum
  induction l generalizing total with
  | nil => exact (Arithmetic.add_negZero total).symm
  | cons a l ih =>
    rw [List.foldl_cons, List.foldl_cons, ih, ih (negZero + a), Arithmetic.add_comm negZero a,
      Arithmetic.add_negZero, Arithmetic.add_assoc]

@[simp] theorem sum_cons (a : α) (l : List α) : sum (a :: l) = a + sum l := by
  show l.foldl (· + ·) (negZero + a) = a + sum l
  rw [foldl_add, Arithmetic.add_comm negZero a, Arithmetic.add_negZero]

end Sums

end Score

open Score (Arithmetic)

variable [Score α]

/-! ## Weighted sums -/

namespace Weights

variable [Arithmetic α] (w : Weights α)

/-- The weighted sum of a list of features. -/
theorem dot_mk_cons (key : String) (value : α) (rest : List (String × α)) :
    w.dot ⟨(key, value) :: rest⟩ = value * w.weight key + w.dot ⟨rest⟩ := Score.sum_cons _ _

/-- **Adding to one feature**, whether it is there or not. -/
theorem dot_addKey (v : Features α) (key : String) (value : α) :
    w.dot (v.addKey key value) = w.dot v + value * w.weight key := by
  obtain ⟨entries⟩ := v
  show w.dot ⟨Table.put key (fun old => old.getD Score.zero + value) entries⟩ = _
  induction entries with
  | nil =>
    rw [Table.put, dot_mk_cons, Option.getD_none, Arithmetic.zero_add]
    exact Arithmetic.add_comm _ _
  | cons entry rest ih =>
    obtain ⟨k, old⟩ := entry
    rw [Table.put]
    by_cases hk : k = key
    case pos =>
      subst hk
      rw [if_pos (beq_self_eq_true k), dot_mk_cons, dot_mk_cons, Option.getD_some, Arithmetic.add_mul]
      ac_rfl
    case neg =>
      rw [if_neg (by simpa using hk), dot_mk_cons, dot_mk_cons, ih]
      ac_rfl

/-- **Adding the features of a vector.** -/
theorem dot_addScaled_one (v other : Features α) : w.dot (v.addScaled Score.one other) = w.dot v + w.dot other := by
  obtain ⟨entries⟩ := other
  unfold Features.addScaled
  induction entries generalizing v with
  | nil => exact (Arithmetic.add_negZero _).symm
  | cons entry rest ih =>
    obtain ⟨key, value⟩ := entry
    rw [List.foldl_cons, ih, dot_addKey, dot_mk_cons, Arithmetic.one_mul]
    ac_rfl

end Weights

/-! ## Arenas -/

namespace Arena

variable {arena : Arena α} {w : Weights α} {i : Nat}

/-- The score that a derivation is given, from its own features and the scores of its children. -/
def localScore (arena : Arena α) (w : Weights α) (d : Derivation α) : α :=
  w.dot d.features + Score.sum (d.children.map arena.score)

/-- A derivation that was given its score, of children that are there. -/
structure ScoredFrom (arena : Arena α) (w : Weights α) (d : Derivation α) : Prop where
  children : ∀ c ∈ d.children, c < arena.size
  score : d.score = arena.localScore w d

/-- **Every derivation has the score that it was given**, and its children are older than it is. -/
structure Scored (arena : Arena α) (w : Weights α) : Prop where
  older : ∀ i < arena.size, ∀ c ∈ (arena.get i).children, c < i
  score : ∀ i < arena.size, arena.score i = arena.localScore w (arena.get i)

theorem scored_empty (w : Weights α) : (empty : Arena α).Scored w :=
  ⟨fun _ hi => absurd hi (Nat.not_lt_zero _), fun _ hi => absurd hi (Nat.not_lt_zero _)⟩

/-- What is put in leaves the scores of those that were there alone. -/
theorem localScore_push {d e : Derivation α} (h : ∀ c ∈ d.children, c < arena.size) :
    (arena.push e).localScore w d = arena.localScore w d := by
  have hscores : d.children.map (arena.push e).score = d.children.map arena.score :=
    List.map_congr_left fun c hc => congrArg Derivation.score (get_push_of_lt (h c hc))
  unfold localScore
  rw [hscores]

theorem ScoredFrom.push {d : Derivation α} (h : arena.ScoredFrom w d) (e : Derivation α) : (arena.push e).ScoredFrom w d where
  children c hc := by
    rw [size_push]
    exact Nat.lt_succ_of_lt (h.children c hc)
  score := by
    rw [localScore_push h.children]
    exact h.score

/-- **Putting in a derivation that was given its score.** -/
theorem Scored.push {d : Derivation α} (h : arena.Scored w) (hd : arena.ScoredFrom w d) : (arena.push d).Scored w := by
  have hcases : ∀ i < (arena.push d).size, i < arena.size ∧ (arena.push d).get i = arena.get i ∨
      i = arena.size ∧ (arena.push d).get i = d := by
    intro i hi
    rw [size_push] at hi
    rcases Nat.lt_succ_iff_lt_or_eq.mp hi with hi | rfl
    · exact .inl ⟨hi, get_push_of_lt hi⟩
    · exact .inr ⟨rfl, get_push_self⟩
  constructor
  · intro i hi c hc
    rcases hcases i hi with ⟨hi, hget⟩ | ⟨rfl, hget⟩
    · rw [hget] at hc
      exact h.older i hi c hc
    · rw [hget] at hc
      exact hd.children c hc
  · intro i hi
    show ((arena.push d).get i).score = _
    rcases hcases i hi with ⟨hi, hget⟩ | ⟨rfl, hget⟩
    · rw [hget, localScore_push fun c hc => Nat.lt_trans (h.older i hi c hc) hi]
      exact h.score i hi
    · rw [hget, localScore_push hd.children]
      exact hd.score

/-- Whatever leaves the numbers, the children, the features and the scores alone leaves an arena scored. -/
theorem Scored.congr {other : Arena α} (h : arena.Scored w) (hsize : other.size = arena.size)
    (hread : ∀ i, ((other.get i).children, (other.get i).features, (other.get i).score) =
      ((arena.get i).children, (arena.get i).features, (arena.get i).score)) : other.Scored w := by
  simp only [Prod.mk.injEq] at hread
  have hscore : other.score = arena.score := funext fun i => (hread i).2.2
  constructor
  · intro i hi c hc
    rw [(hread i).1] at hc
    exact h.older i (hsize ▸ hi) c hc
  · intro i hi
    unfold localScore
    rw [hscore, (hread i).1, (hread i).2.1]
    exact h.score i (hsize ▸ hi)

/-! ## Agreement -/

/-- **Three ways to compute a score agree**: once, when the derivation is made; anew, from the leaves of the tree up; and
from the features of the whole tree. Computing it anew leaves every score as it is. -/
structure Agrees (arena : Arena α) (w : Weights α) (i : Nat) : Prop where
  older : ∀ c ∈ (arena.get i).children, c < i
  once : arena.score i = w.dot (arena.get i).features + Score.sum ((arena.get i).children.map arena.score)
  anew : arena.rescore w i = (arena, arena.score i)
  whole : w.dot (arena.treeFeatures i) = arena.score i

/-- Writing the score that is there changes nothing. -/
theorem modify_score (arena : Arena α) (i : Nat) :
    (arena.modify i fun d => { d with score := arena.score i }) = arena := by
  obtain ⟨items⟩ := arena
  unfold modify
  congr 1
  refine array_modify_eq_self fun d hd => ?_
  have hscore : score ⟨items⟩ i = d.score := by
    unfold score get get?
    rw [hd, Option.getD_some]
  rw [hscore]

variable [Arithmetic α]

/-- **Computing a score anew** changes nothing. -/
theorem Scored.rescore_eq (h : arena.Scored w) (hi : i < arena.size) : arena.rescore w i = (arena, arena.score i) := by
  induction i using Nat.strongRecOn with
  | ind i ih =>
    have hall : ∀ (l : List Nat) (total : α), (∀ c ∈ l, c < i) →
        arena.rescoreAll w i total l = (arena, total + Score.sum (l.map arena.score)) := by
      intro l
      induction l with
      | nil =>
        intro total _
        rw [rescoreAll, List.map_nil, Score.sum_nil, Arithmetic.add_negZero]
      | cons c l ihl =>
        intro total hl
        have hc := hl c List.mem_cons_self
        rw [rescoreAll, if_pos hc, ih c hc (Nat.lt_trans hc hi)]
        dsimp only
        rw [ihl _ fun k hk => hl k (List.mem_cons_of_mem _ hk), List.map_cons, Score.sum_cons, Arithmetic.add_assoc]
    have hscore : w.dot (arena.get i).features + Score.sum ((arena.get i).children.map arena.score) = arena.score i :=
      (h.score i hi).symm
    rw [rescore]
    dsimp only
    rw [hall _ _ (h.older i hi), hscore, modify_score]

/-- **The features of a tree** add its score to a weighted sum. -/
theorem Scored.dot_addTreeFeatures (h : arena.Scored w) (hi : i < arena.size) (table : Table α) :
    w.dot (arena.addTreeFeatures Score.one i table) = w.dot table + arena.score i := by
  induction i using Nat.strongRecOn generalizing table with
  | ind i ih =>
    have hall : ∀ (l : List Nat) (table : Table α), (∀ c ∈ l, c < i) →
        w.dot (arena.addTreeFeaturesOfAll Score.one i l table) = w.dot table + Score.sum (l.map arena.score) := by
      intro l
      induction l with
      | nil =>
        intro table _
        rw [addTreeFeaturesOfAll, List.map_nil, Score.sum_nil, Arithmetic.add_negZero]
      | cons c l ihl =>
        intro table hl
        have hc := hl c List.mem_cons_self
        rw [addTreeFeaturesOfAll, if_pos hc, ihl _ fun k hk => hl k (List.mem_cons_of_mem _ hk),
          ih c hc (Nat.lt_trans hc hi), List.map_cons, Score.sum_cons, Arithmetic.add_assoc]
    rw [addTreeFeatures, hall _ _ (h.older i hi), Weights.dot_addScaled_one, Arithmetic.add_assoc]
    exact congrArg _ (h.score i hi).symm

/-- **In a scored arena the three ways agree.** -/
theorem Scored.agrees (h : arena.Scored w) (hi : i < arena.size) : arena.Agrees w i where
  older := h.older i hi
  once := h.score i hi
  anew := h.rescore_eq hi
  whole := by
    have hempty : w.dot (.empty : Table α) = Score.negZero := rfl
    unfold treeFeatures
    rw [h.dot_addTreeFeatures hi, hempty, Arithmetic.add_comm, Arithmetic.add_negZero]

end Arena

/-! ## Rationals -/

/-- A rational number, a number below all of these, or nothing that is defined. -/
inductive RationalScore where
  | of (q : ℚ)
  | lowest
  | undefined
  deriving DecidableEq, Inhabited

namespace RationalScore

/-- An operation on rationals. With the lowest number it gives the lowest number. -/
def combine (f : ℚ → ℚ → ℚ) : RationalScore → RationalScore → RationalScore
  | of p, of q => of (f p q)
  | undefined, _ => undefined
  | _, undefined => undefined
  | _, _ => lowest

/-- A relation of rationals, of the lowest number with a rational, and of the lowest number with itself. -/
def compares (r : ℚ → ℚ → Bool) (below same : Bool) : RationalScore → RationalScore → Bool
  | of p, of q => r p q
  | lowest, of _ => below
  | lowest, lowest => same
  | _, _ => false

/-- The value of a double. -/
def ofFloat (x : Float) : RationalScore :=
  match Decimal.decode x with
  | .finite negative m q _ => of ((if negative then -1 else 1) * m * 2 ^ q)
  | .infinite negative => if negative then lowest else undefined
  | .nan => undefined

/-- The text of a number. -/
def text : RationalScore → String
  | of q => toString q
  | lowest => "lowest"
  | undefined => "undefined"

/-- Rational scores. What is not rational in general is not defined here. -/
instance : Score RationalScore where
  add := combine (· + ·)
  sub := combine (· - ·)
  mul := combine (· * ·)
  div a b := if b = of 0 then undefined else combine (· / ·) a b
  ofNat n := of n
  ofFloat := ofFloat
  negZero := of 0
  negInf := lowest
  nan := undefined
  lt := compares (fun p q => p < q) true false
  le := compares (fun p q => p ≤ q) true true
  eq := compares (fun p q => p = q) false true
  isNaN a := a = undefined
  isFinite a := a ≠ undefined ∧ a ≠ lowest
  exp _ := undefined
  ln _ := undefined
  sqrt _ := undefined
  pow _ _ := undefined
  text := text
  fixed _ := text

theorem add_def (a b : RationalScore) : a + b = combine (· + ·) a b := rfl

theorem mul_def (a b : RationalScore) : a * b = combine (· * ·) a b := rfl

theorem lt_def (a b : RationalScore) : Score.lt a b = compares (fun p q => p < q) true false a b := rfl

instance : Score.Arithmetic RationalScore where
  isNaN_negInf := rfl
  isNaN_nan := rfl
  lt_asymm := by
    intro a b h
    cases a <;> cases b <;> simp_all [lt_def, compares, le_of_lt]
  not_lt_trans := by
    intro a b c ha hb hc hab hbc
    cases a with
    | undefined => cases ha
    | lowest =>
      cases b with
      | undefined => cases hb
      | of q => cases hab
      | lowest => exact hbc
    | of p =>
      cases c with
      | undefined => cases hc
      | lowest => rfl
      | of r =>
        cases b with
        | undefined => cases hb
        | lowest => cases hbc
        | of q =>
          simp only [lt_def, compares, decide_eq_false_iff_not, not_lt] at hab hbc ⊢
          exact hbc.trans hab
  add_comm := by
    intro a b
    cases a <;> cases b <;> simp [add_def, combine, add_comm]
  add_assoc := by
    intro a b c
    cases a <;> cases b <;> cases c <;> simp [add_def, combine, add_assoc]
  add_negZero := by
    intro a
    cases a with
    | of q => exact congrArg of (add_zero q)
    | lowest => rfl
    | undefined => rfl
  zero_add := by
    intro a
    cases a with
    | of q => exact congrArg of ((congrArg (· + q) Nat.cast_zero).trans (zero_add q))
    | lowest => rfl
    | undefined => rfl
  one_mul := by
    intro a
    cases a with
    | of q => exact congrArg of ((congrArg (· * q) Nat.cast_one).trans (one_mul q))
    | lowest => rfl
    | undefined => rfl
  add_mul := by
    intro a b c
    cases a <;> cases b <;> cases c <;> simp [add_def, mul_def, combine, add_mul]

end RationalScore

end Parlance
