import Parlance.Proofs.Forest

/-!
# `Proofs.Addition` — what one more tree adds

Let a tree be put to those at hand. For rules with one or two symbols, what can be put together now and could not
be before takes the new tree once: alone, on the left of something, or on the right of something.

## Contents
- **Short right-hand sides.** `ways_one` and `ways_two`.
- **New ways.** `newWays`, and `ways_cons`.
- **New compositions.** `alone`, `onLeft`, `onRight`, and `compositions_cons`.
-/

namespace Parlance

open Progress

/-! ## Short right-hand sides -/

section Ways

variable {δ : Type} {isToken : Nat → String → Bool} {parts : Nat → Nat → String → Multiset δ}

/-- Numbers counted from another one on. -/
theorem bind_range_shift (b n : Nat) (f : Nat → Multiset δ) :
    ((Multiset.range (n - b)).bind fun k => f (b + k + 1)) =
      (Multiset.range (n + 1)).bind fun m => if b < m then f m else 0 := by
  by_cases hb : b ≤ n
  · have hlow : ((Multiset.range (b + 1)).bind fun m => if b < m then f m else 0) = 0 := by
      rw [Multiset.bind_congr fun m hm => if_neg (by
        rw [Multiset.mem_range] at hm
        omega), Multiset.bind_zero]
    rw [show n + 1 = b + 1 + (n - b) by omega, Multiset.range_add, Multiset.add_bind, hlow, zero_add,
      Multiset.bind_map]
    refine Multiset.bind_congr fun k _ => ?_
    rw [if_pos (by omega), Nat.add_right_comm]
  · rw [Nat.sub_eq_zero_of_le (Nat.le_of_not_le hb), Multiset.range_zero, Multiset.zero_bind,
      Multiset.bind_congr fun m hm => if_neg (by
        rw [Multiset.mem_range] at hm
        omega), Multiset.bind_zero]

/-- A condition that only one number meets. -/
theorem bind_range_ite {n x : Nat} {P : Nat → Prop} [DecidablePred P] (f : Nat → Multiset δ)
    (h : ∀ m, P m → m = x ∧ m ≤ n) :
    ((Multiset.range (n + 1)).bind fun m => if P m then f m else 0) = if P x then f x else 0 := by
  by_cases hx : P x
  · exact bind_eq_of_unique (Multiset.nodup_range _)
      (Multiset.mem_range.mpr (Nat.lt_succ_of_le (h x hx).2)) fun m _ hne => if_neg fun hm => hne (h m hm).1
  · rw [if_neg hx, Multiset.bind_congr fun m _ => if_neg fun hm => hx ((h m hm).1 ▸ hm), Multiset.bind_zero]

/-- **One symbol** covers a span as the token there, or by a part over it. -/
theorem ways_one (s : String) {i last : Nat} (hi : i < last) :
    ways isToken parts last [s] i =
      (if last = i + 1 ∧ isToken i s then {[]} else 0) + (parts i last s).map fun d => [d] := by
  have hparts : ((Multiset.range (last - i)).bind fun k => (parts i (i + k + 1) s).bind fun d =>
      (ways isToken parts last [] (i + k + 1)).map (d :: ·)) = (parts i last s).map fun d => [d] := by
    rw [bind_eq_of_unique (Multiset.nodup_range _) (Multiset.mem_range.mpr (by omega : last - i - 1 < last - i)),
      show i + (last - i - 1) + 1 = last by omega, ways, if_pos rfl]
    · simp only [Multiset.map_singleton, Multiset.bind_singleton]
    · intro k hk hne
      rw [Multiset.mem_range] at hk
      rw [ways, if_neg (by omega)]
      simp only [Multiset.map_zero, Multiset.bind_zero]
  rw [ways, hparts]
  congr 1
  by_cases ht : isToken i s = true
  · rw [if_pos ⟨hi, ht⟩, ways]
    by_cases hl : i + 1 = last
    · rw [if_pos hl, if_pos ⟨hl.symm, ht⟩]
    · rw [if_neg hl, if_neg fun h => hl h.1.symm]
  · rw [if_neg fun h => ht h.2, if_neg fun h => ht h.2]

/-- **Two symbols** cover a span side by side. -/
theorem ways_two (s s' : String) (i last : Nat) :
    ways isToken parts last [s, s'] i =
      (Multiset.range (last + 1)).bind fun m =>
        if i < m then
          (ways isToken parts m [s] i).bind fun w => (ways isToken parts last [s'] m).map (w ++ ·)
        else 0 := by
  have hsplit : ∀ m, (if i < m then
        (ways isToken parts m [s] i).bind fun w => (ways isToken parts last [s'] m).map (w ++ ·) else 0) =
      (if m = i + 1 ∧ isToken i s then ways isToken parts last [s'] (i + 1) else 0) +
        if i < m then (parts i m s).bind fun d => (ways isToken parts last [s'] m).map (d :: ·) else 0 := by
    intro m
    by_cases hm : i < m
    · rw [if_pos hm, if_pos hm, ways_one s hm, Multiset.add_bind, Multiset.bind_map]
      congr 1
      split
      · rename_i h
        rw [Multiset.singleton_bind, h.1]
        exact Multiset.map_id' _
      · exact Multiset.zero_bind _
    · rw [if_neg hm, if_neg hm, if_neg (by omega), add_zero]
  rw [Multiset.bind_congr fun m _ => hsplit m, Multiset.bind_add, ← bind_range_shift, ways]
  congr 1
  by_cases hi : i < last
  · rw [bind_eq_of_unique (Multiset.nodup_range _) (Multiset.mem_range.mpr (by omega : i + 1 < last + 1))
      fun m _ hne => if_neg fun h => hne h.1]
    simp only [hi, true_and]
  · rw [if_neg fun h => hi h.1, Multiset.bind_congr fun m hm => if_neg fun h => hi (by
      rw [Multiset.mem_range, h.1] at hm
      omega), Multiset.bind_zero]

end Ways

/-! ## New ways -/

variable {α : Type} {task : Task α} {F : Multiset (DerivationTree α)} {t : DerivationTree α}

/-- The tree itself, where a symbol stands for it. -/
def spot (t : DerivationTree α) (i j : Nat) (symbol : String) : Multiset (DerivationTree α) :=
  if t.isAt i j symbol then {t} else 0

theorem among_cons (hcat : isCat t.label.cat = true) (i j : Nat) (symbol : String) :
    among (t ::ₘ F) i j symbol = among F i j symbol + spot t i j symbol := by
  unfold among spot
  by_cases hat : t.isAt i j symbol = true
  · have hsym : isCat symbol = true := (DerivationTree.isAt_iff.mp hat).2.2 ▸ hcat
    rw [if_pos hsym, if_pos hsym, if_pos hat, Multiset.filter_cons_of_pos (p := fun t => t.isAt i j symbol) F hat,
      add_comm, Multiset.singleton_add]
  · rw [if_neg hat, add_zero]
    split
    · exact Multiset.filter_cons_of_neg (p := fun t => t.isAt i j symbol) F hat
    · rfl

/-- One symbol covers a span by the new tree as well. -/
theorem ways_one_cons (hcat : isCat t.label.cat = true) (s : String) {i last : Nat} (hi : i < last) :
    ways task.isLiteral (among (t ::ₘ F)) last [s] i =
      ways task.isLiteral (among F) last [s] i + (spot t i last s).map fun t => [t] := by
  rw [ways_one s hi, ways_one s hi, among_cons hcat, Multiset.map_add, add_assoc]

/-- The ways to cover a span that take a new tree. -/
def newWays (task : Task α) (F : Multiset (DerivationTree α)) (t : DerivationTree α) (i j : Nat) :
    List String → Multiset (List (DerivationTree α))
  | [s] => (spot t i j s).map fun t => [t]
  | [s, s'] =>
    (if t.isAt i t.label.last s ∧ t.label.last < j then
      (ways task.isLiteral (among F) j [s'] t.label.last).map fun w => t :: w else 0) +
    if t.isAt t.label.first j s' ∧ i < t.label.first then
      (ways task.isLiteral (among F) t.label.first [s] i).map fun w => w ++ [t] else 0
  | _ => 0

/-- The new ways for two symbols that meet at a position. -/
theorem newWays_at (hcat : isCat t.label.cat = true) {s s' : String} {i m j : Nat} (him : i < m) (hmj : m < j) :
    ((ways task.isLiteral (among (t ::ₘ F)) m [s] i).bind fun w =>
        (ways task.isLiteral (among (t ::ₘ F)) j [s'] m).map (w ++ ·)) =
      ((ways task.isLiteral (among F) m [s] i).bind fun w =>
        (ways task.isLiteral (among F) j [s'] m).map (w ++ ·)) +
      ((if t.isAt i m s then (ways task.isLiteral (among F) j [s'] m).map fun w => t :: w else 0) +
        if t.isAt m j s' then (ways task.isLiteral (among F) m [s] i).map fun w => w ++ [t] else 0) := by
  rw [ways_one_cons hcat s him, ways_one_cons hcat s' hmj, Multiset.add_bind]
  simp only [Multiset.map_add, Multiset.bind_add]
  unfold spot
  by_cases h1 : t.isAt i m s = true
  · -- the tree cannot stand on both sides
    have h2 : ¬ t.isAt m j s' = true := fun h2 => by
      obtain ⟨hf, -⟩ := DerivationTree.isAt_iff.mp h1
      obtain ⟨hf', -⟩ := DerivationTree.isAt_iff.mp h2
      omega
    rw [if_pos h1, if_neg h2, if_pos h1, if_neg h2]
    simp only [Multiset.map_singleton, Multiset.singleton_bind, Multiset.map_zero, Multiset.bind_zero, add_zero,
      List.singleton_append]
  · rw [if_neg h1, if_neg h1]
    by_cases h2 : t.isAt m j s' = true
    · rw [if_pos h2, if_pos h2]
      simp only [Multiset.map_singleton, Multiset.map_zero, Multiset.zero_bind, add_zero, zero_add,
        Multiset.bind_singleton]
    · rw [if_neg h2, if_neg h2]
      simp only [Multiset.map_zero, Multiset.zero_bind, Multiset.bind_zero, add_zero]

/-- **With one more tree there are the ways that there were, and the new ones.** -/
theorem ways_cons (hcat : isCat t.label.cat = true) (ht : t.label.first < t.label.last) {symbols : List String}
    (hlen : symbols.length ≤ 2) {i j : Nat} (hij : i < j) :
    ways task.isLiteral (among (t ::ₘ F)) j symbols i =
      ways task.isLiteral (among F) j symbols i + newWays task F t i j symbols := by
  match symbols, hlen with
  | [], _ => exact (add_zero _).symm
  | [s], _ => exact ways_one_cons hcat s hij
  | [s, s'], _ =>
    have hlast : ∀ (G : Multiset (DerivationTree α)) m, ¬ m < j →
        ways task.isLiteral (among G) j [s'] m = 0 := fun G m hm => by
      rw [ways, if_neg fun h => hm h.1, Nat.sub_eq_zero_of_le (Nat.le_of_not_lt hm), Multiset.range_zero,
        Multiset.zero_bind, add_zero]
    have hat : ∀ m, (if i < m then
        (ways task.isLiteral (among (t ::ₘ F)) m [s] i).bind fun w =>
          (ways task.isLiteral (among (t ::ₘ F)) j [s'] m).map (w ++ ·) else 0) =
        (if i < m then (ways task.isLiteral (among F) m [s] i).bind fun w =>
          (ways task.isLiteral (among F) j [s'] m).map (w ++ ·) else 0) +
        ((if (t.isAt i m s ∧ m < j) ∧ i < m then
            (ways task.isLiteral (among F) j [s'] m).map fun w => t :: w else 0) +
          if (t.isAt m j s' ∧ i < m) ∧ m < j then
            (ways task.isLiteral (among F) m [s] i).map fun w => w ++ [t] else 0) := by
      intro m
      by_cases him : i < m
      · by_cases hmj : m < j
        · simp only [him, hmj, and_true, if_true]
          exact newWays_at hcat him hmj
        · simp only [him, hmj, if_true, and_false, false_and, if_false, add_zero, hlast _ m hmj,
            Multiset.map_zero, Multiset.bind_zero]
      · simp only [him, if_false, and_false, false_and, add_zero]
    rw [ways_two, ways_two, Multiset.bind_congr fun m _ => hat m, Multiset.bind_add, Multiset.bind_add]
    congr 1
    unfold newWays
    have hfirst : ∀ m, (t.isAt i m s ∧ m < j) ∧ i < m → m = t.label.last ∧ m ≤ j := fun m h =>
      ⟨(DerivationTree.isAt_iff.mp h.1.1).2.1.symm, Nat.le_of_lt h.1.2⟩
    have hsecond : ∀ m, (t.isAt m j s' ∧ i < m) ∧ m < j → m = t.label.first ∧ m ≤ j := fun m h =>
      ⟨(DerivationTree.isAt_iff.mp h.1.1).1.symm, Nat.le_of_lt h.2⟩
    rw [bind_range_ite _ hfirst, bind_range_ite _ hsecond]
    congr 1
    · refine if_congr (and_iff_left_of_imp fun h => ?_) rfl rfl
      exact (DerivationTree.isAt_iff.mp h.1).1 ▸ ht
    · refine if_congr (and_iff_left_of_imp fun h => ?_) rfl rfl
      exact (DerivationTree.isAt_iff.mp h.1).2.1 ▸ ht
  | _ :: _ :: _ :: _, hlen => simp only [List.length_cons] at hlen; omega

/-! ## New compositions -/

section Spans

variable {δ ε : Type} {n : Nat}

theorem overSpans_add (f g : Nat → Nat → Multiset δ) :
    (overSpans n fun i j => f i j + g i j) = overSpans n f + overSpans n g := by
  unfold overSpans
  rw [← Multiset.bind_add]
  refine Multiset.bind_congr fun i _ => ?_
  rw [← Multiset.bind_add]
  refine Multiset.bind_congr fun j _ => ?_
  split
  · rfl
  · rfl

theorem overSpans_bind_comm (m : Multiset ε) (f : Nat → Nat → ε → Multiset δ) :
    (overSpans n fun i j => m.bind (f i j)) = m.bind fun x => overSpans n fun i j => f i j x := by
  have hends : ∀ i, ((Multiset.range (n + 1)).bind fun j => if i < j then m.bind (f i j) else 0) =
      m.bind fun x => (Multiset.range (n + 1)).bind fun j => if i < j then f i j x else 0 := by
    intro i
    refine Eq.trans (Multiset.bind_congr fun j _ => ?_)
      (Multiset.bind_bind (f := fun j x => if i < j then f i j x else 0) (Multiset.range (n + 1)) m)
    split
    · rfl
    · exact (Multiset.bind_zero m).symm
  unfold overSpans
  rw [Multiset.bind_congr fun i _ => hends i]
  exact Multiset.bind_bind (Multiset.range n) m

/-- If only spans with one start lead to something, the ends are all that is to be chosen. -/
theorem overSpans_eq_ends {first : Nat} (hf : first < n) {f : Nat → Nat → Multiset δ}
    (h : ∀ i j, i ≠ first → f i j = 0) :
    overSpans n f = (Multiset.range (n + 1)).bind fun j => if first < j then f first j else 0 := by
  unfold overSpans
  refine bind_eq_of_unique (Multiset.nodup_range n) (Multiset.mem_range.mpr hf) fun i _ hi => ?_
  have hzero : ∀ j, (if i < j then f i j else 0) = 0 := fun j => by
    rw [h i j hi, ite_self]
  simp only [hzero, Multiset.bind_zero]

/-- If only spans with one end lead to something, the starts are all that is to be chosen. -/
theorem overSpans_eq_starts {last : Nat} (hl : last ≤ n) {f : Nat → Nat → Multiset δ}
    (h : ∀ i j, j ≠ last → f i j = 0) :
    overSpans n f = (Multiset.range n).bind fun i => if i < last then f i last else 0 := by
  unfold overSpans
  refine Multiset.bind_congr fun i _ => ?_
  refine bind_eq_of_unique (Multiset.nodup_range (n + 1)) (Multiset.mem_range.mpr (Nat.lt_succ_of_le hl))
    fun j _ hj => ?_
  rw [h i j hj, ite_self]

theorem bind_range_lt {b : Nat} (hb : b ≤ n) (f : Nat → Multiset δ) :
    ((Multiset.range n).bind fun i => if i < b then f i else 0) = (Multiset.range b).bind f := by
  have hhigh : ((Multiset.range (n - b)).bind fun k => if b + k < b then f (b + k) else 0) = 0 := by
    rw [Multiset.bind_congr fun k _ => if_neg (Nat.not_lt.mpr (Nat.le_add_right b k)), Multiset.bind_zero]
  rw [show n = b + (n - b) by omega, Multiset.range_add, Multiset.add_bind, Multiset.bind_map, hhigh, add_zero]
  exact Multiset.bind_congr fun i hi => if_pos (Multiset.mem_range.mp hi)

end Spans

variable {rules : List Rule} {r : Rule}

/-- The new tree taken alone. -/
def alone (task : Task α) (t : DerivationTree α) (r : Rule) : Multiset (Composition α) :=
  if task.canBuild r t.label.first t.label.last then {⟨r, t.label.first, t.label.last, [t]⟩} else 0

/-- The new tree taken on the left of what covers a span to its right. -/
def onLeft (task : Task α) (F : Multiset (DerivationTree α)) (t : DerivationTree α) (r : Rule) (s' : String) :
    Multiset (Composition α) :=
  (Multiset.range (task.length + 1)).bind fun j =>
    if t.label.last < j ∧ task.canBuild r t.label.first j then
      (ways task.isLiteral (among F) j [s'] t.label.last).map fun w => ⟨r, t.label.first, j, t :: w⟩
    else 0

/-- The new tree taken on the right of what covers a span to its left. -/
def onRight (task : Task α) (F : Multiset (DerivationTree α)) (t : DerivationTree α) (r : Rule) (s : String) :
    Multiset (Composition α) :=
  (Multiset.range t.label.first).bind fun i =>
    if task.canBuild r i t.label.last then
      (ways task.isLiteral (among F) t.label.first [s] i).map fun w => ⟨r, i, t.label.last, w ++ [t]⟩
    else 0

/-- **What a rule can put together with a new tree.** -/
def added (task : Task α) (F : Multiset (DerivationTree α)) (t : DerivationTree α) (r : Rule) :
    Multiset (Composition α) :=
  match r.rhs with
  | [s] => if t.label.cat = s then alone task t r else 0
  | [s, s'] =>
    (if t.label.cat = s then onLeft task F t r s' else 0) + if t.label.cat = s' then onRight task F t r s else 0
  | _ => 0

/-- What a rule puts together by new ways. -/
def addedOver (task : Task α) (F : Multiset (DerivationTree α)) (t : DerivationTree α) (r : Rule)
    (i j : Nat) : Multiset (Composition α) :=
  if task.canBuild r i j then (newWays task F t i j r.rhs).map fun w => ⟨r, i, j, w⟩ else 0

theorem applicable_cons (hcat : isCat t.label.cat = true) (ht : t.label.first < t.label.last)
    (hlen : r.rhs.length ≤ 2) {i j : Nat} (hij : i < j) :
    applicable task (t ::ₘ F) i j r = applicable task F i j r + addedOver task F t r i j := by
  unfold applicable addedOver
  split
  · rw [ways_cons hcat ht hlen hij, Multiset.map_add]
  · exact (add_zero 0).symm

theorem overSpans_alone (ht : t.label.first < t.label.last) (hl : t.label.last ≤ task.length) (s : String) :
    (overSpans task.length fun i j => if task.canBuild r i j then
        ((spot t i j s).map fun t => [t]).map fun w => (⟨r, i, j, w⟩ : Composition α) else 0) =
      if t.label.cat = s then alone task t r else 0 := by
  rw [overSpans_eq_of_unique ht hl]
  · have hat : t.isAt t.label.first t.label.last s = true ↔ t.label.cat = s :=
      DerivationTree.isAt_iff.trans (by simp only [true_and])
    unfold spot alone
    by_cases hs : t.label.cat = s
    · rw [if_pos (hat.mpr hs), if_pos hs]
      simp only [Multiset.map_singleton]
    · rw [if_neg fun h => hs (hat.mp h), if_neg hs]
      simp only [Multiset.map_zero, ite_self]
  · intro i j hne
    have hspot : spot t i j s = 0 := if_neg fun h => by
      obtain ⟨h1, h2, -⟩ := DerivationTree.isAt_iff.mp h
      exact hne ⟨h1.symm, h2.symm⟩
    rw [hspot]
    simp only [Multiset.map_zero, ite_self]

theorem overSpans_onLeft (ht : t.label.first < t.label.last) (hl : t.label.last ≤ task.length) (s s' : String) :
    (overSpans task.length fun i j => if task.canBuild r i j then
        (if t.isAt i t.label.last s ∧ t.label.last < j then
          (ways task.isLiteral (among F) j [s'] t.label.last).map fun w => t :: w else 0).map
            fun w => (⟨r, i, j, w⟩ : Composition α) else 0) =
      if t.label.cat = s then onLeft task F t r s' else 0 := by
  rw [overSpans_eq_ends (Nat.lt_of_lt_of_le ht hl)]
  · have hat : t.isAt t.label.first t.label.last s = true ↔ t.label.cat = s :=
      DerivationTree.isAt_iff.trans (by simp only [true_and])
    simp only [hat]
    by_cases hs : t.label.cat = s
    · rw [if_pos hs]
      refine Multiset.bind_congr fun j _ => ?_
      by_cases hj : t.label.last < j
      · simp only [hs, hj, Nat.lt_trans ht hj, true_and, if_true]
        split
        · rw [Multiset.map_map]
          rfl
        · rfl
      · simp only [hj, and_false, false_and, if_false, Multiset.map_zero, ite_self]
    · rw [if_neg hs]
      simp only [hs, false_and, if_false, Multiset.map_zero, ite_self, Multiset.bind_zero]
  · intro i j hne
    have hat : ¬(t.isAt i t.label.last s = true ∧ t.label.last < j) := fun h =>
      hne (DerivationTree.isAt_iff.mp h.1).1.symm
    rw [if_neg hat]
    simp only [Multiset.map_zero, ite_self]

theorem overSpans_onRight (ht : t.label.first < t.label.last) (hl : t.label.last ≤ task.length) (s s' : String) :
    (overSpans task.length fun i j => if task.canBuild r i j then
        (if t.isAt t.label.first j s' ∧ i < t.label.first then
          (ways task.isLiteral (among F) t.label.first [s] i).map fun w => w ++ [t] else 0).map
            fun w => (⟨r, i, j, w⟩ : Composition α) else 0) =
      if t.label.cat = s' then onRight task F t r s else 0 := by
  rw [overSpans_eq_starts hl]
  · have hat : t.isAt t.label.first t.label.last s' = true ↔ t.label.cat = s' :=
      DerivationTree.isAt_iff.trans (by simp only [true_and])
    simp only [hat]
    by_cases hs : t.label.cat = s'
    · rw [if_pos hs]
      have hfirst : t.label.first ≤ task.length := Nat.le_of_lt (Nat.lt_of_lt_of_le ht hl)
      unfold onRight
      rw [← bind_range_lt hfirst]
      refine Multiset.bind_congr fun i _ => ?_
      by_cases hi : i < t.label.first
      · simp only [hs, hi, Nat.lt_trans hi ht, and_self, if_true]
        split
        · rw [Multiset.map_map]
          rfl
        · rfl
      · simp only [hi, and_false, if_false, Multiset.map_zero, ite_self]
    · rw [if_neg hs]
      simp only [hs, false_and, if_false, Multiset.map_zero, ite_self, Multiset.bind_zero]
  · intro i j hne
    have hat : ¬(t.isAt t.label.first j s' = true ∧ i < t.label.first) := fun h =>
      hne (DerivationTree.isAt_iff.mp h.1).2.1.symm
    rw [if_neg hat]
    simp only [Multiset.map_zero, ite_self]

/-- The new ways over all spans. -/
theorem overSpans_addedOver (ht : t.label.first < t.label.last) (hl : t.label.last ≤ task.length)
    (hlen : r.rhs.length ≤ 2) : overSpans task.length (addedOver task F t r) = added task F t r := by
  unfold addedOver added
  match r.rhs, hlen with
  | [], _ =>
    have hzero : ∀ i j, (if task.canBuild r i j then
        (newWays task F t i j []).map fun w => (⟨r, i, j, w⟩ : Composition α) else 0) = 0 := fun i j => by
      split
      · rfl
      · rfl
    rw [overSpans_eq_of_unique ht hl fun i j _ => hzero i j, hzero]
  | [s], _ => exact overSpans_alone ht hl s
  | [s, s'], _ =>
    refine Eq.trans (overSpans_congr fun i j _ _ => ?_) ((overSpans_add _ _).trans
      (congrArg₂ (· + ·) (overSpans_onLeft ht hl s s') (overSpans_onRight ht hl s s')))
    unfold newWays
    split
    · exact Multiset.map_add _ _ _
    · exact (add_zero 0).symm
  | _ :: _ :: _ :: _, hlen => simp only [List.length_cons] at hlen; omega

/-- **What can be put together with one more tree.** -/
theorem compositions_cons (hcat : isCat t.label.cat = true) (ht : t.label.first < t.label.last)
    (hl : t.label.last ≤ task.length) (hlen : ∀ r ∈ rules, r.rhs.length ≤ 2) :
    compositions task rules (t ::ₘ F) = compositions task rules F + (rules : Multiset Rule).bind (added task F t) := by
  unfold compositions
  have hspan : ∀ i j, i < j → j ≤ task.length →
      (rules : Multiset Rule).bind (applicable task (t ::ₘ F) i j) =
        (rules : Multiset Rule).bind (applicable task F i j) +
          (rules : Multiset Rule).bind fun r => addedOver task F t r i j := by
    intro i j hij _
    rw [← Multiset.bind_add]
    exact Multiset.bind_congr fun r hr => applicable_cons hcat ht (hlen r (Multiset.mem_coe.mp hr)) hij
  rw [overSpans_congr hspan, overSpans_add, overSpans_bind_comm _ fun i j r => addedOver task F t r i j]
  congr 1
  exact Multiset.bind_congr fun r hr => overSpans_addedOver ht hl (hlen r (Multiset.mem_coe.mp hr))

end Parlance
