import Mathlib.Data.Multiset.Bind
import Parlance.Parse.Siblings
import Parlance.Proofs.Fold
import Parlance.Proofs.Table

/-!
# `Proofs.Siblings` — what an index of siblings tells

An index files each rule under its symbols. What it lists for a symbol are the rules with that symbol, each of
them once and in the order of the grammar: those that take it alone, those that take something to its right, and
those that take something to its left. The rules that rewrite to tokens are filed under their phrase.

## Contents
- **Tables of rules.** `found` and `listed`, and what filing a rule does to them.
- **Pairs.** `paired`.
- **The index.** `Indexes`, kept by `add`, and `indexes_ofRules`.
- **Entries.** Which rules an entry can be of.
-/

namespace Parlance.SiblingIndex

/-! ## Tables of rules -/

/-- The rules under a key. -/
def found (t : Table (List Rule)) (key : String) : List Rule := (t.get? key).getD []

/-- All rules of a table, with their keys. -/
def listed (t : Table (List Rule)) : Multiset (String × Rule) :=
  (t.toList : Multiset (String × List Rule)).bind fun entry => entry.2.map fun r => (entry.1, r)

variable {key k c : String} {r : Rule} {rules : List Rule} {index : SiblingIndex}

theorem found_append (t : Table (List Rule)) :
    found (append t key r) k = found t k ++ if k = key then [r] else [] := by
  unfold found append
  by_cases hk : k = key
  · rw [hk, Table.get?_update_self, if_pos rfl]
    rfl
  · rw [Table.get?_update_of_ne t hk, if_neg hk, List.append_nil]

/-- Filing a rule lists it once more. -/
theorem listed_append (t : Table (List Rule)) : listed (append t key r) = listed t + {(key, r)} := by
  obtain ⟨l⟩ := t
  unfold listed append Table.update
  dsimp only
  induction l with
  | nil => rfl
  | cons entry rest ih =>
    obtain ⟨k, old⟩ := entry
    by_cases hk : k = key
    · subst hk
      rw [Table.put, if_pos (beq_self_eq_true k), ← Multiset.cons_coe, ← Multiset.cons_coe,
        Multiset.cons_bind, Multiset.cons_bind, Option.getD_some, List.map_append, ← Multiset.coe_add,
        add_right_comm]
      rfl
    · rw [Table.put, if_neg (by rwa [beq_iff_eq]), ← Multiset.cons_coe, ← Multiset.cons_coe,
        Multiset.cons_bind, Multiset.cons_bind, ih, add_assoc]

/-! ## Pairs -/

/-- The rules under a first key, by the second one. -/
def paired (t : Table (Table (List Rule))) (key : String) : Table (List Rule) := (t.get? key).getD .empty

theorem paired_appendPair (t : Table (Table (List Rule))) (sibling : String) :
    paired (appendPair t key sibling r) k =
      if k = key then append (paired t k) sibling r else paired t k := by
  unfold paired appendPair
  by_cases hk : k = key
  · rw [hk, Table.get?_update_self, if_pos rfl]
    rfl
  · rw [Table.get?_update_of_ne t hk, if_neg hk]

/-- The symbol to the right of one on the left, if a rule has two symbols and the left one is that. -/
def rightOfIn (c : String) (r : Rule) : Multiset (String × Rule) :=
  match r.rhs with
  | [left, right] => if left = c then {(right, r)} else 0
  | _ => 0

/-- The symbol to the left of one on the right, if a rule has two symbols and the right one is that. -/
def leftOfIn (c : String) (r : Rule) : Multiset (String × Rule) :=
  match r.rhs with
  | [left, right] => if right = c then {(left, r)} else 0
  | _ => 0

theorem mem_rightOfIn {c : String} {e : String × Rule} : e ∈ rightOfIn c r ↔ e.2 = r ∧ r.rhs = [c, e.1] := by
  obtain ⟨k, r'⟩ := e
  unfold rightOfIn
  split
  case h_1 s s' hs =>
    by_cases hc : s = c
    · simp [hs, hc, eq_comm, and_comm]
    · simp [hs, hc]
  case h_2 hnot =>
    exact iff_of_false (Multiset.notMem_zero _) fun h => hnot c k h.2

theorem mem_leftOfIn {c : String} {e : String × Rule} : e ∈ leftOfIn c r ↔ e.2 = r ∧ r.rhs = [e.1, c] := by
  obtain ⟨k, r'⟩ := e
  unfold leftOfIn
  split
  case h_1 s s' hs =>
    by_cases hc : s' = c
    · simp [hs, hc, eq_comm, and_comm]
    · simp [hs, hc]
  case h_2 hnot =>
    exact iff_of_false (Multiset.notMem_zero _) fun h => hnot k c h.2

theorem rightOfIn_eq_zero {c : String} (h : ∀ k, r.rhs ≠ [c, k]) : rightOfIn c r = 0 :=
  Multiset.eq_zero_of_forall_notMem fun e he => h e.1 (mem_rightOfIn.mp he).2

theorem leftOfIn_eq_zero {c : String} (h : ∀ k, r.rhs ≠ [k, c]) : leftOfIn c r = 0 :=
  Multiset.eq_zero_of_forall_notMem fun e he => h e.1 (mem_leftOfIn.mp he).2

/-! ## The index -/

/-- **What an index tells about a category**: the rules with it, each of them once; and the rules of a phrase. -/
structure Indexes (index : SiblingIndex) (rules : List Rule) : Prop where
  unary : ∀ c, isCat c = true → found index.unary c = rules.filter fun r => r.rhs = [c]
  literal : ∀ phrase, found index.literal phrase =
    rules.filter fun r => r.isLexical ∧ " ".intercalate r.rhs = phrase
  rightListed : ∀ c, isCat c = true →
    listed (paired index.rightOf c) = (rules : Multiset Rule).bind (rightOfIn c)
  rightFound : ∀ c k, isCat c = true →
    found (paired index.rightOf c) k = rules.filter fun r => r.rhs = [c, k]
  leftListed : ∀ c, isCat c = true →
    listed (paired index.leftOf c) = (rules : Multiset Rule).bind (leftOfIn c)
  leftFound : ∀ c k, isCat c = true →
    found (paired index.leftOf c) k = rules.filter fun r => r.rhs = [k, c]

theorem indexes_empty : Indexes .empty [] where
  unary _ _ := rfl
  literal _ := rfl
  rightListed _ _ := rfl
  rightFound _ _ _ := rfl
  leftListed _ _ := rfl
  leftFound _ _ _ := rfl

theorem filter_concat (keep : Rule → Prop) [DecidablePred keep] (rules : List Rule) (r : Rule) :
    (rules ++ [r]).filter (fun r => keep r) =
      rules.filter (fun r => keep r) ++ if keep r then [r] else [] := by
  rw [List.filter_append]
  by_cases hr : keep r
  · rw [if_pos hr, List.filter_singleton, decide_eq_true hr]
    rfl
  · rw [if_neg hr, List.filter_singleton, decide_eq_false hr]
    rfl

theorem filter_concat_of_not {keep : Rule → Prop} [DecidablePred keep] (rules : List Rule) {r : Rule} (hr : ¬keep r) :
    (rules ++ [r]).filter (fun r => keep r) = rules.filter fun r => keep r := by
  rw [filter_concat, if_neg hr, List.append_nil]

theorem bind_concat {δ : Type} (f : Rule → Multiset δ) (rules : List Rule) (r : Rule) :
    ((rules ++ [r] : List Rule) : Multiset Rule).bind f = (rules : Multiset Rule).bind f + f r := by
  rw [← Multiset.coe_add, Multiset.add_bind, Multiset.coe_singleton, Multiset.singleton_bind]

theorem bind_concat_of_eq_zero {δ : Type} {f : Rule → Multiset δ} (rules : List Rule) {r : Rule} (hr : f r = 0) :
    ((rules ++ [r] : List Rule) : Multiset Rule).bind f = (rules : Multiset Rule).bind f := by
  rw [bind_concat, hr, add_zero]

/-- A rule that takes a category alone. -/
theorem Indexes.add_unary (h : Indexes index rules) {s : String} (hr : r.rhs = [s]) (hs : isCat s = true) :
    Indexes (index.add r) (rules ++ [r]) := by
  have hadd : index.add r = { index with unary := append index.unary s r } := by
    unfold add Rule.isCatUnary
    simp only [hr, hs, if_true, List.head?_cons, Option.getD_some]
  have hlex : r.isLexical = false := by
    unfold Rule.isLexical
    rw [hr, List.all_cons, hs]
    rfl
  rw [hadd]
  refine ⟨fun c hc => ?_, fun phrase => ?_, fun c hc => ?_, fun c k hc => ?_, fun c hc => ?_, fun c k hc => ?_⟩
  · rw [found_append, h.unary c hc, filter_concat]
    simp only [hr, List.cons.injEq, and_true, eq_comm (a := c)]
  · rw [h.literal phrase, filter_concat_of_not _ (by simp [hlex])]
  · rw [h.rightListed c hc, bind_concat_of_eq_zero _ (rightOfIn_eq_zero (by simp [hr]))]
  · rw [h.rightFound c k hc, filter_concat_of_not _ (by simp [hr])]
  · rw [h.leftListed c hc, bind_concat_of_eq_zero _ (leftOfIn_eq_zero (by simp [hr]))]
  · rw [h.leftFound c k hc, filter_concat_of_not _ (by simp [hr])]

/-- A rule that rewrites to tokens does not rewrite to a category. -/
theorem isCatUnary_of_isLexical (hr : r.isLexical = true) : r.isCatUnary = false := by
  unfold Rule.isCatUnary
  split
  · rename_i s hs
    have hs' := List.all_eq_true.mp hr s (hs ▸ List.mem_singleton_self s)
    simpa using hs'
  · rfl

/-- A rule that takes tokens only. -/
theorem Indexes.add_literal (h : Indexes index rules) (hr : r.isLexical = true) :
    Indexes (index.add r) (rules ++ [r]) := by
  have hno : ∀ c, isCat c = true → c ∉ r.rhs := fun c hc hm => by
    have hn := List.all_eq_true.mp hr c hm
    rw [hc] at hn
    cases hn
  have hunary : ∀ c, isCat c = true → r.rhs ≠ [c] := fun c hc he => hno c hc (by simp [he])
  have hright : ∀ c k, isCat c = true → r.rhs ≠ [c, k] := fun c k hc he => hno c hc (by simp [he])
  have hleft : ∀ c k, isCat c = true → r.rhs ≠ [k, c] := fun c k hc he => hno c hc (by simp [he])
  have hadd : index.add r = { index with literal := append index.literal (" ".intercalate r.rhs) r } := by
    unfold add
    rw [isCatUnary_of_isLexical hr, hr]
    rfl
  rw [hadd]
  refine ⟨fun c hc => ?_, fun phrase => ?_, fun c hc => ?_, fun c k hc => ?_, fun c hc => ?_, fun c k hc => ?_⟩
  · rw [h.unary c hc, filter_concat_of_not _ (hunary c hc)]
  · rw [found_append, h.literal phrase, filter_concat]
    simp only [hr, true_and, eq_comm (a := phrase)]
  · rw [h.rightListed c hc, bind_concat_of_eq_zero _ (rightOfIn_eq_zero fun k => hright c k hc)]
  · rw [h.rightFound c k hc, filter_concat_of_not _ (hright c k hc)]
  · rw [h.leftListed c hc, bind_concat_of_eq_zero _ (leftOfIn_eq_zero fun k => hleft c k hc)]
  · rw [h.leftFound c k hc, filter_concat_of_not _ (hleft c k hc)]

/-- A rule with two symbols, one of them a category. -/
theorem Indexes.add_pair (h : Indexes index rules) {s s' : String} (hr : r.rhs = [s, s'])
    (hlex : r.isLexical = false) : Indexes (index.add r) (rules ++ [r]) := by
  have hadd : index.add r = { index with
      rightOf := appendPair index.rightOf s s' r
      leftOf := appendPair index.leftOf s' s r } := by
    unfold add Rule.isCatUnary
    simp only [hr, hlex, Bool.false_eq_true, if_false]
  rw [hadd]
  refine ⟨fun c hc => ?_, fun phrase => ?_, fun c hc => ?_, fun c k hc => ?_, fun c hc => ?_, fun c k hc => ?_⟩
  · rw [h.unary c hc, filter_concat_of_not _ (by simp [hr])]
  · rw [h.literal phrase, filter_concat_of_not _ (by simp [hlex])]
  · rw [paired_appendPair, bind_concat, ← h.rightListed c hc]
    unfold rightOfIn
    rw [hr]
    dsimp only
    by_cases hs : s = c
    · rw [if_pos hs.symm, if_pos hs, listed_append]
    · rw [if_neg (Ne.symm hs), if_neg hs, add_zero]
  · rw [paired_appendPair, filter_concat, ← h.rightFound c k hc, hr]
    by_cases hs : s = c
    · rw [if_pos hs.symm, found_append]
      simp only [hs, List.cons.injEq, and_true, true_and, eq_comm (a := k)]
    · rw [if_neg (Ne.symm hs), if_neg fun he => hs (List.cons.inj he).1, List.append_nil]
  · rw [paired_appendPair, bind_concat, ← h.leftListed c hc]
    unfold leftOfIn
    rw [hr]
    dsimp only
    by_cases hs : s' = c
    · rw [if_pos hs.symm, if_pos hs, listed_append]
    · rw [if_neg (Ne.symm hs), if_neg hs, add_zero]
  · rw [paired_appendPair, filter_concat, ← h.leftFound c k hc, hr]
    by_cases hs : s' = c
    · rw [if_pos hs.symm, found_append]
      simp only [hs, List.cons.injEq, and_true, eq_comm (a := k)]
    · rw [if_neg (Ne.symm hs), if_neg (by simp [hs]), List.append_nil]

/-- **Adding a rule** files it under its symbols and nowhere else. -/
theorem Indexes.add (h : Indexes index rules) (hlen : r.rhs.length ≤ 2) :
    Indexes (index.add r) (rules ++ [r]) := by
  by_cases hlex : r.isLexical = true
  · exact h.add_literal hlex
  · match hr : r.rhs, hlen with
    | [], _ => exact absurd (by unfold Rule.isLexical; rw [hr]; rfl) hlex
    | [s], _ =>
      refine h.add_unary hr (Bool.not_eq_false _ ▸ fun hs => hlex ?_)
      unfold Rule.isLexical
      rw [hr, List.all_cons, hs]
      rfl
    | [s, s'], _ => exact h.add_pair hr (Bool.eq_false_iff.mpr hlex)
    | _ :: _ :: _ :: _, hlen => simp only [List.length_cons] at hlen; omega

/-- **The index of a grammar** tells about its rules, which have two symbols at most. -/
theorem indexes_ofRules (h : ofRules rules = .ok index) :
    (∀ r ∈ rules, r.rhs.length ≤ 2) ∧ Indexes index rules := by
  unfold ofRules at h
  split at h
  · cases h
  · rename_i hfind
    have hlen : ∀ r ∈ rules, r.rhs.length ≤ 2 := fun r hr => by
      have hn := List.find?_eq_none.mp hfind r hr
      exact Nat.le_of_not_lt fun hlt => hn (decide_eq_true hlt)
    refine ⟨hlen, Except.ok.inj h ▸ foldl_induct (P := fun pre index => Indexes index pre) rules .empty
      indexes_empty fun pre r post index hl hi => hi.add (hlen r (hl ▸ by simp))⟩

/-! ## Entries -/

theorem mem_listed {t : Table (List Rule)} (hentry : (k, rules) ∈ t.toList) (hr : r ∈ rules) : (k, r) ∈ listed t :=
  Multiset.mem_bind.mpr ⟨(k, rules), Multiset.mem_coe.mpr hentry,
    Multiset.mem_coe.mpr (List.mem_map_of_mem (f := fun r => (k, r)) hr)⟩

/-- What is listed to the right of a category is the right symbol of a rule with the category on its left. -/
theorem Indexes.rhs_of_right (h : index.Indexes rules) (hc : isCat c = true) {e : String × Rule}
    (he : e ∈ listed (paired index.rightOf c)) : e.2 ∈ rules ∧ e.2.rhs = [c, e.1] := by
  rw [h.rightListed c hc] at he
  obtain ⟨r, hr, he⟩ := Multiset.mem_bind.mp he
  obtain ⟨rfl, hrhs⟩ := mem_rightOfIn.mp he
  exact ⟨Multiset.mem_coe.mp hr, hrhs⟩

/-- What is listed to the left of a category is the left symbol of a rule with the category on its right. -/
theorem Indexes.rhs_of_left (h : index.Indexes rules) (hc : isCat c = true) {e : String × Rule}
    (he : e ∈ listed (paired index.leftOf c)) : e.2 ∈ rules ∧ e.2.rhs = [e.1, c] := by
  rw [h.leftListed c hc] at he
  obtain ⟨r, hr, he⟩ := Multiset.mem_bind.mp he
  obtain ⟨rfl, hrhs⟩ := mem_leftOfIn.mp he
  exact ⟨Multiset.mem_coe.mp hr, hrhs⟩

end Parlance.SiblingIndex
