import Parlance.Proofs.Literals

/-!
# `Proofs.Neighbours` — combining a tree with those next to it

When a derivation is added to the chart, it is combined with what stands next to it: with each derivation to its
right and to its left, with the next token on either side, and with nothing. What is applied in this way is what its
tree adds to the compositions, each of these once.

## Contents
- **Sides.** `onLeft_eq`, `onRight_eq` and `added_eq`: tokens and parts apart, and by the lists of siblings.
- **Siblings.** What an index lists for a category, applied to cells and to tokens.
- **Combining.** `map_over_combinations`.
-/

namespace Parlance

open Progress SiblingIndex

variable {α : Type} {task : Task α} {F : Multiset (DerivationTree α)} {t : DerivationTree α} {r : Rule}
  {rules : List Rule}

/-! ## Sides -/

/-- On the left of a part, or of the next token. -/
theorem onLeft_eq (s' : String) :
    onLeft task F t r s' =
      ((Multiset.range (task.length - t.label.last)).bind fun k =>
        if task.canBuild r t.label.first (t.label.last + k + 1) then
          (among F t.label.last (t.label.last + k + 1) s').map fun u =>
            ⟨r, t.label.first, t.label.last + k + 1, [t, u]⟩
        else 0) +
      if t.label.last < task.length ∧ task.isLiteral t.label.last s' then
        if task.canBuild r t.label.first (t.label.last + 1) then
          {⟨r, t.label.first, t.label.last + 1, [t]⟩} else 0
      else 0 := by
  have hend : ∀ j ∈ Multiset.range (task.length + 1),
      (if t.label.last < j ∧ task.canBuild r t.label.first j then
        (ways task.isLiteral (among F) j [s'] t.label.last).map fun w =>
          (⟨r, t.label.first, j, t :: w⟩ : Composition α) else 0) =
      (if t.label.last < j then
        if task.canBuild r t.label.first j then
          (among F t.label.last j s').map fun u => ⟨r, t.label.first, j, [t, u]⟩ else 0
        else 0) +
      if (j = t.label.last + 1 ∧ t.label.last < task.length) ∧ task.isLiteral t.label.last s' then
        if task.canBuild r t.label.first j then {⟨r, t.label.first, j, [t]⟩} else 0
      else 0 := by
    intro j hj
    rw [Multiset.mem_range] at hj
    by_cases hlt : t.label.last < j
    · -- a token covers what is left of the span only if that has the length one
      have hiff : (j = t.label.last + 1 ∧ t.label.last < task.length) ∧ task.isLiteral t.label.last s' = true ↔
          j = t.label.last + 1 ∧ task.isLiteral t.label.last s' = true :=
        and_congr_left' (and_iff_left_of_imp fun he => by omega)
      rw [ways_one s' hlt, if_pos hlt, if_congr hiff rfl rfl]
      by_cases hb : task.canBuild r t.label.first j = true
      · rw [if_pos ⟨hlt, hb⟩, if_pos hb, if_pos hb, Multiset.map_add, Multiset.map_map, add_comm]
        congr 1
        split
        · rfl
        · rfl
      · rw [if_neg fun h => hb h.2, if_neg hb, if_neg hb, ite_self, add_zero]
    · rw [if_neg fun h => hlt h.1, if_neg hlt, if_neg (by omega), add_zero]
  -- all ends of the span for the parts, and one end for the token
  unfold onLeft
  rw [Multiset.bind_congr hend, Multiset.bind_add, ← bind_range_shift, bind_range_ite
    (P := fun j => (j = t.label.last + 1 ∧ t.label.last < task.length) ∧ task.isLiteral t.label.last s' = true)
    _ fun j h => ⟨h.1.1, by omega⟩]
  simp only [true_and]

/-- On the right of a part, or of the token before it. -/
theorem onRight_eq (s : String) :
    onRight task F t r s =
      ((Multiset.range t.label.first).bind fun i =>
        if task.canBuild r i t.label.last then
          (among F i t.label.first s).map fun u => ⟨r, i, t.label.last, [u, t]⟩
        else 0) +
      if 0 < t.label.first ∧ task.isLiteral (t.label.first - 1) s then
        if task.canBuild r (t.label.first - 1) t.label.last then
          {⟨r, t.label.first - 1, t.label.last, [t]⟩} else 0
      else 0 := by
  have hstart : ∀ i ∈ Multiset.range t.label.first,
      (if task.canBuild r i t.label.last then
        (ways task.isLiteral (among F) t.label.first [s] i).map fun w =>
          (⟨r, i, t.label.last, w ++ [t]⟩ : Composition α) else 0) =
      (if task.canBuild r i t.label.last then
        (among F i t.label.first s).map fun u => ⟨r, i, t.label.last, [u, t]⟩ else 0) +
      if t.label.first = i + 1 ∧ task.isLiteral i s then
        if task.canBuild r i t.label.last then {⟨r, i, t.label.last, [t]⟩} else 0
      else 0 := by
    intro i hi
    rw [ways_one s (Multiset.mem_range.mp hi)]
    by_cases hb : task.canBuild r i t.label.last = true
    · rw [if_pos hb, if_pos hb, if_pos hb, Multiset.map_add, Multiset.map_map, add_comm]
      congr 1
      split
      · rfl
      · rfl
    · rw [if_neg hb, if_neg hb, if_neg hb, ite_self, add_zero]
  unfold onRight
  rw [Multiset.bind_congr hstart, Multiset.bind_add]
  congr 1
  -- the token is the one before the tree, if there is one
  by_cases hf : 0 < t.label.first
  · rw [bind_eq_of_unique (Multiset.nodup_range _) (Multiset.mem_range.mpr (Nat.sub_lt hf Nat.one_pos))
      fun i _ hne => if_neg fun h => by omega]
    refine if_congr (and_congr_left' ?_) rfl rfl
    exact iff_of_true (by omega) hf
  · rw [Nat.eq_zero_of_not_pos hf]
    rfl

/-- **What a rule puts together with a new tree**, by the symbols next to the tree's category. -/
theorem added_eq (r : Rule) :
    added task F t r =
      (rightOfIn t.label.cat r).bind (fun e => onLeft task F t e.2 e.1) +
        (leftOfIn t.label.cat r).bind (fun e => onRight task F t e.2 e.1) +
        if r.rhs = [t.label.cat] then alone task t r else 0 := by
  unfold added rightOfIn leftOfIn
  split
  · rename_i s hs
    simp only [hs, Multiset.zero_bind, zero_add, List.cons.injEq, and_true, eq_comm]
  · rename_i s s' hs
    have hne : ¬[s, s'] = [t.label.cat] := fun he => by cases (List.cons.inj he).2
    rw [hs]
    dsimp only
    rw [if_neg hne, add_zero]
    congr 1
    · by_cases h : s = t.label.cat
      · rw [if_pos h, if_pos h.symm, Multiset.singleton_bind]
      · rw [if_neg h, if_neg (Ne.symm h), Multiset.zero_bind]
    · by_cases h : s' = t.label.cat
      · rw [if_pos h, if_pos h.symm, Multiset.singleton_bind]
      · rw [if_neg h, if_neg (Ne.symm h), Multiset.zero_bind]
  · rename_i hone htwo
    rw [if_neg fun he => hone _ he, add_zero]
    split
    · exact absurd ‹_› (htwo _ _)
    · rfl

/-- A tree is not next to itself. -/
theorem added_cons_self (hcat : isCat t.label.cat = true) (ht : t.label.first < t.label.last) (r : Rule) :
    added task (t ::ₘ F) t r = added task F t r := by
  -- what stands to its right begins where the tree ends, so that it is not the tree
  have hleft : ∀ r s', onLeft task (t ::ₘ F) t r s' = onLeft task F t r s' := by
    intro r s'
    refine Multiset.bind_congr fun j _ => ?_
    by_cases hj : t.label.last < j
    · have hspot : spot t t.label.last j s' = 0 := if_neg fun h =>
        Nat.ne_of_lt ht (DerivationTree.isAt_iff.mp h).1
      rw [ways_one_cons hcat s' hj, hspot, Multiset.map_zero, add_zero]
    · simp only [hj, false_and, if_false]
  have hright : ∀ r s, onRight task (t ::ₘ F) t r s = onRight task F t r s := by
    intro r s
    refine Multiset.bind_congr fun i hi => ?_
    have hspot : spot t i t.label.first s = 0 := if_neg fun h =>
      Nat.ne_of_gt ht (DerivationTree.isAt_iff.mp h).2.1
    rw [ways_one_cons hcat s (Multiset.mem_range.mp hi), hspot, Multiset.map_zero, add_zero]
  rw [added_eq, added_eq]
  simp only [hleft, hright]

/-! ## Siblings -/

section Index

variable {index : SiblingIndex}

/-- What is listed for a pair belongs to a rule with that pair. -/
theorem mem_rightOf (h : index.Indexes rules) {c : String} (hc : isCat c = true) {e : String × Rule}
    (he : e ∈ listed (paired index.rightOf c)) : e.2 ∈ rules ∧ e.1 ∈ e.2.rhs := by
  obtain ⟨hr, hrhs⟩ := h.rhs_of_right hc he
  exact ⟨hr, by rw [hrhs]; exact List.mem_cons_of_mem _ (List.mem_singleton_self _)⟩

theorem mem_leftOf (h : index.Indexes rules) {c : String} (hc : isCat c = true) {e : String × Rule}
    (he : e ∈ listed (paired index.leftOf c)) : e.2 ∈ rules ∧ e.1 ∈ e.2.rhs := by
  obtain ⟨hr, hrhs⟩ := h.rhs_of_left hc he
  exact ⟨hr, by rw [hrhs]; exact List.mem_cons_self⟩

/-- Of the entries of a rule for a pair, those with one sibling are there if the rule has that pair. -/
theorem bind_entries {δ : Type} {r : Rule} {k : String} {pair : List String} {entries : Multiset (String × Rule)}
    (hmem : ∀ e ∈ entries, e.1 = k → r.rhs = pair) (hone : r.rhs = pair → entries = {(k, r)})
    (f : Rule → Multiset δ) :
    entries.bind (fun e => if e.1 = k then f e.2 else 0) = if r.rhs = pair then f r else 0 := by
  by_cases hr : r.rhs = pair
  · rw [hone hr, Multiset.singleton_bind, if_pos rfl, if_pos hr]
  · rw [if_neg hr, Multiset.bind_congr fun e he => if_neg fun hk => hr (hmem e he hk), Multiset.bind_zero]

/-- The rules of one sibling are those that are listed with it. -/
theorem bind_rightFound (h : index.Indexes rules) {c : String} (hc : isCat c = true) (k : String) {δ : Type}
    (f : Rule → Multiset δ) :
    (found (paired index.rightOf c) k : Multiset Rule).bind f =
      (listed (paired index.rightOf c)).bind fun e => if e.1 = k then f e.2 else 0 := by
  rw [h.rightFound c k hc, h.rightListed c hc, Multiset.bind_assoc, ← Multiset.filter_coe, Multiset.bind_filter]
  refine Multiset.bind_congr fun r _ => (bind_entries ?_ ?_ f).symm
  · rintro e he rfl
    exact (mem_rightOfIn.mp he).2
  · intro hr
    simp [rightOfIn, hr]

theorem bind_leftFound (h : index.Indexes rules) {c : String} (hc : isCat c = true) (k : String) {δ : Type}
    (f : Rule → Multiset δ) :
    (found (paired index.leftOf c) k : Multiset Rule).bind f =
      (listed (paired index.leftOf c)).bind fun e => if e.1 = k then f e.2 else 0 := by
  rw [h.leftFound c k hc, h.leftListed c hc, Multiset.bind_assoc, ← Multiset.filter_coe, Multiset.bind_filter]
  refine Multiset.bind_congr fun r _ => (bind_entries ?_ ?_ f).symm
  · rintro e he rfl
    exact (mem_leftOfIn.mp he).2
  · intro hr
    simp [leftOfIn, hr]

variable [Score α]

/-- Rules with their siblings over a span, applied to the derivations of the siblings. -/
theorem map_over_siblings (arena : Arena α) (siblings : Table (List Rule)) (first last : Nat)
    (cell : String → List (List Nat)) :
    ((siblings.toList.flatMap fun (cat, rules) => BestFirst.applications task rules first last (cell cat)).map
        (·.over arena) : Multiset (Composition α)) =
      (listed siblings).bind fun e =>
        if task.canBuild e.2 first last then
          (cell e.1 : Multiset (List Nat)).map fun w => ⟨e.2, first, last, w.map arena.unfold⟩
        else 0 := by
  unfold listed
  rw [List.map_flatMap, ← Multiset.coe_bind, Multiset.bind_assoc]
  refine Multiset.bind_congr fun e _ => ?_
  rw [map_over_applications, ← Multiset.map_coe, Multiset.bind_map]

end Index

/-! ## Combining -/

section Combining

variable [Score α] {index : SiblingIndex} {p : Progress α} {i : Nat}

omit [Score α] in
/-- Among trees that belong to categories, a symbol stands for those in its cell. -/
theorem among_eq (hF : ∀ t ∈ F, isCat t.label.cat = true) (first last : Nat) (s : String) :
    among F first last s = F.filter fun t => t.isAt first last s := by
  unfold among
  split
  · rfl
  · rename_i hs
    exact (Multiset.filter_eq_nil.mpr fun t (ht : t ∈ F) (hat : t.isAt first last s = true) =>
      hs ((DerivationTree.isAt_iff.mp hat).2.2 ▸ hF t ht)).symm

/-- The rules for a pair of which the tree is the left one. -/
theorem rightward_eq (i : Nat) :
    BestFirst.rightward index task p i =
      ((List.range (task.length - (p.arena.get i).last)).flatMap fun k =>
        (paired index.rightOf (p.arena.get i).cat).toList.flatMap fun (cat, rules) =>
          BestFirst.applications task rules (p.arena.get i).first ((p.arena.get i).last + k + 1)
            ((p.chart.get (p.arena.get i).last ((p.arena.get i).last + k + 1) cat).map fun c => [i, c])) ++
      if (p.arena.get i).last < task.length then
        BestFirst.applications task
          (found (paired index.rightOf (p.arena.get i).cat)
            (task.ex.info.phrase (p.arena.get i).last ((p.arena.get i).last + 1)))
          (p.arena.get i).first ((p.arena.get i).last + 1) [[i]]
      else [] := by
  unfold BestFirst.rightward paired
  dsimp only
  cases index.rightOf.get? (p.arena.get i).cat with
  | none =>
    -- no rules: nothing is applied to anything
    simp only [Option.getD_none, Table.empty, List.flatMap_nil, found, Table.get?, Table.find,
      BestFirst.applications, List.filter_nil, ite_self, List.append_nil]
    exact (List.flatMap_eq_nil_iff.mpr fun _ _ => rfl).symm
  | some siblings => rfl

/-- The rules for a pair of which the tree is the right one. -/
theorem leftward_eq (i : Nat) :
    BestFirst.leftward index task p i =
      ((List.range (p.arena.get i).first).reverse.flatMap fun first =>
        (paired index.leftOf (p.arena.get i).cat).toList.flatMap fun (cat, rules) =>
          BestFirst.applications task rules first (p.arena.get i).last
            ((p.chart.get first (p.arena.get i).first cat).map fun c => [c, i])) ++
      if 0 < (p.arena.get i).first then
        BestFirst.applications task
          (found (paired index.leftOf (p.arena.get i).cat)
            (task.ex.info.phrase ((p.arena.get i).first - 1) (p.arena.get i).first))
          ((p.arena.get i).first - 1) (p.arena.get i).last [[i]]
      else [] := by
  unfold BestFirst.leftward paired
  dsimp only
  cases index.leftOf.get? (p.arena.get i).cat with
  | none =>
    simp only [Option.getD_none, Table.empty, List.flatMap_nil, found, Table.get?, Table.find,
      BestFirst.applications, List.filter_nil, ite_self, List.append_nil]
    exact (List.flatMap_eq_nil_iff.mpr fun _ _ => rfl).symm
  | some siblings => rfl

/-- What a cell stands for by its trees. -/
theorem map_unfold_get (hF : ∀ t ∈ F, isCat t.label.cat = true)
    (hcells : ∀ first last cat, first < last → last ≤ task.length →
      (p.treesAt first last cat : Multiset (DerivationTree α)) = F.filter fun t => t.isAt first last cat)
    {first last : Nat} (hf : first < last) (hl : last ≤ task.length) (s : String) {δ : Type}
    (f : DerivationTree α → δ) :
    ((p.chart.get first last s).map fun c => f (p.arena.unfold c) : Multiset δ) = (among F first last s).map f := by
  rw [among_eq hF, ← hcells first last s hf hl, Multiset.map_coe]
  exact congrArg _ (List.map_map).symm

/-- **What a derivation is combined with to its right** is what the tree adds on the left of something. -/
theorem map_over_rightward (hindex : index.Indexes rules) (htok : BottomUp.LiteralTokens task rules)
    (hF : ∀ t ∈ F, isCat t.label.cat = true)
    (hcells : ∀ first last cat, first < last → last ≤ task.length →
      (p.treesAt first last cat : Multiset (DerivationTree α)) = F.filter fun t => t.isAt first last cat)
    (hcat : isCat (p.arena.get i).cat = true) :
    ((BestFirst.rightward index task p i).map (·.over p.arena) : Multiset (Composition α)) =
      (listed (paired index.rightOf (p.arena.get i).cat)).bind fun e =>
        onLeft task F (p.arena.unfold i) e.2 e.1 := by
  have hlabel : (p.arena.unfold i).label = (p.arena.get i).label := Arena.label_unfold p.arena i
  have hfirst : (p.arena.unfold i).label.first = (p.arena.get i).first := congrArg Label.first hlabel
  have hlast : (p.arena.unfold i).label.last = (p.arena.get i).last := congrArg Label.last hlabel
  simp only [onLeft_eq, Multiset.bind_add, hfirst, hlast]
  rw [rightward_eq, List.map_append, ← Multiset.coe_add]
  congr 1
  · -- derivations of each length, whichever comes first, length or sibling
    rw [List.map_flatMap, ← Multiset.coe_bind, Multiset.bind_bind]
    refine Multiset.bind_congr fun k hk => ?_
    have hk : k < task.length - (p.arena.get i).last := List.mem_range.mp (Multiset.mem_coe.mp hk)
    rw [map_over_siblings p.arena _ _ _ fun cat =>
      (p.chart.get (p.arena.get i).last ((p.arena.get i).last + k + 1) cat).map fun c => [i, c]]
    refine Multiset.bind_congr fun e _ => ?_
    rw [← map_unfold_get hF hcells (by omega) (by omega), Multiset.map_coe, List.map_map]
    rfl
  · -- the next token, if there is one: a symbol that is the token stands for it
    by_cases hlt : (p.arena.get i).last < task.length
    · rw [if_pos hlt, map_over_applications, CoarseChart.phrase_token hlt, bind_rightFound hindex hcat]
      refine Multiset.bind_congr fun e he => ?_
      obtain ⟨hr, hs⟩ := mem_rightOf hindex hcat he
      have hliteral : task.isLiteral (p.arena.get i).last e.1 = true ↔ e.1 = task.ex.token (p.arena.get i).last := by
        rw [BottomUp.isLiteral_eq htok hr hlt hs, beq_iff_eq, eq_comm]
      simp only [hlt, hliteral, true_and]
      rfl
    · simp only [hlt, false_and, if_false, Multiset.bind_zero]
      rfl

/-- **What a derivation is combined with to its left** is what the tree adds on the right of something. -/
theorem map_over_leftward (hindex : index.Indexes rules) (htok : BottomUp.LiteralTokens task rules)
    (hF : ∀ t ∈ F, isCat t.label.cat = true)
    (hcells : ∀ first last cat, first < last → last ≤ task.length →
      (p.treesAt first last cat : Multiset (DerivationTree α)) = F.filter fun t => t.isAt first last cat)
    (hcat : isCat (p.arena.get i).cat = true) (hl : (p.arena.get i).first < task.length) :
    ((BestFirst.leftward index task p i).map (·.over p.arena) : Multiset (Composition α)) =
      (listed (paired index.leftOf (p.arena.get i).cat)).bind fun e =>
        onRight task F (p.arena.unfold i) e.2 e.1 := by
  have hlabel : (p.arena.unfold i).label = (p.arena.get i).label := Arena.label_unfold p.arena i
  have hfirst : (p.arena.unfold i).label.first = (p.arena.get i).first := congrArg Label.first hlabel
  have hlast : (p.arena.unfold i).label.last = (p.arena.get i).last := congrArg Label.last hlabel
  simp only [onRight_eq, Multiset.bind_add, hfirst, hlast]
  rw [leftward_eq, List.map_append, ← Multiset.coe_add]
  congr 1
  · rw [List.map_flatMap, ← Multiset.coe_bind, Multiset.coe_reverse, Multiset.bind_bind]
    refine Multiset.bind_congr fun k hk => ?_
    have hk : k < (p.arena.get i).first := List.mem_range.mp (Multiset.mem_coe.mp hk)
    rw [map_over_siblings p.arena _ _ _ fun cat =>
      (p.chart.get k (p.arena.get i).first cat).map fun c => [c, i]]
    refine Multiset.bind_congr fun e _ => ?_
    rw [← map_unfold_get hF hcells hk (Nat.le_of_lt hl), Multiset.map_coe, List.map_map]
    rfl
  · by_cases hpos : 0 < (p.arena.get i).first
    · have hlt : (p.arena.get i).first - 1 < task.length := by omega
      have hphrase : task.ex.info.phrase ((p.arena.get i).first - 1) (p.arena.get i).first =
          task.ex.token ((p.arena.get i).first - 1) := by
        have hp := CoarseChart.phrase_token hlt
        rwa [Nat.sub_add_cancel hpos] at hp
      rw [if_pos hpos, map_over_applications, hphrase, bind_leftFound hindex hcat]
      refine Multiset.bind_congr fun e he => ?_
      obtain ⟨hr, hs⟩ := mem_leftOf hindex hcat he
      have hliteral : task.isLiteral ((p.arena.get i).first - 1) e.1 = true ↔
          e.1 = task.ex.token ((p.arena.get i).first - 1) := by
        rw [BottomUp.isLiteral_eq htok hr hlt hs, beq_iff_eq, eq_comm]
      simp only [hpos, hliteral, true_and]
      rfl
    · simp only [hpos, false_and, if_false, Multiset.bind_zero]
      rfl

/-- **What a new derivation is combined with** is what its tree adds to the compositions. -/
theorem map_over_combinations (hindex : index.Indexes rules) (htok : BottomUp.LiteralTokens task rules)
    (hF : ∀ t ∈ F, isCat t.label.cat = true)
    (hcells : ∀ first last cat, first < last → last ≤ task.length →
      (p.treesAt first last cat : Multiset (DerivationTree α)) = F.filter fun t => t.isAt first last cat)
    (ht : (p.arena.unfold i).LiesIn task.length) :
    ((BestFirst.combinations index task p i).map (·.over p.arena) : Multiset (Composition α)) =
      (rules : Multiset Rule).bind (added task F (p.arena.unfold i)) := by
  have hlabel : (p.arena.unfold i).label = (p.arena.get i).label := Arena.label_unfold p.arena i
  have hfirst : (p.arena.unfold i).label.first = (p.arena.get i).first := congrArg Label.first hlabel
  have hlast : (p.arena.unfold i).label.last = (p.arena.get i).last := congrArg Label.last hlabel
  have hc : (p.arena.unfold i).label.cat = (p.arena.get i).cat := congrArg Label.cat hlabel
  obtain ⟨hf, hl, hcat⟩ := ht
  rw [hfirst, hlast] at hf
  rw [hlast] at hl
  rw [hc] at hcat
  -- the rules that take the category alone
  have halone : ((BestFirst.applications task ((index.unary.get? (p.arena.get i).cat).getD [])
      (p.arena.get i).first (p.arena.get i).last [[i]]).map (·.over p.arena) : Multiset (Composition α)) =
      (rules : Multiset Rule).bind fun r =>
        if r.rhs = [(p.arena.get i).cat] then alone task (p.arena.unfold i) r else 0 := by
    have hunary : (index.unary.get? (p.arena.get i).cat).getD [] =
        rules.filter fun r => r.rhs = [(p.arena.get i).cat] := hindex.unary _ hcat
    rw [map_over_applications, hunary, ← Multiset.filter_coe, Multiset.bind_filter]
    refine Multiset.bind_congr fun r _ => ?_
    unfold alone
    rw [hfirst, hlast]
    rfl
  unfold BestFirst.combinations
  simp only [added_eq, Multiset.bind_add, hc]
  rw [List.map_append, List.map_append, ← Multiset.coe_add, ← Multiset.coe_add, halone,
    map_over_rightward hindex htok hF hcells hcat,
    map_over_leftward hindex htok hF hcells hcat (Nat.lt_of_lt_of_le hf hl),
    hindex.rightListed _ hcat, hindex.leftListed _ hcat, Multiset.bind_assoc, Multiset.bind_assoc]

end Combining

end Parlance
