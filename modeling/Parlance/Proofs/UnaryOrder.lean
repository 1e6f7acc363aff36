import Mathlib.Data.List.Induction
import Parlance.Parse.UnaryOrder
import Parlance.Proofs.Fold
import Parlance.Proofs.Table

/-!
# `Proofs.UnaryOrder` — the order of the rules from one category to one category

The sorted list has just the rules that it should have, and each of them stands behind all rules that make
the category it takes. A walk keeps this of what it has listed so far: categories that are done have all
their rules in the list, and every rule in the list takes a category that is done.

## Contents
- **The graph.** `rulesOf_graph`.
- **Walks.** `Walk.Ordered`, kept by `visit`.
- **The list.** `filter_sort`, `pairwise_sort`, `lhs_ne_target_of_sort`.
-/

namespace Parlance

/-- The category that a rule from one category to one category takes. -/
def Rule.target (r : Rule) : String := (r.rhs.head?).getD ""

theorem Rule.rhs_of_isCatUnary {r : Rule} (h : r.isCatUnary = true) : r.rhs = [r.target] := by
  unfold isCatUnary at h
  split at h
  · rename_i symbol hr
    rw [target, hr]
    rfl
  · exact absurd h (by simp)

theorem Rule.isCat_target {r : Rule} (h : r.isCatUnary = true) : isCat r.target = true := by
  have hr := r.rhs_of_isCatUnary h
  unfold isCatUnary at h
  rw [hr] at h
  exact h

namespace UnaryOrder

/-! ## The graph -/

/-- The rules that a graph has for a category. -/
def Graph.rulesOf (g : Graph) (cat : String) : List Rule := (Table.get? g cat).getD []

/-- A graph has the unary rules of a list, by left-hand sides and in order. -/
theorem rulesOf_graph (rules : List Rule) (cat : String) :
    (graph rules).rulesOf cat = (rules.filter Rule.isCatUnary).filter fun r => r.lhs = cat := by
  unfold graph
  refine foldl_induct (P := fun pre (g : Graph) => g.rulesOf cat = pre.filter fun r => r.lhs = cat)
    (rules.filter Rule.isCatUnary) .empty rfl ?_
  intro pre r post g _ hg
  rw [List.filter_append]
  unfold Graph.rulesOf at hg ⊢
  by_cases hr : r.lhs = cat
  · rw [hr, Table.get?_update_self, hg]
    simp [hr]
  · rw [Table.get?_update_of_ne _ (Ne.symm hr), hg]
    simp [hr]

theorem lhs_of_mem_rulesOf {rules : List Rule} {cat : String} {r : Rule}
    (h : r ∈ (graph rules).rulesOf cat) : r.lhs = cat := by
  rw [rulesOf_graph, List.mem_filter] at h
  exact of_decide_eq_true h.2

theorem mem_keys_of_mem_rulesOf {g : Graph} {cat : String} {r : Rule} (h : r ∈ g.rulesOf cat) :
    cat ∈ Table.keys g := by
  rw [← Table.contains_iff, Table.contains]
  unfold Graph.rulesOf at h
  cases hg : Table.get? g cat with
  | none => rw [hg] at h; exact absurd h (by simp)
  | some l => rfl

/-! ## Walks -/

/-- **What a walk keeps.** A category that is done has all its rules in the list, one that was not entered has
none of them there; every rule of the list takes a category that is done, and no rule behind it makes that
category. -/
structure Walk.Ordered (g : Graph) (w : Walk) : Prop where
  done : ∀ c, w.seen.get? c = some true → (w.sorted.filter fun r => r.lhs = c) = g.rulesOf c
  fresh : ∀ c, w.seen.get? c = none → ∀ r ∈ w.sorted, r.lhs ≠ c
  known : ∀ r ∈ w.sorted, r ∈ g.rulesOf r.lhs
  targets : ∀ r ∈ w.sorted, w.seen.get? r.target = some true
  irrefl : ∀ r ∈ w.sorted, r.lhs ≠ r.target
  order : w.sorted.Pairwise fun a b => b.lhs ≠ a.target

/-- **One walk goes on where another one stopped**: categories that were entered stay as they were, and the
list gets no rules for them. -/
structure Walk.Later (w w' : Walk) : Prop where
  seen : ∀ c b, w.seen.get? c = some b → w'.seen.get? c = some b
  kept : ∀ c b, w.seen.get? c = some b →
    (w'.sorted.filter fun r => r.lhs = c) = w.sorted.filter fun r => r.lhs = c

theorem Walk.Later.refl (w : Walk) : w.Later w := ⟨fun _ _ h => h, fun _ _ _ => rfl⟩

theorem Walk.Later.trans {w w' w'' : Walk} (h : w.Later w') (h' : w'.Later w'') : w.Later w'' where
  seen c b hc := h'.seen c b (h.seen c b hc)
  kept c b hc := (h'.kept c b (h.seen c b hc)).trans (h.kept c b hc)

/-- The state of a walk through the rules of a category, of which those in `pre` are behind it. -/
structure Walk.Inside (g : Graph) (cat : String) (pre : List Rule) (w w' : Walk) : Prop where
  ordered : w'.Ordered g
  later : w.Later w'
  entered : w'.seen.get? cat = some false
  listed : (w'.sorted.filter fun r => r.lhs = cat) = pre

/-- Entering a category. -/
theorem Walk.Ordered.enter {g : Graph} {w : Walk} {cat : String} (h : w.Ordered g)
    (hc : w.seen.get? cat = none) :
    Walk.Inside g cat [] w { w with seen := w.seen.insert cat false } where
  ordered := by
    have hne : ∀ {c}, c ≠ cat → (w.seen.insert cat false).get? c = w.seen.get? c := fun hcc =>
      Table.get?_update_of_ne _ hcc _
    have hself : (w.seen.insert cat false).get? cat = some false := Table.get?_update_self _ _ _
    refine ⟨?_, ?_, h.known, ?_, h.irrefl, h.order⟩
    · intro c hd
      by_cases he : c = cat
      · rw [he, hself] at hd; exact absurd hd (by simp)
      · rw [hne he] at hd; exact h.done c hd
    · intro c hf
      by_cases he : c = cat
      · rw [he, hself] at hf; exact absurd hf (by simp)
      · rw [hne he] at hf; exact h.fresh c hf
    · intro r hr
      have ht := h.targets r hr
      have hrc : r.target ≠ cat := fun he => by rw [he, hc] at ht; exact absurd ht (by simp)
      rw [hne hrc]; exact ht
  later := by
    refine ⟨?_, fun c b _ => rfl⟩
    intro c b hcb
    have hcc : c ≠ cat := fun he => by rw [he, hc] at hcb; exact absurd hcb (by simp)
    exact (Table.get?_update_of_ne _ hcc _).trans hcb
  entered := Table.get?_update_self _ _ _
  listed := List.filter_eq_nil_iff.mpr fun r hr => by simpa using h.fresh cat hc r hr

/-- Listing a rule of the category that the walk is inside of, once the category it takes is done. -/
theorem Walk.Inside.list {g : Graph} {cat : String} {pre : List Rule} {w w' : Walk} {r : Rule}
    (h : Walk.Inside g cat pre w w') (hw : w.seen.get? cat = none) (hmem : r ∈ g.rulesOf r.lhs)
    (hr : r.lhs = cat) (ht : w'.seen.get? r.target = some true) :
    Walk.Inside g cat (pre ++ [r]) w { w' with sorted := w'.sorted ++ [r] } where
  ordered := by
    have hnew : ∀ a ∈ w'.sorted, r.lhs ≠ a.target := fun a ha he => by
      have := h.ordered.targets a ha
      rw [← he, hr, h.entered] at this
      exact absurd this (by simp)
    refine ⟨?_, ?_, ?_, ?_, ?_, ?_⟩
    · intro c hd
      have hc : r.lhs ≠ c := fun he => by
        rw [← he, hr, h.entered] at hd
        exact absurd hd (by simp)
      rw [List.filter_append, h.ordered.done c hd]
      simp [hc]
    · intro c hf a ha
      rcases List.mem_append.mp ha with ha | ha
      · exact h.ordered.fresh c hf a ha
      · rw [List.mem_singleton] at ha
        rintro rfl
        rw [ha, hr, h.entered] at hf
        exact absurd hf (by simp)
    · intro a ha
      rcases List.mem_append.mp ha with ha | ha
      · exact h.ordered.known a ha
      · rw [List.mem_singleton] at ha; exact ha ▸ hmem
    · intro a ha
      rcases List.mem_append.mp ha with ha | ha
      · exact h.ordered.targets a ha
      · rw [List.mem_singleton] at ha; exact ha ▸ ht
    · intro a ha
      rcases List.mem_append.mp ha with ha | ha
      · exact h.ordered.irrefl a ha
      · rw [List.mem_singleton] at ha
        subst ha
        intro he
        rw [← he, hr, h.entered] at ht
        exact absurd ht (by simp)
    · rw [List.pairwise_append]
      refine ⟨h.ordered.order, List.pairwise_singleton _ _, fun a ha b hb => ?_⟩
      rw [List.mem_singleton] at hb
      exact hb ▸ hnew a ha
  later := by
    refine ⟨h.later.seen, fun c b hc => ?_⟩
    have hrc : r.lhs ≠ c := fun he => by
      rw [← he, hr, hw] at hc
      exact absurd hc (by simp)
    rw [List.filter_append, h.later.kept c b hc]
    simp [hrc]
  entered := h.entered
  listed := by
    rw [List.filter_append, h.listed]
    simp [hr]

/-- Leaving a category, all rules of which are listed. -/
theorem Walk.Inside.leave {g : Graph} {cat : String} {w w' : Walk}
    (h : Walk.Inside g cat (g.rulesOf cat) w w') (hw : w.seen.get? cat = none) :
    Walk.Ordered g { w' with seen := w'.seen.insert cat true } ∧
      w.Later { w' with seen := w'.seen.insert cat true } := by
  have hne : ∀ {c}, c ≠ cat → (w'.seen.insert cat true).get? c = w'.seen.get? c := fun hcc =>
    Table.get?_update_of_ne _ hcc _
  have hself : (w'.seen.insert cat true).get? cat = some true := Table.get?_update_self _ _ _
  refine ⟨⟨?_, ?_, h.ordered.known, ?_, h.ordered.irrefl, h.ordered.order⟩, ?_, h.later.kept⟩
  · intro c hd
    by_cases he : c = cat
    · rw [he]; exact h.listed
    · rw [hne he] at hd; exact h.ordered.done c hd
  · intro c hf
    by_cases he : c = cat
    · rw [he, hself] at hf; exact absurd hf (by simp)
    · rw [hne he] at hf; exact h.ordered.fresh c hf
  · intro r hr
    by_cases he : r.target = cat
    · rw [he]; exact hself
    · rw [hne he]; exact h.ordered.targets r hr
  · intro c b hc
    have hcc : c ≠ cat := fun he => by rw [he, hw] at hc; exact absurd hc (by simp)
    exact (hne hcc).trans (h.later.seen c b hc)

/-- **A walk through a category** keeps the order and ends with the category done. -/
theorem visit_ordered {rules : List Rule} {fuel : Nat} {w w' : Walk} {cat : String}
    (hw : w.Ordered (graph rules)) (h : visit (graph rules) fuel w cat = .ok w') :
    w'.Ordered (graph rules) ∧ w.Later w' ∧ w'.seen.get? cat = some true := by
  induction fuel generalizing w w' cat with
  | zero =>
    unfold visit at h
    split at h
    · rename_i hs; rw [← Except.ok.inj h]; exact ⟨hw, Walk.Later.refl w, hs⟩
    · cases h
    · cases h
  | succ fuel ih =>
    unfold visit at h
    split at h
    · rename_i hs; rw [← Except.ok.inj h]; exact ⟨hw, Walk.Later.refl w, hs⟩
    · cases h
    · rename_i hs
      obtain ⟨w₁, hfold, hret⟩ := bind_eq_ok.mp h
      have hin : Walk.Inside (graph rules) cat ((graph rules).rulesOf cat) w w₁ := by
        refine foldlM_induct (P := fun pre w' => Walk.Inside (graph rules) cat pre w w')
          (hw.enter hs) ?_ hfold
        intro pre r post v v' hl hv hstep
        obtain ⟨v₁, hvisit, hlist⟩ := bind_eq_ok.mp hstep
        obtain ⟨hord, hlater, hdone⟩ := ih hv.ordered hvisit
        have hmem : r ∈ (graph rules).rulesOf cat := hl ▸ by simp
        have hr : r.lhs = cat := lhs_of_mem_rulesOf hmem
        rw [← Except.ok.inj hlist]
        refine Walk.Inside.list ⟨hord, hv.later.trans hlater, hlater.seen cat false hv.entered, ?_⟩
          hs (hr.symm ▸ hmem) hr hdone
        rw [hlater.kept cat false hv.entered]
        exact hv.listed
      obtain ⟨hord, hlater⟩ := hin.leave hs
      rw [← Except.ok.inj hret]
      exact ⟨hord, hlater, Table.get?_update_self _ _ _⟩

/-! ## The list -/

theorem ordered_start (g : Graph) : Walk.Ordered g {} where
  done c h := by cases h
  fresh c _ r hr := by cases hr
  known r hr := by cases hr
  targets r hr := by cases hr
  irrefl r hr := by cases hr
  order := List.Pairwise.nil

/-- The walk at the end of sorting, in which every category with rules is done. -/
theorem exists_walk_of_sort {rules sorted : List Rule} (h : sort rules = .ok sorted) :
    ∃ w : Walk, w.sorted = sorted ∧ w.Ordered (graph rules) ∧
      ∀ c ∈ Table.keys (graph rules), w.seen.get? c = some true := by
  obtain ⟨w, hfold, hret⟩ := bind_eq_ok.mp h
  have hw := foldlM_induct
    (P := fun pre (w : Walk) => w.Ordered (graph rules) ∧ ∀ c ∈ pre, w.seen.get? c = some true)
    ⟨ordered_start _, by simp⟩ (by
      intro pre c post w w' _ hw hv
      obtain ⟨hord, hlater, hdone⟩ := visit_ordered hw.1 hv
      refine ⟨hord, fun d hd => ?_⟩
      rcases List.mem_append.mp hd with hd | hd
      · exact hlater.seen d true (hw.2 d hd)
      · rw [List.mem_singleton] at hd; exact hd ▸ hdone) hfold
  exact ⟨w, Except.ok.inj hret, hw.1, hw.2⟩

/-- **Sorting keeps the unary rules of each category**, in the order of the list. -/
theorem filter_sort {rules sorted : List Rule} (h : sort rules = .ok sorted) (cat : String) :
    (sorted.filter fun r => r.lhs = cat) =
      (rules.filter Rule.isCatUnary).filter fun r => r.lhs = cat := by
  obtain ⟨w, rfl, hw, hkeys⟩ := exists_walk_of_sort h
  rw [← rulesOf_graph]
  by_cases hc : w.seen.get? cat = some true
  · exact hw.done cat hc
  · have hnone : (graph rules).rulesOf cat = [] := List.eq_nil_iff_forall_not_mem.mpr fun r hr =>
      hc (hkeys cat (mem_keys_of_mem_rulesOf hr))
    rw [hnone, List.filter_eq_nil_iff]
    intro r hr he
    have hmem := hw.known r hr
    rw [of_decide_eq_true he, hnone] at hmem
    cases hmem

theorem mem_sort {rules sorted : List Rule} (h : sort rules = .ok sorted) {r : Rule} :
    r ∈ sorted ↔ r ∈ rules ∧ r.isCatUnary = true := by
  have hf := filter_sort h r.lhs
  constructor
  · intro hr
    have hm : r ∈ sorted.filter fun r' => r'.lhs = r.lhs := List.mem_filter.mpr ⟨hr, by simp⟩
    rw [hf] at hm
    exact List.mem_filter.mp (List.mem_filter.mp hm).1
  · intro hr
    have hm : r ∈ (rules.filter Rule.isCatUnary).filter fun r' => r'.lhs = r.lhs :=
      List.mem_filter.mpr ⟨List.mem_filter.mpr hr, by simp⟩
    rw [← hf] at hm
    exact (List.mem_filter.mp hm).1

/-- **No rule stands behind one that takes the category it makes.** -/
theorem pairwise_sort {rules sorted : List Rule} (h : sort rules = .ok sorted) :
    sorted.Pairwise fun a b => b.lhs ≠ a.target := by
  obtain ⟨w, rfl, hw, _⟩ := exists_walk_of_sort h
  exact hw.order

/-- No unary rule rewrites a category to itself. -/
theorem lhs_ne_target_of_sort {rules sorted : List Rule} (h : sort rules = .ok sorted) {r : Rule}
    (hr : r ∈ sorted) : r.lhs ≠ r.target := by
  obtain ⟨w, rfl, hw, _⟩ := exists_walk_of_sort h
  exact hw.irrefl r hr

end UnaryOrder

end Parlance
