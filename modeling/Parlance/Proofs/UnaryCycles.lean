import Mathlib.Data.List.Count
import Mathlib.Data.List.Perm.Subperm
import Mathlib.Logic.Relation
import Parlance.Proofs.UnaryOrder

/-!
# `Proofs.UnaryCycles` — which rules from one category to one category can be sorted

They can be sorted if and only if no category is rewritten to itself. A walk is inside of the categories that led it to
where it is, and of no others; so if it meets one of these again, it has found a cycle. As all of them have rules, they
are never more than the graph has categories, which is why a walk is never cut short. The other way round, along a cycle
each rule would stand behind the next one, and so behind itself.

## Contents
- **Walks.** `Walk.Open`, `Walk.Trail`, and `visit_trail`, what a walk through a category comes to.
- **Order.** `sort_topological`.
-/

namespace Parlance

namespace UnaryOrder

variable {rules : List Rule} {w : Walk} {cat : String} {trail : List String}

/-- Whether a rule from one category to one category rewrites the first one to the second one. -/
def Rewrites (rules : List Rule) (a b : String) : Prop :=
  ∃ r ∈ rules, r.isCatUnary = true ∧ r.lhs = a ∧ r.rhs = [b]

/-- The rules of a category in the graph rewrite it to what they take. -/
theorem rewrites_of_mem_rulesOf {r : Rule} (h : r ∈ (graph rules).rulesOf cat) : Rewrites rules cat r.target := by
  rw [rulesOf_graph, List.mem_filter, List.mem_filter] at h
  obtain ⟨⟨hr, hunary⟩, hlhs⟩ := h
  exact ⟨r, hr, hunary, of_decide_eq_true hlhs, r.rhs_of_isCatUnary hunary⟩

/-- What is rewritten has rules in the graph. -/
theorem mem_keys_of_rewrites {a b : String} (h : Rewrites rules a b) : a ∈ Table.keys (graph rules) := by
  obtain ⟨r, hr, hunary, hlhs, -⟩ := h
  refine mem_keys_of_mem_rulesOf (r := r) ?_
  rw [rulesOf_graph, List.mem_filter, List.mem_filter]
  exact ⟨⟨hr, hunary⟩, decide_eq_true hlhs⟩

/-! ## Walks -/

/-- **What a walk is inside of**: the categories that were entered and are not done. -/
def Walk.Open (w : Walk) (trail : List String) : Prop := ∀ c, w.seen.get? c = some false ↔ c ∈ trail

/-- **How a walk has come to a category**: through categories that are all different and all lead there. -/
structure Walk.Trail (rules : List Rule) (w : Walk) (trail : List String) (cat : String) : Prop where
  isOpen : w.Open trail
  nodup : trail.Nodup
  leads : ∀ c ∈ trail, Relation.TransGen (Rewrites rules) c cat

/-- Entering a category. -/
theorem Walk.Open.enter (h : w.Open trail) : Walk.Open { w with seen := w.seen.insert cat false } (cat :: trail) := by
  intro c
  by_cases hc : c = cat
  case pos =>
    subst hc
    simp [Table.insert]
  case neg =>
    rw [List.mem_cons, or_iff_right hc, ← h c]
    exact Eq.congr_left (Table.get?_update_of_ne _ hc _)

/-- Leaving it, with everything in it done. -/
theorem Walk.Open.leave (h : w.Open (cat :: trail)) (hcat : cat ∉ trail) :
    Walk.Open { w with seen := w.seen.insert cat true } trail := by
  intro c
  by_cases hc : c = cat
  case pos =>
    subst hc
    simp [Table.insert, hcat]
  case neg =>
    have hopen := h c
    rw [List.mem_cons, or_iff_right hc] at hopen
    rw [← hopen]
    exact Eq.congr_left (Table.get?_update_of_ne _ hc _)

/-- Going on from a category by one of its rules. -/
theorem Walk.Trail.next {w' : Walk} {r : Rule} (h : w.Trail rules trail cat) (hcat : cat ∉ trail)
    (hopen : w'.Open (cat :: trail)) (hr : r ∈ (graph rules).rulesOf cat) :
    w'.Trail rules (cat :: trail) r.target := by
  have hstep : Rewrites rules cat r.target := rewrites_of_mem_rulesOf hr
  refine ⟨hopen, List.nodup_cons.mpr ⟨hcat, h.nodup⟩, fun c hc => ?_⟩
  rcases List.mem_cons.mp hc with rfl | hc
  · exact .single hstep
  · exact (h.leads c hc).tail hstep

/-- A walk is inside of no more categories than there are in the graph. -/
theorem Walk.Trail.length_le (h : w.Trail rules trail cat) : trail.length ≤ Table.size (graph rules) := by
  have hkeys : trail ⊆ Table.keys (graph rules) := by
    intro c hc
    obtain ⟨b, hstep, -⟩ := Relation.TransGen.head'_iff.mp (h.leads c hc)
    exact mem_keys_of_rewrites hstep
  have hlength := (List.subperm_of_subset h.nodup hkeys).length_le
  rwa [Table.keys, List.length_map] at hlength

/-- **A walk through a category** leaves it with the walk inside of what it was inside of before, or else it has found
a cycle. It is long enough for all that it can be inside of. -/
theorem visit_trail {fuel : Nat} (h : w.Trail rules trail cat)
    (hfuel : Table.size (graph rules) < fuel + trail.length) :
    (∀ w', visit (graph rules) fuel w cat = .ok w' → w'.Open trail) ∧
      ∀ e, visit (graph rules) fuel w cat = .error e →
        ∃ c, e = .unaryCycle c ∧ Relation.TransGen (Rewrites rules) c c := by
  induction fuel generalizing w trail cat with
  | zero => exact absurd h.length_le (by omega)
  | succ fuel ih =>
    unfold visit
    split
    case h_1 hdone =>
      refine ⟨fun w' hw' => ?_, nofun⟩
      rw [← Except.ok.inj hw']
      exact h.isOpen
    case h_2 hinside =>
      refine ⟨nofun, fun e he => ⟨cat, (Except.error.inj he).symm, ?_⟩⟩
      exact h.leads cat ((h.isOpen cat).mp hinside)
    case h_3 hnew =>
      have hcat : cat ∉ trail := fun hc => by
        rw [(h.isOpen cat).mpr hc] at hnew
        cases hnew
      -- what is behind among the rules of the category does not matter, only that each of them is one of these
      have hrules : ∀ pre r post (w₁ : Walk), ((graph rules).get? cat).getD [] = pre ++ r :: post →
          w₁.Open (cat :: trail) → w₁.Trail rules (cat :: trail) r.target := by
        intro pre r post w₁ hl hopen
        have hmem : r ∈ (graph rules).rulesOf cat := by
          unfold Graph.rulesOf
          rw [hl]
          simp
        exact h.next hcat hopen hmem
      have hmore : Table.size (graph rules) < fuel + (cat :: trail).length := by
        rw [List.length_cons]
        omega
      have hfold : ∀ pre w₁, pre <+: ((graph rules).get? cat).getD [] →
          pre.foldlM (fun walk rule => do
            let walk ← visit (graph rules) fuel walk ((rule.rhs.head?).getD "")
            return { walk with sorted := walk.sorted ++ [rule] })
          { w with seen := w.seen.insert cat false } = .ok w₁ → w₁.Open (cat :: trail) := by
        rintro pre w₁ ⟨behind, hpre⟩ hok
        refine foldlM_induct (P := fun _ (w' : Walk) => w'.Open (cat :: trail)) h.isOpen.enter ?_ hok
        intro done r post v v' hl hv hstep
        obtain ⟨v₁, hvisit, hlist⟩ := bind_eq_ok.mp hstep
        have hl' : ((graph rules).get? cat).getD [] = done ++ r :: (post ++ behind) := by
          rw [← hpre, hl, List.append_assoc, List.cons_append]
        rw [← Except.ok.inj hlist]
        exact (ih (hrules done r _ v hl' hv) hmore).1 v₁ hvisit
      constructor
      · intro w' hw'
        obtain ⟨w₁, hok, hret⟩ := bind_eq_ok.mp hw'
        rw [← Except.ok.inj hret]
        exact (hfold _ w₁ List.prefix_rfl hok).leave hcat
      · intro e he
        rcases bind_eq_error.mp he with he | ⟨w₁, -, hret⟩
        · obtain ⟨pre, r, post, w₁, hl, hok, hstep⟩ := exists_of_foldlM_eq_error he
          rcases bind_eq_error.mp hstep with hvisit | ⟨w₂, -, hret⟩
          · have hopen := hfold pre w₁ ⟨r :: post, hl.symm⟩ hok
            exact (ih (hrules pre r post w₁ hl hopen) hmore).2 e hvisit
          · cases hret
        · cases hret

/-- **Sorting fails at a cycle only.** -/
theorem exists_cycle_of_sort {e : GrammarError} (h : sort rules = .error e) :
    ∃ c, e = .unaryCycle c ∧ Relation.TransGen (Rewrites rules) c c := by
  rcases bind_eq_error.mp h with h | ⟨w, -, hret⟩
  case inr => cases hret
  obtain ⟨pre, cat, post, w, -, hok, hvisit⟩ := exists_of_foldlM_eq_error h
  have hstart : ∀ {w : Walk} {cat : String}, w.Open [] → w.Trail rules [] cat :=
    fun hopen => ⟨hopen, List.nodup_nil, fun c hc => nomatch hc⟩
  have hfuel : Table.size (graph rules) < Table.size (graph rules) + 1 + ([] : List String).length :=
    Nat.lt_succ_self _
  have hopen : w.Open [] := by
    refine foldlM_induct (P := fun _ (w : Walk) => w.Open []) ?_ ?_ hok
    · intro c
      simp [Table.get?, Table.empty, Table.find]
    · intro _ c _ v v' _ hv hstep
      exact (visit_trail (hstart hv) hfuel).1 v' hstep
  exact (visit_trail (hstart hopen) hfuel).2 e hvisit

/-! ## Order -/

section Sorted

variable {sorted : List Rule}

/-- **Sorting neither adds rules nor loses any.** -/
theorem sort_perm (h : sort rules = .ok sorted) : sorted.Perm (rules.filter Rule.isCatUnary) := by
  classical
  refine List.perm_iff_count.mpr fun r => ?_
  have hcount : ∀ l : List Rule, (l.filter fun r' => r'.lhs = r.lhs).count r = l.count r :=
    fun l => List.count_filter (decide_eq_true rfl)
  rw [← hcount sorted, filter_sort h r.lhs, hcount]

/-- **A rule stands behind all rules that make the category it takes.** -/
theorem lt_of_rhs_eq (h : sort rules = .ok sorted) {i j : Nat} (hi : i < sorted.length) (hj : j < sorted.length)
    (hrhs : sorted[i].rhs = [sorted[j].lhs]) : j < i := by
  have htarget : sorted[j].lhs = sorted[i].target := by
    unfold Rule.target
    rw [hrhs]
    rfl
  rcases Nat.lt_trichotomy j i with hlt | rfl | hgt
  · exact hlt
  · exact absurd htarget (lhs_ne_target_of_sort h (List.getElem_mem hi))
  · exact absurd htarget (List.pairwise_iff_getElem.mp (pairwise_sort h) i j hi hj hgt)

/-- Along a way from one category to another, the first rule stands behind the last one, or is the same. -/
theorem exists_of_transGen (h : sort rules = .ok sorted) {a b : String} (hab : Relation.TransGen (Rewrites rules) a b) :
    ∃ i j, ∃ (hi : i < sorted.length) (hj : j < sorted.length),
      sorted[i].lhs = a ∧ sorted[j].rhs = [b] ∧ j ≤ i := by
  have hstep : ∀ {a b : String}, Rewrites rules a b →
      ∃ i, ∃ hi : i < sorted.length, sorted[i].lhs = a ∧ sorted[i].rhs = [b] := by
    rintro a b ⟨r, hr, hunary, hlhs, hrhs⟩
    obtain ⟨i, hi, rfl⟩ := List.getElem_of_mem ((mem_sort h).mpr ⟨hr, hunary⟩)
    exact ⟨i, hi, hlhs, hrhs⟩
  induction hab with
  | single hab =>
    obtain ⟨i, hi, hlhs, hrhs⟩ := hstep hab
    exact ⟨i, i, hi, hi, hlhs, hrhs, Nat.le_refl i⟩
  | tail _ hbc ih =>
    obtain ⟨i, j, hi, hj, hlhs, hrhs, hle⟩ := ih
    obtain ⟨k, hk, hlhs', hrhs'⟩ := hstep hbc
    have hlt : k < j := lt_of_rhs_eq h hj hk (hlhs' ▸ hrhs)
    exact ⟨i, k, hi, hk, hlhs, hrhs', by omega⟩

end Sorted

/-- **Sorting the rules from one category to one category.** It succeeds if and only if no category can be rewritten to
itself; where it fails, it names a category that can. The result has exactly these rules, each as often as it was there,
and each rule comes after all rules that make the category it takes. -/
theorem sort_topological (rules : List Rule) :
    ((∃ sorted, sort rules = .ok sorted) ↔ ∀ c, ¬Relation.TransGen (Rewrites rules) c c) ∧
      (∀ e, sort rules = .error e → ∃ c, e = .unaryCycle c ∧ Relation.TransGen (Rewrites rules) c c) ∧
      ∀ sorted, sort rules = .ok sorted → sorted.Perm (rules.filter Rule.isCatUnary) ∧
        ∀ i j (hi : i < sorted.length) (hj : j < sorted.length), sorted[i].rhs = [sorted[j].lhs] → j < i := by
  refine ⟨⟨?_, fun hacyclic => ?_⟩, fun e he => exists_cycle_of_sort he, fun sorted h => ⟨sort_perm h, ?_⟩⟩
  · rintro ⟨sorted, h⟩ c hcycle
    obtain ⟨i, j, hi, hj, hlhs, hrhs, hle⟩ := exists_of_transGen h hcycle
    have hlt : i < j := lt_of_rhs_eq h hj hi (hlhs ▸ hrhs)
    omega
  · cases h : sort rules with
    | ok sorted => exact ⟨sorted, rfl⟩
    | error e =>
      obtain ⟨c, -, hcycle⟩ := exists_cycle_of_sort h
      exact absurd hcycle (hacyclic c)
  · exact fun i j hi hj hrhs => lt_of_rhs_eq h hi hj hrhs

/-- Rules that share what they take, and one that is none of these. -/
def chainRules : List Rule := [
  { lhs := "$ROOT", rhs := ["$A"], sem := IdentityFn.mk.toFn },
  { lhs := "$ROOT", rhs := ["$B"], sem := IdentityFn.mk.toFn },
  { lhs := "$A", rhs := ["$B"], sem := IdentityFn.mk.toFn },
  { lhs := "$A", rhs := ["a", "$B"], sem := IdentityFn.mk.toFn },
  { lhs := "$B", rhs := ["$TOKEN"], sem := IdentityFn.mk.toFn }]

/-- One rule more, by which they go round. -/
def loopRules : List Rule := { lhs := "$B", rhs := ["$ROOT"], sem := IdentityFn.mk.toFn } :: chainRules

/-- What rules share is made before any of them takes it. -/
theorem sort_topological_sample :
    (∃ sorted, sort chainRules = .ok sorted ∧ sorted.map Rule.lhs = ["$B", "$A", "$ROOT", "$ROOT"] ∧
      sorted.Perm (chainRules.filter Rule.isCatUnary)) ∧
      (∀ c, ¬Relation.TransGen (Rewrites chainRules) c c) ∧
      ∃ c, sort loopRules = .error (.unaryCycle c) ∧ Relation.TransGen (Rewrites loopRules) c c := by
  obtain ⟨hchain, -, hsorted⟩ := sort_topological chainRules
  obtain ⟨-, hloop, -⟩ := sort_topological loopRules
  have hok : (sort chainRules).toOption.map (·.map Rule.lhs) = some ["$B", "$A", "$ROOT", "$ROOT"] := by decide
  have hfails : (sort loopRules).toOption.isNone = true := by decide
  refine ⟨?_, hchain.mp ?_, ?_⟩
  · cases h : sort chainRules with
    | error e => rw [h] at hok; cases hok
    | ok sorted =>
      rw [h] at hok
      exact ⟨sorted, rfl, Option.some.inj hok, (hsorted sorted h).1⟩
  · exact exists_eq_ok (by rw [← Option.isSome_map, hok]; rfl)
  · cases h : sort loopRules with
    | ok sorted => rw [h] at hfails; cases hfails
    | error e =>
      obtain ⟨c, rfl, hcycle⟩ := hloop e h
      exact ⟨c, rfl, hcycle⟩

end UnaryOrder

end Parlance
