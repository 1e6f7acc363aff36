import Mathlib.Algebra.GroupWithZero.Nat
import Mathlib.Algebra.Order.BigOperators.Group.List
import Mathlib.Algebra.Order.Group.Nat
import Parlance.Proofs.CoarseFill

/-!
# `Proofs.CoarseReach` — what a coarse parse keeps

The search from the root follows each category over a span once at most, and so it ends with nothing pending
before its fuel is spent. What it has reached is closed: a category over a span is reached with everything that it
was noted to be made of.

## Contents
- **Grids and tables**, read after `mapSpans` and `filter`.
- **Fuel.** `weight`, the links that the search may still follow.
- **The search.** `Reaches`, kept by each step, and so `reach_spec`.
- **Coarse parses.** `Closed`, which holds of what is found and what of it is kept.
-/

namespace Parlance

/-! ## Grids and tables -/

theorem Grid.mem_toList {β : Type} {g : Grid β} {first last : Nat} {a : β}
    (h : g.get? first last = some a) : (first, last, a) ∈ g.toList := by
  obtain ⟨row, hrow, ha⟩ := Option.bind_eq_some_iff.mp h
  refine List.mem_flatMap.mpr ⟨(row, first), ?_, List.mem_map.mpr ⟨(a, last), ?_, rfl⟩⟩
  · rw [List.mem_zipIdx_iff_getElem?, Array.getElem?_toList]
    exact hrow
  · rw [List.mem_zipIdx_iff_getElem?, Array.getElem?_toList]
    exact ha

theorem Grid.get?_mapSpans {β : Type} (g : Grid β) (f : Nat → Nat → β → β) (first last : Nat) :
    (g.mapSpans f).get? first last = (g.get? first last).map (f first last) := by
  unfold get? mapSpans
  simp only [Array.getElem?_mapIdx]
  cases g.rows[first]? with
  | none => rfl
  | some row => simp [Array.getElem?_mapIdx]

theorem Table.contains_filter {β : Type} (t : Table β) (keep : String → Bool) (key : String) :
    (t.filter fun k _ => keep k).contains key = (t.contains key && keep key) := by
  rw [Bool.eq_iff_iff, Bool.and_eq_true, contains_iff, contains_iff]
  unfold keys filter
  rw [List.mem_map, List.mem_map]
  constructor
  · rintro ⟨entry, he, rfl⟩
    obtain ⟨he, hk⟩ := List.mem_filter.mp he
    exact ⟨⟨entry, he, rfl⟩, hk⟩
  · rintro ⟨⟨entry, he, rfl⟩, hk⟩
    exact ⟨entry, List.mem_filter.mpr ⟨he, hk⟩, rfl⟩

/-- A sum goes down by what one of its terms goes down by, if no term goes up. -/
theorem sum_map_add_le {β : Type} {f g : β → Nat} {l : List β} {k : Nat} {x : β}
    (hle : ∀ y, f y ≤ g y) (hx : x ∈ l) (hk : f x + k ≤ g x) : (l.map f).sum + k ≤ (l.map g).sum := by
  induction l with
  | nil => cases hx
  | cons y l ih =>
    rw [List.map_cons, List.map_cons, List.sum_cons, List.sum_cons]
    rcases List.mem_cons.mp hx with rfl | hx
    · have := List.sum_le_sum (l := l) fun y _ => hle y
      omega
    · have := ih hx
      have := hle y
      omega

namespace CoarseChart

variable {chart : CoarseChart}

/-! ## Fuel -/

/-- Whether a category is found over a span. -/
def Found (chart : CoarseChart) (span : CatSpan) : Prop := chart.allows span.cat span.first span.last = true

/-- What is found has links, if only none at all. -/
theorem found_iff_isSome {span : CatSpan} :
    chart.Found span ↔ ((chart.cell span.first span.last).get? span.cat).isSome = true := Iff.rfl

/-- The links of one cell that start at what is not reached yet. -/
def cellWeight (reached : Reached) (cell : Nat × Nat × Table (List CatSpan)) : Nat :=
  (cell.2.2.toList.map fun entry =>
    if isReached reached ⟨entry.1, cell.1, cell.2.1⟩ then 0 else entry.2.length).sum

/-- **The links that start at what is not reached yet.** -/
def weight (chart : CoarseChart) (reached : Reached) : Nat :=
  (chart.cells.toList.map (cellWeight reached)).sum

theorem weight_le_links (chart : CoarseChart) (reached : Reached) : chart.weight reached ≤ chart.links := by
  unfold weight links
  rw [List.length_flatMap]
  refine List.sum_le_sum fun cell _ => ?_
  show cellWeight reached cell ≤ (cell.2.2.toList.map (·.2)).flatten.length
  rw [List.length_flatten, List.map_map]
  refine List.sum_le_sum fun entry _ => ?_
  split
  · exact Nat.zero_le _
  · exact Nat.le_refl _

/-- A grid of what is reached that has the spans of a chart. -/
def Fits (chart : CoarseChart) (reached : Reached) : Prop :=
  ∀ f l, (reached.get? f l).isSome = true ↔ chart.HasSpan f l

/-- Nothing is reached before the search. -/
theorem isReached_replicate (n : Nat) (s : CatSpan) : isReached (.replicate n []) s = false := by
  unfold isReached
  rw [Grid.get?_replicate]
  split <;> rfl

/-- What is reached once a category over a span is noted. -/
theorem isReached_modify {reached : Reached} {span s : CatSpan}
    (h : (reached.get? span.first span.last).isSome = true) :
    isReached (reached.modify span.first span.last fun cats => span.cat :: cats) s = true ↔
      s = span ∨ isReached reached s = true := by
  obtain ⟨cats, hcats⟩ := Option.isSome_iff_exists.mp h
  obtain ⟨cat, f, l⟩ := s
  unfold isReached
  dsimp only
  by_cases he : f = span.first ∧ l = span.last
  · obtain ⟨rfl, rfl⟩ := he
    rw [Grid.get?_modify_self, hcats]
    simp only [Option.map_some, Option.getD_some, List.contains_eq_mem, List.mem_cons, decide_eq_true_eq]
    exact or_congr_left ⟨fun h => by rw [h], fun h => congrArg CatSpan.cat h⟩
  · rw [Grid.get?_modify_of_ne _ he]
    refine ⟨Or.inr, fun h => h.elim (fun hs => absurd ?_ he) id⟩
    rw [← hs]
    exact ⟨rfl, rfl⟩

/-- What is found is over a span of the grid. -/
theorem Fits.isSome_of_found {reached : Reached} (hfit : chart.Fits reached) {span : CatSpan}
    (h : chart.Found span) : (reached.get? span.first span.last).isSome = true :=
  (hfit span.first span.last).mpr (hasSpan_of_allows h)

theorem Fits.modify {reached : Reached} (hfit : chart.Fits reached) (first last : Nat)
    (f : List String → List String) : chart.Fits (reached.modify first last f) := by
  intro g l
  rw [← hfit g l]
  by_cases he : g = first ∧ l = last
  · rw [he.1, he.2, Grid.get?_modify_self, Option.isSome_map]
  · rw [Grid.get?_modify_of_ne _ he]

/-- **Reaching something** takes its links off the weight. -/
theorem weight_modify {reached : Reached} (hfit : chart.Fits reached) {span : CatSpan}
    {children : List CatSpan} (hc : (chart.cell span.first span.last).get? span.cat = some children)
    (hn : isReached reached span = false) :
    chart.weight (reached.modify span.first span.last fun cats => span.cat :: cats) + children.length ≤
      chart.weight reached := by
  have hfound : chart.Found span := found_iff_isSome.mpr (Option.isSome_of_eq_some hc)
  have hmod := fun s => isReached_modify (s := s) (hfit.isSome_of_found hfound)
  generalize reached.modify span.first span.last (fun cats => span.cat :: cats) = reached' at hmod
  have hle : ∀ (f l : Nat) (entry : String × List CatSpan),
      (if isReached reached' ⟨entry.1, f, l⟩ then 0 else entry.2.length) ≤
        if isReached reached ⟨entry.1, f, l⟩ then 0 else entry.2.length := by
    intro f l entry
    by_cases hr : isReached reached ⟨entry.1, f, l⟩ = true
    · rw [if_pos hr, if_pos ((hmod _).mpr (Or.inr hr))]
    · rw [if_neg hr]
      split
      · exact Nat.zero_le _
      · exact Nat.le_refl _
  obtain ⟨cell, hcell⟩ := Option.isSome_iff_exists.mp (hasSpan_of_allows hfound)
  have hentry : (span.cat, children) ∈ cell.toList := by
    unfold CoarseChart.cell at hc
    rw [hcell, Option.getD_some] at hc
    exact Table.mem_of_find hc
  refine sum_map_add_le (fun _ => List.sum_le_sum fun entry _ => hle _ _ entry) (Grid.mem_toList hcell) ?_
  refine sum_map_add_le (hle span.first span.last) hentry ?_
  dsimp only
  rw [if_pos ((hmod _).mpr (Or.inl rfl)), if_neg (by rw [hn]; exact Bool.false_ne_true)]
  omega

/-! ## The search -/

/-- What is reached, and what is made of it that is neither reached nor pending. -/
def ClosedUpTo (chart : CoarseChart) (reached : Reached) (pending : List CatSpan) : Prop :=
  ∀ s t, isReached reached s = true → chart.Links s t → chart.Found t →
    isReached reached t = true ∨ t ∈ pending

/-- **What a search reaches** from what was reached and what is pending: that, and everything that it is made of. -/
structure Reaches (chart : CoarseChart) (reached : Reached) (pending : List CatSpan) (result : Reached) : Prop where
  keeps : ∀ s, isReached reached s = true → isReached result s = true
  pending : ∀ s ∈ pending, chart.Found s → isReached result s = true
  closed : chart.ClosedUpTo result []

section Steps

variable {reached result : Reached} {span : CatSpan} {pending : List CatSpan}

/-- What is reached or not found need not be pending. -/
theorem ClosedUpTo.skip (h : chart.ClosedUpTo reached (span :: pending))
    (hskip : isReached reached span = true ∨ ¬ chart.Found span) : chart.ClosedUpTo reached pending := by
  intro s t hs hl ht
  rcases h s t hs hl ht with h | h
  · exact Or.inl h
  · rcases List.mem_cons.mp h with rfl | h
    · exact Or.inl (hskip.resolve_right fun hn => hn ht)
    · exact Or.inr h

theorem Reaches.skip (h : chart.Reaches reached pending result)
    (hskip : isReached reached span = true ∨ ¬ chart.Found span) : chart.Reaches reached (span :: pending) result where
  keeps := h.keeps
  pending s hs hfound := by
    rcases List.mem_cons.mp hs with rfl | hs
    · exact h.keeps _ (hskip.resolve_right fun hn => hn hfound)
    · exact h.pending s hs hfound
  closed := h.closed

variable {children : List CatSpan} (hfit : chart.Fits reached)
  (hc : (chart.cell span.first span.last).get? span.cat = some children)
include hfit hc

/-- Once something is reached, what it is made of is pending. -/
theorem ClosedUpTo.follow (h : chart.ClosedUpTo reached (span :: pending)) :
    chart.ClosedUpTo (reached.modify span.first span.last fun cats => span.cat :: cats) (children ++ pending) := by
  have hmod := fun s => isReached_modify (s := s) (hfit.isSome_of_found (found_iff_isSome.mpr (Option.isSome_of_eq_some hc)))
  intro s t hs hl ht
  rcases (hmod s).mp hs with rfl | hs
  · obtain ⟨children', hc', hm⟩ := hl
    rw [hc] at hc'
    exact Or.inr (List.mem_append_left _ (Option.some.inj hc' ▸ hm))
  · rcases h s t hs hl ht with h | h
    · exact Or.inl ((hmod t).mpr (Or.inr h))
    · rcases List.mem_cons.mp h with rfl | h
      · exact Or.inl ((hmod _).mpr (Or.inl rfl))
      · exact Or.inr (List.mem_append_right _ h)

theorem Reaches.follow
    (h : chart.Reaches (reached.modify span.first span.last fun cats => span.cat :: cats) (children ++ pending)
      result) : chart.Reaches reached (span :: pending) result := by
  have hmod := fun s => isReached_modify (s := s) (hfit.isSome_of_found (found_iff_isSome.mpr (Option.isSome_of_eq_some hc)))
  refine ⟨fun s hs => h.keeps s ((hmod s).mpr (Or.inr hs)), fun s hs hfound => ?_, h.closed⟩
  rcases List.mem_cons.mp hs with rfl | hs
  · exact h.keeps _ ((hmod _).mpr (Or.inl rfl))
  · exact h.pending s (List.mem_append_right _ hs) hfound

end Steps

/-- **The search ends with nothing pending**, given fuel for the links that it may still follow. -/
theorem reach_spec (chart : CoarseChart) (fuel : Nat) (pending : List CatSpan) (reached : Reached)
    (hfit : chart.Fits reached) (hfuel : chart.weight reached + pending.length ≤ fuel)
    (hclosed : chart.ClosedUpTo reached pending) :
    chart.Reaches reached pending (chart.reach fuel pending reached) := by
  induction fuel generalizing pending reached with
  | zero =>
    obtain rfl : pending = [] := List.eq_nil_of_length_eq_zero (by omega)
    exact ⟨fun s h => h, by simp, hclosed⟩
  | succ fuel ih =>
    cases pending with
    | nil => exact ⟨fun s h => h, by simp, hclosed⟩
    | cons span pending =>
      rw [List.length_cons] at hfuel
      rw [reach]
      by_cases hr : isReached reached span = true
      · rw [if_pos hr]
        exact (ih pending reached hfit (by omega) (hclosed.skip (Or.inl hr))).skip (Or.inl hr)
      · rw [if_neg hr]
        cases hc : (chart.cell span.first span.last).get? span.cat with
        | none =>
          have hnot : ¬ chart.Found span := fun h => by
            rw [found_iff_isSome, hc] at h
            cases h
          exact (ih pending reached hfit (by omega) (hclosed.skip (Or.inr hnot))).skip (Or.inr hnot)
        | some children =>
          have hweight := weight_modify hfit hc (Bool.eq_false_iff.mpr hr)
          refine (ih (children ++ pending) _ (hfit.modify _ _ _) ?_ (hclosed.follow hfit hc)).follow hfit hc
          rw [List.length_append]
          omega

/-! ## Coarse parses -/

theorem allows_keepReachable (chart : CoarseChart) (cat : String) (f l : Nat) :
    chart.keepReachable.allows cat f l =
      (chart.allows cat f l && isReached chart.reachable ⟨cat, f, l⟩) := by
  unfold allows cell keepReachable
  dsimp only
  rw [Grid.get?_mapSpans]
  cases chart.cells.get? f l with
  | none => rfl
  | some cell =>
    rw [Option.map_some, Option.getD_some, Option.getD_some]
    exact Table.contains_filter cell (fun k => isReached chart.reachable ⟨k, f, l⟩) cat

/-- **What a coarse parse finds and what of it it keeps.** It finds all that the rules can make, and keeps the root
with everything that it is made of. -/
structure Closed (rules : List Rule) (ex : Example) (found kept : CoarseChart) : Prop where
  terminal : ∀ t ∈ Progress.terminals ex, found.allows t.cat t.first t.last = true
  filled : ∀ f l, f < l → l ≤ ex.length → Filled rules ex found f l
  follow : ∀ s t, kept.Found s → found.Links s t → found.Found t → kept.Found t
  root : found.Found ⟨rootCat, 0, ex.length⟩ → kept.Found ⟨rootCat, 0, ex.length⟩

theorem closed_parse {rules : List Rule} {parser : CoarseParser}
    (h : CoarseParser.ofRules rules = .ok parser) (ex : Example) :
    Closed rules ex ((seed ex.length).fill parser ex) (parser.parse ex) := by
  obtain ⟨hlen, hspan, hterminal⟩ := seed_spec ex
  obtain ⟨hext, hfilled⟩ := filled_fill (isParserOf_ofRules h) hlen fun f l hf hl =>
    (hspan f l).mpr ⟨by omega, hl⟩
  unfold CoarseParser.parse
  generalize (seed ex.length).fill parser ex = found at hext hfilled
  have hn : found.length = ex.length := hext.length.trans hlen
  have hfit : found.Fits (.replicate found.length []) := by
    intro f l
    rw [hext.hasSpan, hspan, hn, Grid.get?_replicate]
    split
    case isTrue h => exact iff_of_true rfl h
    case isFalse h => exact iff_of_false (by simp) h
  have hreach := found.reach_spec (found.links + 1) [⟨rootCat, 0, found.length⟩] (.replicate found.length []) hfit
    (by
      have := weight_le_links found (.replicate found.length [])
      rw [List.length_singleton]
      omega)
    (fun s t hs => by rw [isReached_replicate] at hs; cases hs)
  refine ⟨fun t ht => hext.allows _ _ _ (hterminal t ht), hfilled, ?_, ?_⟩
  · intro s t hs hl ht
    unfold Found at hs ht ⊢
    rw [allows_keepReachable, Bool.and_eq_true] at hs ⊢
    exact ⟨ht, (hreach.closed s t hs.2 hl ht).resolve_right List.not_mem_nil⟩
  · intro hfound
    unfold Found
    rw [allows_keepReachable, Bool.and_eq_true]
    refine ⟨hfound, ?_⟩
    rw [← hn] at hfound ⊢
    exact hreach.pending _ List.mem_cons_self hfound

end CoarseChart

end Parlance
