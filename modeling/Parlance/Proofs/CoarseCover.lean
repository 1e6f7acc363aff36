import Parlance.Proofs.CoarseReach
import Parlance.Proofs.Ranking

/-!
# `Proofs.CoarseCover` — the coverings that a coarse parse leaves

Of two parses of the same text, one goes by a coarse chart and the other does not. As long as their cells agree on
the categories that the coarse chart keeps, they cover a span in the same ways and in the same order, but for those
with a left-hand side that is not kept. A kept left-hand side is only ever made of kept categories, so that the ways
of interest take nothing from the cells on which the parses may differ.

## Contents
- **Tasks.** `Task.prunedBy`.
- **Agreement.** `Agree`, and `Tracked`, what each of the two parses keeps by itself.
- **Covered right-hand sides.** `CoversAll`, and `allows_lhs` for the left-hand sides.
- **The walk.** `coverings_agree`.
-/

namespace Parlance

open Progress

variable {α : Type}

/-! ## Lists -/

/-- Items that lead to nothing may be left out. -/
theorem flatMap_eq_flatMap_filter {β γ : Type} (keep : β → Bool) {l : List β} {f : β → List γ}
    (h : ∀ x ∈ l, keep x = false → f x = []) : l.flatMap f = (l.filter keep).flatMap f := by
  induction l with
  | nil => rfl
  | cons x l ih =>
    have hl := ih fun y hy => h y (List.mem_cons_of_mem _ hy)
    rw [List.flatMap_cons, hl, List.filter_cons]
    cases hk : keep x with
    | true => rw [if_pos rfl, List.flatMap_cons]
    | false => rw [h x List.mem_cons_self hk, List.nil_append, if_neg Bool.false_ne_true]

/-- Lists of which the items look the same lead to the same. -/
theorem flatMap_eq_flatMap {β γ δ ε : Type} {l : List β} {l' : List γ} {v : β → δ} {v' : γ → δ}
    {f : β → List ε} {f' : γ → List ε} (hl : l.map v = l'.map v')
    (h : ∀ x ∈ l, ∀ y ∈ l', v x = v' y → f x = f' y) : l.flatMap f = l'.flatMap f' := by
  induction l generalizing l' with
  | nil =>
    cases l' with
    | nil => rfl
    | cons y l' => cases hl
  | cons x l ih =>
    cases l' with
    | nil => cases hl
    | cons y l' =>
      rw [List.map_cons, List.map_cons] at hl
      injection hl with hx hl
      rw [List.flatMap_cons, List.flatMap_cons, h x List.mem_cons_self y List.mem_cons_self hx,
        ih hl fun a ha b hb => h a (List.mem_cons_of_mem _ ha) b (List.mem_cons_of_mem _ hb)]

/-! ## Tasks -/

/-- The task with a coarse chart, and with numbers of its own. -/
def Task.prunedBy (task : Task α) (kept : CoarseChart) (supply : Nat → Nat) : Task α :=
  { task with coarse := some kept, supply }

/-- A rule may be used if it may be used without the coarse chart and its left-hand side is kept. -/
theorem Task.canBuild_prunedBy {task : Task α} (hc : task.coarse = none) (kept : CoarseChart)
    (supply : Nat → Nat) (rule : Rule) (first last : Nat) :
    (task.prunedBy kept supply).canBuild rule first last =
      (task.canBuild rule first last && kept.allows rule.lhs first last) := by
  unfold Task.canBuild Task.allows
  rw [hc, Bool.and_true]
  rfl

/-! ## Agreement -/

variable [Score α]

/-- **Two parses agree on what is kept**: on the trees of each cell, and on the order of the categories. -/
structure Agree (kept : CoarseChart) (p p' : Progress α) : Prop where
  cats : ∀ f l, (p.chart.cats f l).filter (fun c => kept.allows c f l) =
    (p'.chart.cats f l).filter fun c => kept.allows c f l
  trees : ∀ f l c, kept.allows c f l = true → p.treesAt f l c = p'.treesAt f l c

/-- **What a parse keeps while a coarse chart is at hand**: its chart is sound, its derivations are in order, and
it finds nothing that the coarse parse has not found. -/
structure Progress.Tracked (found : CoarseChart) (task : Task α) (p : Progress α) : Prop where
  sound : p.Sound task
  numbered : p.Numbered task
  found : ∀ f l, ∀ c ∈ p.chart.cats f l, found.allows c f l = true

/-! ## Covered right-hand sides -/

variable {found kept : CoarseChart} {ex : Example} {first last : Nat}

/-- A symbol covers a part of a span: as the token there, or as a category over less than the whole span. -/
def CoversPart (found : CoarseChart) (ex : Example) (first last : Nat) (s : String) (i j : Nat) : Prop :=
  (found.allows s i j = true ∧ ¬(i = first ∧ j = last)) ∨ (j = i + 1 ∧ ex.token i = s)

/-- Symbols cover a part of a span from left to right. -/
def CoversAll (found : CoarseChart) (ex : Example) (first last : Nat) : List String → Nat → Nat → Prop
  | [], i, j => i = j
  | s :: rest, i, j => ∃ k, i < k ∧ CoversPart found ex first last s i k ∧ CoversAll found ex first last rest k j

theorem CoversPart.covers {s : String} {i j : Nat} (h : CoversPart found ex first last s i j) :
    found.Covers ex s i j :=
  h.imp And.left id

theorem CoversAll.append {symbols symbols' : List String} {i j k : Nat}
    (h : CoversAll found ex first last symbols i j) (h' : CoversAll found ex first last symbols' j k) :
    CoversAll found ex first last (symbols ++ symbols') i k := by
  induction symbols generalizing i with
  | nil =>
    obtain rfl : i = j := h
    exact h'
  | cons s rest ih =>
    obtain ⟨m, hm, hs, hrest⟩ := h
    exact ⟨m, hm, hs, ih hrest⟩

/-- One more symbol. -/
theorem CoversAll.concat {symbols : List String} {s : String} {i j k : Nat}
    (h : CoversAll found ex first last symbols i j) (hs : CoversPart found ex first last s j k) (hjk : j < k) :
    CoversAll found ex first last (symbols ++ [s]) i k :=
  h.append ⟨k, hjk, hs, rfl⟩

variable {rules : List Rule}

/-- **At most two symbols that cover a span**: one token, or two symbols side by side. -/
theorem CoversAll.cases {symbols : List String} (h : CoversAll found ex first last symbols first last)
    (hlen : symbols.length ≤ 2) (hf : first < last) :
    (∃ s, symbols = [s] ∧ last = first + 1 ∧ ex.token first = s) ∨
      ∃ s t mid, symbols = [s, t] ∧ first < mid ∧ mid < last ∧
        found.Covers ex s first mid ∧ found.Covers ex t mid last := by
  match symbols, h, hlen with
  | [], h, _ => exact absurd h (Nat.ne_of_lt hf)
  | [s], ⟨k, _, hs, hk⟩, _ =>
    obtain rfl : k = last := hk
    exact Or.inl ⟨s, rfl, hs.resolve_left fun h => h.2 ⟨rfl, rfl⟩⟩
  | [s, t], ⟨mid, hmid, hs, k, hk, ht, hkl⟩, _ =>
    obtain rfl : k = last := hkl
    exact Or.inr ⟨s, t, mid, rfl, hmid, hk, hs.covers, ht.covers⟩

/-- The left-hand side of a rule is found where its right-hand side covers a span. -/
theorem allows_lhs (hclosed : CoarseChart.Closed rules ex found kept) {r : Rule} (hr : r ∈ rules)
    (hu : r.isCatUnary = false) (hlen : r.rhs.length ≤ 2) (hf : first < last) (hl : last ≤ ex.length)
    (h : CoversAll found ex first last r.rhs first last) : found.allows r.lhs first last = true := by
  have hfilled := hclosed.filled first last hf hl
  rcases h.cases hlen hf with ⟨s, hrhs, hlast, htok⟩ | ⟨s, t, mid, hrhs, hm, hm', hs, ht⟩
  · refine hfilled.literal (Nat.lt_of_lt_of_le hf hl) hr hrhs ?_ hlast htok
    unfold Rule.isCatUnary at hu
    rwa [hrhs] at hu
  · exact (hfilled.pair r hr s t mid hrhs hm hm' hs ht).1.allows

/-- **A kept left-hand side is made of kept categories.** -/
theorem allows_part (hclosed : CoarseChart.Closed rules ex found kept) {r : Rule} (hr : r ∈ rules)
    (hlen : r.rhs.length ≤ 2) (hf : first < last) (hl : last ≤ ex.length)
    (hkept : kept.allows r.lhs first last = true) {path rest : List String} {cat : String} {i j : Nat}
    (hrhs : r.rhs = path ++ cat :: rest) (hpath : CoversAll found ex first last path first i)
    (hcat : found.allows cat i j = true) (hij : i < j) (hproper : ¬(i = first ∧ j = last))
    (hrest : CoversAll found ex first last rest j last) : kept.allows cat i j = true := by
  have hfilled := hclosed.filled first last hf hl
  rw [hrhs, List.length_append, List.length_cons] at hlen
  match path, rest, hpath, hrest, hlen with
  | [], [], hpath, hrest, _ => exact absurd ⟨hpath.symm, hrest⟩ hproper
  | [], [t], hpath, ⟨k, hjk, ht, hk⟩, _ =>
    obtain rfl : first = i := hpath
    obtain rfl : k = last := hk
    have hlinks := hfilled.pair r hr cat t j hrhs hij hjk (Or.inl hcat) ht.covers
    exact hclosed.follow ⟨r.lhs, first, k⟩ ⟨cat, first, j⟩ hkept hlinks.1 hcat
  | [s], [], ⟨k, hk, hs, hki⟩, hrest, _ =>
    obtain rfl : k = i := hki
    obtain rfl : j = last := hrest
    have hlinks := hfilled.pair r hr s cat k hrhs hk hij hs.covers (Or.inl hcat)
    exact hclosed.follow ⟨r.lhs, first, j⟩ ⟨cat, k, j⟩ hkept hlinks.2 hcat
  | [], _ :: _ :: _, _, _, hlen => simp only [List.length_nil, List.length_cons] at hlen; omega
  | [_], _ :: _, _, _, hlen => simp only [List.length_nil, List.length_cons] at hlen; omega
  | _ :: _ :: _, _, _, _, hlen => simp only [List.length_cons] at hlen; omega

/-! ## The walk -/

namespace BottomUp

variable {task : Task α} {p p' : Progress α} {l : List NumberedRule} {path : List String} {trie : Trie}

omit [Score α] in
/-- **The right-hand side of a covering covers the span.** -/
theorem Way.coversAll {i : Nat} {children : List Nat} {a : Application}
    (hfound : ∀ f l, ∀ c ∈ p.chart.cats f l, found.allows c f l = true)
    (h : Trie.Filed l path trie) (hi : i ≤ last) (way : Way task p.chart first last a i trie children) :
    ∃ rest, a.rule.rhs = path ++ rest ∧ CoversAll found task.ex first last rest i last := by
  induction way generalizing path with
  | ends hend ha =>
    obtain ⟨r, -, hrhs, -, rfl⟩ := exists_of_mem_endings h ha
    exact ⟨[], by rw [hrhs, List.append_nil], Nat.le_antisymm hi hend⟩
  | @token i _ _ _ hi' hnext _ ih =>
    obtain ⟨rest, hrhs, hrest⟩ := ih (h.next hnext) hi'
    refine ⟨task.ex.token i :: rest, by rw [hrhs, List.append_assoc, List.singleton_append], ?_⟩
    exact ⟨i + 1, Nat.lt_succ_self i, Or.inr ⟨rfl, rfl⟩, hrest⟩
  | @part i j _ cat _ _ _ _ hij hj hproper hentry _ hnext _ ih =>
    have hcat := hfound _ _ cat (List.mem_map_of_mem (f := (·.1)) hentry)
    obtain ⟨rest, hrhs, hrest⟩ := ih (h.next hnext) hj
    refine ⟨cat :: rest, by rw [hrhs, List.append_assoc, List.singleton_append], ?_⟩
    exact ⟨j, hij, Or.inl ⟨hcat, hproper⟩, hrest⟩

/-- The applications of which the left-hand side is kept, by the trees that they take. -/
def keptViews (kept : CoarseChart) (first last : Nat) (arena : Arena α) (l : List Application) :
    List (Composition α) :=
  (l.filter fun a => kept.allows a.rule.lhs first last).map fun a => a.over arena

theorem keptViews_append (arena : Arena α) (l l' : List Application) :
    keptViews kept first last arena (l ++ l') =
      keptViews kept first last arena l ++ keptViews kept first last arena l' := by
  unfold keptViews
  rw [List.filter_append, List.map_append]

theorem keptViews_flatMap {β : Type} (arena : Arena α) (l : List β) (f : β → List Application) :
    keptViews kept first last arena (l.flatMap f) = l.flatMap fun x => keptViews kept first last arena (f x) := by
  unfold keptViews
  rw [List.filter_flatMap, List.map_flatMap]

theorem keptViews_eq_nil (arena : Arena α) {l : List Application}
    (h : ∀ a ∈ l, kept.allows a.rule.lhs first last = false) : keptViews kept first last arena l = [] := by
  unfold keptViews
  rw [List.filter_eq_nil_iff.mpr fun a ha => by rw [h a ha]; exact Bool.false_ne_true, List.map_nil]

/-- The rules that end at a node are the same, but for those of which the left-hand side is not kept. -/
theorem keptViews_endings {supply : Nat → Nat} (hc : task.coarse = none) (trie : Trie)
    {children children' : List Nat}
    (hchildren : children.map p.arena.unfold = children'.map p'.arena.unfold) :
    keptViews kept first last p.arena (endings task first last trie children) =
      keptViews kept first last p'.arena
        (endings (task.prunedBy kept supply) first last trie children') := by
  unfold keptViews endings
  simp only [List.filter_map, List.filter_filter, List.map_map]
  have hfilter : ∀ r : NumberedRule,
      (((fun a : Application => kept.allows a.rule.lhs first last) ∘
          fun r : NumberedRule => { rule := r.rule, first, last, children }) r &&
        task.canBuild r.rule first last) =
      (((fun a : Application => kept.allows a.rule.lhs first last) ∘
          fun r : NumberedRule => { rule := r.rule, first, last, children := children' }) r &&
        (task.prunedBy kept supply).canBuild r.rule first last) := fun r => by
    rw [Task.canBuild_prunedBy hc]
    show (kept.allows r.rule.lhs first last && task.canBuild r.rule first last) =
      (kept.allows r.rule.lhs first last &&
        (task.canBuild r.rule first last && kept.allows r.rule.lhs first last))
    cases kept.allows r.rule.lhs first last <;> simp
  rw [List.filter_congr fun r _ => hfilter r]
  refine List.map_congr_left fun r _ => ?_
  show Application.over _ p.arena = Application.over _ p'.arena
  unfold Application.over
  dsimp only
  rw [hchildren]

/-- The coverings along a category that is found over a part of the span. -/
def along? (task : Task α) (chart : Chart α) (first last i j : Nat) (trie : Trie) (children : List Nat)
    (cat : String) : List Application :=
  match trie.next? cat with
  | some next => (chart.get i j cat).flatMap fun d => coverings task chart first last j next (children ++ [d])
  | none => []

/-- **A category that is not kept** leads to no left-hand side that is kept. -/
theorem keptViews_along?_eq_nil (hclosed : CoarseChart.Closed rules task.ex found kept)
    (hrules : ∀ r ∈ l, r.rule ∈ rules ∧ r.rule.rhs.length ≤ 2) (hf : first < last) (hl : last ≤ task.length)
    (hfound : ∀ f l, ∀ c ∈ p.chart.cats f l, found.allows c f l = true)
    (h : Trie.Filed l path trie) {i j : Nat} (hpath : CoversAll found task.ex first last path first i)
    (hij : i < j) (hj : j ≤ last) (hproper : ¬(i = first ∧ j = last)) (arena : Arena α)
    (children : List Nat) {cat : String} (hcat : cat ∈ p.chart.cats i j) (hkept : kept.allows cat i j = false) :
    keptViews kept first last arena (along? task p.chart first last i j trie children cat) = [] := by
  unfold along?
  cases hx : trie.next? cat with
  | none => rfl
  | some next =>
    refine keptViews_eq_nil arena fun a ha => ?_
    obtain ⟨d, -, ha⟩ := List.mem_flatMap.mp ha
    rw [Bool.eq_false_iff]
    intro hlhs
    have way := way_of_mem_coverings ha
    obtain ⟨rest, hrhs, hrest⟩ := way.coversAll hfound (h.next hx) hj
    rw [List.append_assoc, List.singleton_append] at hrhs
    obtain ⟨r, hr, he, -⟩ := way.exists_rule (h.next hx)
    obtain ⟨hmem, hlen⟩ := hrules r hr
    rw [← he] at hmem hlen
    rw [allows_part hclosed hmem hlen hf hl hlhs hrhs hpath (hfound i j cat hcat) hij hproper hrest] at hkept
    cases hkept

omit [Score α] in
/-- **One step of a walk**: past the token, or along a category that is found over a part of the span. -/
theorem coverings_of_lt {chart : Chart α} (hd : chart.Distinct) {i : Nat} (hi : i < last) {children : List Nat}
    (h : task.allowsAny trie.cats first last = true) :
    coverings task chart first last i trie children =
      (match trie.next? (task.ex.token i) with
        | some next => coverings task chart first last (i + 1) next children
        | none => []) ++
      (List.range (last - i)).flatMap fun k =>
        if i = first ∧ i + k + 1 = last then []
        else (chart.cats i (i + k + 1)).flatMap (along? task chart first last i (i + k + 1) trie children) := by
  have hgo : ¬(!true) = true := by simp
  rw [coverings, h, if_neg hgo, if_neg (Nat.not_le.mpr hi)]
  congr 1
  refine List.flatMap_congr fun k _ => ?_
  dsimp only
  rw [Chart.entries_eq_map hd, List.flatMap_map]
  rfl

/-- **A node without a left-hand side that is kept** leads to no application that is kept. -/
theorem keptViews_coverings_eq_nil {supply : Nat → Nat}
    (hfound : ∀ f l, ∀ c ∈ p.chart.cats f l, found.allows c f l = true) (h : Trie.Filed l path trie) {i : Nat}
    (hi : i ≤ last) (hany : (task.prunedBy kept supply).allowsAny trie.cats first last = false) (arena : Arena α)
    (children : List Nat) :
    keptViews kept first last arena (coverings task p.chart first last i trie children) = [] := by
  refine keptViews_eq_nil arena fun a ha => ?_
  have way := way_of_mem_coverings ha
  obtain ⟨rest, hrhs, -⟩ := way.coversAll hfound h hi
  obtain ⟨r, hr, he, -⟩ := way.exists_rule h
  have hcat : a.rule.lhs ∈ trie.cats := by
    have hcats := (h.cats [] a.rule.lhs).mpr ⟨r, hr, by rw [← he, hrhs]; simp, by rw [he]⟩
    rwa [Trie.catsAt_nil] at hcats
  rw [Bool.eq_false_iff]
  intro hlhs
  have hsome : (task.prunedBy kept supply).allowsAny trie.cats first last = true := by
    unfold Task.allowsAny
    rw [Bool.or_eq_true, List.any_eq_true]
    exact Or.inr ⟨_, hcat, hlhs⟩
  rw [hany] at hsome
  cases hsome

/-- **The walks of two parses that agree** list the same applications in the same order, but for those of which the
left-hand side is not kept. -/
theorem coverings_agree (supply : Nat → Nat) (hc : task.coarse = none)
    (hclosed : CoarseChart.Closed rules task.ex found kept)
    (hrules : ∀ r ∈ l, r.rule ∈ rules ∧ r.rule.rhs.length ≤ 2) (hf : first < last) (hl : last ≤ task.length)
    (hp : p.Tracked found task) (hp' : p'.Tracked found (task.prunedBy kept supply)) (hagree : Agree kept p p')
    (h : Trie.Filed l path trie) {i : Nat} (hi : i ≤ last)
    (hpath : CoversAll found task.ex first last path first i) (children children' : List Nat)
    (hchildren : children.map p.arena.unfold = children'.map p'.arena.unfold) :
    keptViews kept first last p.arena (coverings task p.chart first last i trie children) =
      keptViews kept first last p'.arena
        (coverings (task.prunedBy kept supply) p'.chart first last i trie children') := by
  induction hn : last - i using Nat.strongRecOn generalizing i path trie children children' with
  | ind n ih =>
    have hclosed' : CoarseChart.Closed rules (task.prunedBy kept supply).ex found kept := hclosed
    have hguard : task.allowsAny trie.cats first last = true := by
      unfold Task.allowsAny
      rw [hc]
      rfl
    cases hany : (task.prunedBy kept supply).allowsAny trie.cats first last with
    | false =>
      have hnil : coverings (task.prunedBy kept supply) p'.chart first last i trie children' = [] := by
        rw [coverings, hany]
        rfl
      rw [hnil]
      exact keptViews_coverings_eq_nil hp.found h hi hany _ children
    | true =>
      by_cases hlast : last ≤ i
      · have hgo : ¬(!true) = true := by simp
        rw [coverings, coverings, hguard, hany, if_neg hgo, if_neg hgo, if_pos hlast, if_pos hlast]
        exact keptViews_endings hc trie hchildren
      · rw [coverings_of_lt hp.sound.distinct (Nat.not_le.mp hlast) hguard,
          coverings_of_lt hp'.sound.distinct (Nat.not_le.mp hlast) hany, keptViews_append, keptViews_append,
          keptViews_flatMap, keptViews_flatMap]
        congr 1
        · -- past the token
          show keptViews kept first last p.arena (match trie.next? (task.ex.token i) with
              | some next => coverings task p.chart first last (i + 1) next children
              | none => []) =
            keptViews kept first last p'.arena (match trie.next? (task.ex.token i) with
              | some next => coverings (task.prunedBy kept supply) p'.chart first last (i + 1) next children'
              | none => [])
          cases hx : trie.next? (task.ex.token i) with
          | none => rfl
          | some next =>
            exact ih _ (by omega) (h.next hx) (by omega)
              (hpath.concat (Or.inr ⟨rfl, rfl⟩) (Nat.lt_succ_self i)) _ _ hchildren rfl
        · -- past a derivation over a part of the span
          refine List.flatMap_congr fun k hk => ?_
          rw [List.mem_range] at hk
          by_cases hw : i = first ∧ i + k + 1 = last
          · rw [if_pos hw, if_pos hw]
            rfl
          · rw [if_neg hw, if_neg hw, keptViews_flatMap, keptViews_flatMap,
              flatMap_eq_flatMap_filter fun c => kept.allows c i (i + k + 1),
              flatMap_eq_flatMap_filter (l := p'.chart.cats i (i + k + 1)) fun c =>
                kept.allows c i (i + k + 1), hagree.cats]
            · refine List.flatMap_congr fun cat hcat => ?_
              obtain ⟨hcat, hkept⟩ := List.mem_filter.mp hcat
              unfold along?
              cases hx : trie.next? cat with
              | none => rfl
              | some next =>
                dsimp only
                rw [keptViews_flatMap, keptViews_flatMap]
                refine flatMap_eq_flatMap (hagree.trees i (i + k + 1) cat hkept) fun d _ d' _ hd => ?_
                refine ih _ (by omega) (h.next hx) (by omega)
                  (hpath.concat (Or.inl ⟨hp'.found _ _ cat hcat, hw⟩) (by omega)) _ _ ?_ rfl
                rw [List.map_append, List.map_append, hchildren, List.map_singleton, List.map_singleton, hd]
            · exact fun cat hcat hkept => keptViews_along?_eq_nil hclosed' hrules hf hl hp'.found h
                hpath (by omega) (by omega) hw _ _ hcat hkept
            · exact fun cat hcat hkept => keptViews_along?_eq_nil hclosed hrules hf hl hp.found h
                hpath (by omega) (by omega) hw _ _ hcat hkept

end BottomUp

end Parlance
