import Parlance.Proofs.CoarseReach
import Parlance.Proofs.Completeness

/-!
# `Proofs.Recognition` — a coarse chart is exact

A coarse parse knows nothing of meanings. The trees that it is about are those of a recognizer: a node is a category
over a span, and says only which rule takes which parts to it. What is found bottom up is what has such a tree, and
what is kept top down is what some tree of the root over the whole text has for a node. Nothing is lost, and nothing
is kept without need.

## Contents
- **Trees.** `Recognition`, a tree over a span, and its `nodes`; `exists_graft` puts a tree in the place of a node.
- **Bottom up.** `Backed`: all that a chart has stands in trees. `Backed.fill`: so it is with a filled chart.
- **Top down.** `of_isReached`, what the search from the root can reach.
- **No loss.** `Recognition.found` and `Recognition.kept`.
- **Both.** `CoarseParser.allows_parse_iff`.
-/

namespace Parlance

/-! ## Trees -/

mutual
/-- **A tree of a recognizer** over a span: how a category comes to cover it. -/
inductive Recognition (rules : List Rule) (ex : Example) : CatSpan → Type where
  /-- A token or a phrase of the text, as it is or as lemmas. -/
  | builtin (t : Progress.Terminal) (mem : t ∈ Progress.terminals ex) : Recognition rules ex ⟨t.cat, t.first, t.last⟩
  /-- A rule that spells out the phrase. -/
  | literal (r : Rule) (mem : r ∈ rules) (text : String) (rhs : r.rhs = [text]) (word : isCat text = false)
    (first last : Nat) (proper : first < last) (inside : last ≤ ex.length) (phrase : ex.info.phrase first last = text) :
    Recognition rules ex ⟨r.lhs, first, last⟩
  /-- A rule without a right-hand side, over a phrase without characters. -/
  | silent (r : Rule) (mem : r ∈ rules) (rhs : r.rhs = []) (first last : Nat) (proper : first < last)
    (inside : last ≤ ex.length) (phrase : ex.info.phrase first last = "") : Recognition rules ex ⟨r.lhs, first, last⟩
  /-- A rule from one category to another one. -/
  | unary (r : Rule) (mem : r ∈ rules) (cat : String) (rhs : r.rhs = [cat]) (isCat : isCat cat = true)
    (first last : Nat) (part : Recognition rules ex ⟨cat, first, last⟩) : Recognition rules ex ⟨r.lhs, first, last⟩
  /-- A rule of two symbols over two parts of the span. -/
  | pair (r : Rule) (mem : r ∈ rules) (left right : String) (rhs : r.rhs = [left, right]) (first mid last : Nat)
    (onLeft : Side rules ex ⟨left, first, mid⟩) (onRight : Side rules ex ⟨right, mid, last⟩) :
    Recognition rules ex ⟨r.lhs, first, last⟩
/-- One side of a pair: a category with its tree, or a token that stands for itself. -/
inductive Side (rules : List Rule) (ex : Example) : CatSpan → Type where
  | node {span : CatSpan} (tree : Recognition rules ex span) : Side rules ex span
  | word (i : Nat) (inside : i < ex.length) : Side rules ex ⟨ex.token i, i, i + 1⟩
end

variable {rules : List Rule} {ex : Example}

mutual
/-- The categories over spans that a tree is made of, itself first. -/
def Recognition.nodes {span : CatSpan} (tree : Recognition rules ex span) : List CatSpan :=
  match tree with
  | .builtin .. => [span]
  | .literal .. => [span]
  | .silent .. => [span]
  | .unary _ _ _ _ _ _ _ part => span :: part.nodes
  | .pair _ _ _ _ _ _ _ _ onLeft onRight => span :: (onLeft.nodes ++ onRight.nodes)
/-- The categories over spans in one side of a pair; a token is none. -/
def Side.nodes {span : CatSpan} (side : Side rules ex span) : List CatSpan :=
  match side with
  | .node tree => tree.nodes
  | .word .. => []
end

theorem Recognition.mem_nodes_self {s : CatSpan} (tree : Recognition rules ex s) : s ∈ tree.nodes := by
  cases tree <;> exact List.mem_cons_self

mutual
/-- Trees stand over spans of the text that are not empty. -/
theorem Recognition.proper : ∀ {s : CatSpan}, Recognition rules ex s → s.first < s.last ∧ s.last ≤ ex.length
  | _, .builtin _ mem => ⟨(mem_terminals mem).1, (mem_terminals mem).2.1⟩
  | _, .literal _ _ _ _ _ _ _ proper inside _ => ⟨proper, inside⟩
  | _, .silent _ _ _ _ _ proper inside _ => ⟨proper, inside⟩
  | _, .unary _ _ _ _ _ _ _ part => by
    have hpart := Recognition.proper part
    exact hpart
  | _, .pair _ _ _ _ _ _ _ _ onLeft onRight => by
    have hleft := Side.proper onLeft
    have hright := Side.proper onRight
    exact ⟨hleft.1.trans hright.1, hright.2⟩
theorem Side.proper : ∀ {s : CatSpan}, Side rules ex s → s.first < s.last ∧ s.last ≤ ex.length
  | _, .node tree => Recognition.proper tree
  | _, .word i inside => ⟨Nat.lt_succ_self i, inside⟩
end

mutual
/-- **A tree in the place of a node** of another tree. -/
theorem Recognition.exists_graft {s : CatSpan} (part : Recognition rules ex s) :
    ∀ {t : CatSpan} (tree : Recognition rules ex t), s ∈ tree.nodes →
      ∃ tree' : Recognition rules ex t, part.nodes ⊆ tree'.nodes
  | _, .builtin _ _, hs => by
    obtain rfl := List.mem_singleton.mp hs
    exact ⟨part, List.Subset.refl _⟩
  | _, .literal _ _ _ _ _ _ _ _ _ _, hs => by
    obtain rfl := List.mem_singleton.mp hs
    exact ⟨part, List.Subset.refl _⟩
  | _, .silent _ _ _ _ _ _ _ _, hs => by
    obtain rfl := List.mem_singleton.mp hs
    exact ⟨part, List.Subset.refl _⟩
  | _, .unary r mem cat rhs hcat first last below, hs => by
    rcases List.mem_cons.mp hs with rfl | hs
    · exact ⟨part, List.Subset.refl _⟩
    · obtain ⟨below', hsub⟩ := Recognition.exists_graft part below hs
      exact ⟨.unary r mem cat rhs hcat first last below', List.subset_cons_of_subset _ hsub⟩
  | _, .pair r mem left right rhs first mid last onLeft onRight, hs => by
    rcases List.mem_cons.mp hs with rfl | hs
    · exact ⟨part, List.Subset.refl _⟩
    rcases List.mem_append.mp hs with hs | hs
    · obtain ⟨onLeft', hsub⟩ := Side.exists_graft part onLeft hs
      refine ⟨.pair r mem left right rhs first mid last onLeft' onRight, ?_⟩
      exact List.subset_cons_of_subset _ (List.subset_append_of_subset_left _ hsub)
    · obtain ⟨onRight', hsub⟩ := Side.exists_graft part onRight hs
      refine ⟨.pair r mem left right rhs first mid last onLeft onRight', ?_⟩
      exact List.subset_cons_of_subset _ (List.subset_append_of_subset_right _ hsub)
theorem Side.exists_graft {s : CatSpan} (part : Recognition rules ex s) :
    ∀ {t : CatSpan} (side : Side rules ex t), s ∈ side.nodes →
      ∃ side' : Side rules ex t, part.nodes ⊆ side'.nodes
  | _, .node tree, hs => by
    obtain ⟨tree', hsub⟩ := Recognition.exists_graft part tree hs
    exact ⟨.node tree', hsub⟩
  | _, .word _ _, hs => by cases hs
end

/-! ## Bottom up -/

namespace CoarseChart

variable {chart c d : CoarseChart} {first mid last : Nat}

/-- Adding to a cell that is not there changes nothing that is found. -/
theorem cell_add_of_not_hasSpan (hs : ¬ chart.HasSpan first last) (cat : String) (children : List CatSpan) (f l : Nat) :
    (chart.add cat first last children).cell f l = chart.cell f l := by
  by_cases he : f = first ∧ l = last
  · obtain ⟨rfl, rfl⟩ := he
    have hnone : chart.cells.get? f l = none := Option.not_isSome_iff_eq_none.mp hs
    simp only [cell, add, Grid.get?_modify_self, hnone, Option.map_none]
  · exact cell_add_of_ne chart he cat children

/-- What is found after an addition. -/
theorem found_or_eq_of_add {s : CatSpan} {cat : String} {children : List CatSpan}
    (h : (chart.add cat first last children).Found s) : chart.Found s ∨ s = ⟨cat, first, last⟩ := by
  by_cases hs : chart.HasSpan first last
  · rcases (allows_add_iff hs).mp h with h | he
    · exact Or.inl h
    · obtain ⟨_, _, _⟩ := s
      obtain ⟨rfl, rfl, rfl⟩ := he
      exact Or.inr rfl
  · unfold Found allows at h ⊢
    rw [cell_add_of_not_hasSpan hs] at h
    exact Or.inl h

/-- What is linked after an addition. -/
theorem links_or_eq_of_add {s t : CatSpan} {cat : String} {children : List CatSpan}
    (h : (chart.add cat first last children).Links s t) :
    chart.Links s t ∨ (s = ⟨cat, first, last⟩ ∧ t ∈ children) := by
  by_cases hs : chart.HasSpan first last
  · obtain ⟨all, hall, ht⟩ := h
    obtain ⟨scat, f, l⟩ := s
    dsimp only at hall
    by_cases he : f = first ∧ l = last
    · obtain ⟨rfl, rfl⟩ := he
      rw [cell_add_self hs] at hall
      by_cases hcat : scat = cat
      · subst hcat
        rw [Table.get?_update_self] at hall
        obtain rfl := Option.some.inj hall
        rcases List.mem_append.mp ht with ht | ht
        · cases hold : (chart.cell f l).get? scat with
          | none =>
            rw [hold] at ht
            cases ht
          | some old =>
            rw [hold] at ht
            exact Or.inl ⟨old, hold, ht⟩
        · exact Or.inr ⟨rfl, ht⟩
      · rw [Table.get?_update_of_ne _ hcat] at hall
        exact Or.inl ⟨all, hall, ht⟩
    · rw [cell_add_of_ne chart he] at hall
      exact Or.inl ⟨all, hall, ht⟩
  · unfold Links at h ⊢
    rw [cell_add_of_not_hasSpan hs] at h
    exact Or.inl h

/-- **All that a chart has stands in trees.** What is found has a tree, and a link to what has a tree is one from a
tree to one of its nodes. -/
structure Backed (rules : List Rule) (ex : Example) (chart : CoarseChart) : Prop where
  found : ∀ s, chart.Found s → Nonempty (Recognition rules ex s)
  links : ∀ s t, chart.Links s t → Nonempty (Recognition rules ex t) →
    ∃ tree : Recognition rules ex s, t ∈ tree.nodes

/-- **An addition** is backed by a tree that has what it links to among its nodes. -/
theorem Backed.add (h : Backed rules ex chart) {cat : String} {children : List CatSpan}
    (htree : Nonempty (Recognition rules ex ⟨cat, first, last⟩))
    (hchildren : ∀ t ∈ children, Nonempty (Recognition rules ex t) →
      ∃ tree : Recognition rules ex ⟨cat, first, last⟩, t ∈ tree.nodes) :
    Backed rules ex (chart.add cat first last children) where
  found s hs := by
    rcases found_or_eq_of_add hs with hs | rfl
    · exact h.found s hs
    · exact htree
  links s t hst ht := by
    rcases links_or_eq_of_add hst with hst | ⟨rfl, hmem⟩
    · exact h.links s t hst ht
    · exact hchildren t hmem ht

/-- What is looked at on one side of a pair is a side indeed. -/
theorem Backed.side (h : Backed rules ex chart) {symbol : String} (hsymbol : symbol ∈ chart.sideSymbols ex first last)
    (hfirst : first < ex.length) : Nonempty (Side rules ex ⟨symbol, first, last⟩) := by
  unfold sideSymbols at hsymbol
  rcases List.mem_append.mp hsymbol with hkey | hword
  · obtain ⟨tree⟩ := h.found ⟨symbol, first, last⟩ (allows_iff.mpr hkey)
    exact ⟨.node tree⟩
  · split at hword
    case isTrue hone =>
      obtain rfl : last = first + 1 := by omega
      rw [phrase_token hfirst, List.mem_singleton] at hword
      exact hword ▸ ⟨.word first hfirst⟩
    case isFalse => cases hword

/-- A pair that is there after an addition was there or is the one that was added. -/
theorem makesPair_or_eq {pairs : Table (Table (List String))} {a b lhs left right cat : String}
    (h : MakesPair (CoarseParser.addPair pairs a b lhs) left right cat) :
    MakesPair pairs left right cat ∨ (left = a ∧ right = b ∧ cat = lhs) := by
  obtain ⟨byRight, hget, hcat⟩ := h
  unfold CoarseParser.addPair at hget
  by_cases ha : left = a
  · subst ha
    rw [Table.get?_update_self] at hget
    obtain rfl := Option.some.inj hget
    -- the categories of the left symbol before the addition, if there were any
    have hold : ∀ {r : String}, cat ∈ (((pairs.get? left).getD .empty).get? r).getD [] →
        MakesPair pairs left r cat := by
      intro r hr
      cases hp : pairs.get? left with
      | none =>
        rw [hp] at hr
        cases hr
      | some old =>
        rw [hp] at hr
        exact ⟨old, hp, hr⟩
    by_cases hb : right = b
    · subst hb
      rw [Table.get?_update_self, Option.getD_some] at hcat
      dsimp only at hcat
      split at hcat
      · exact Or.inl (hold hcat)
      · rcases List.mem_append.mp hcat with hcat | hcat
        · exact Or.inl (hold hcat)
        · exact Or.inr ⟨rfl, rfl, List.mem_singleton.mp hcat⟩
    · rw [Table.get?_update_of_ne _ hb] at hcat
      exact Or.inl (hold hcat)
  · rw [Table.get?_update_of_ne _ ha] at hget
    exact Or.inl ⟨byRight, hget, hcat⟩

/-- The pairs of a list come from its rules. -/
theorem exists_of_makesPair {left right cat : String} (h : MakesPair (CoarseParser.pairsOf rules) left right cat) :
    ∃ r ∈ rules, r.rhs = [left, right] ∧ r.lhs = cat := by
  refine foldl_induct
    (P := fun pre pairs => MakesPair pairs left right cat → ∃ r ∈ pre, r.rhs = [left, right] ∧ r.lhs = cat)
    rules (Table.empty : Table (Table (List String))) ?_ ?_ h
  · rintro ⟨byRight, hget, -⟩
    cases hget
  · intro pre x post pairs _ hp hmake
    have hpre : MakesPair pairs left right cat → ∃ r ∈ pre ++ [x], r.rhs = [left, right] ∧ r.lhs = cat := by
      intro hm
      obtain ⟨r, hr, hrule⟩ := hp hm
      exact ⟨r, List.mem_append_left _ hr, hrule⟩
    split at hmake
    · rename_i a b hrhs
      rcases makesPair_or_eq hmake with hm | ⟨rfl, rfl, rfl⟩
      · exact hpre hm
      · exact ⟨x, List.mem_append_right _ List.mem_cons_self, hrhs, rfl⟩
    · exact hpre hmake

/-- A pair of sides is a tree, with what has trees on either side for nodes. -/
theorem exists_pair {r : Rule} (hr : r ∈ rules) {left right : String} (hrhs : r.rhs = [left, right])
    (onLeft : Side rules ex ⟨left, first, mid⟩) (onRight : Side rules ex ⟨right, mid, last⟩) :
    ∀ t ∈ [CatSpan.mk left first mid, CatSpan.mk right mid last], Nonempty (Recognition rules ex t) →
      ∃ tree : Recognition rules ex ⟨r.lhs, first, last⟩, t ∈ tree.nodes := by
  intro t ht htree
  obtain ⟨tree⟩ := htree
  -- the side is taken for a category even if it is looked at as a token
  rcases List.mem_pair.mp ht with rfl | rfl
  · refine ⟨.pair r hr left right hrhs first mid last (.node tree) onRight, List.mem_cons_of_mem _ ?_⟩
    exact List.mem_append_left _ tree.mem_nodes_self
  · refine ⟨.pair r hr left right hrhs first mid last onLeft (.node tree), List.mem_cons_of_mem _ ?_⟩
    exact List.mem_append_right _ tree.mem_nodes_self

/-- **Adding pairs** keeps a chart backed. -/
theorem Backed.addPairs {parser : CoarseParser} (hparser : IsParserOf parser rules) (h : Backed rules ex c)
    (hf : first < ex.length) (hm : mid < ex.length) : Backed rules ex (c.addPairs parser ex first mid last) := by
  unfold CoarseChart.addPairs
  apply List.foldlRecOn _ _ h
  intro d hd left hleft
  obtain ⟨onLeft⟩ := h.side hleft hf
  split
  · exact hd
  rename_i byRight hby
  apply List.foldlRecOn _ _ hd
  intro d hd right hright
  obtain ⟨onRight⟩ := h.side hright hm
  apply List.foldlRecOn _ _ hd
  intro d hd cat hcat
  have hmake : MakesPair (CoarseParser.pairsOf rules) left right cat := by
    rw [← hparser.pairs]
    exact ⟨byRight, hby, hcat⟩
  obtain ⟨r, hr, hrhs, rfl⟩ := exists_of_makesPair hmake
  apply hd.add
  · exact ⟨.pair r hr left right hrhs first mid last onLeft onRight⟩
  · exact exists_pair hr hrhs onLeft onRight

/-- A rule that spells the phrase of a span has a tree over the span. -/
theorem Backed.addSpelled {parser : CoarseParser} (hparser : IsParserOf parser rules) (h : Backed rules ex c)
    (hf : first < last) (hl : last ≤ ex.length) {r : Rule} (hr : r ∈ parser.literals) :
    Backed rules ex (CoarseChart.addSpelled (ex.info.phrase first last) first last c r) := by
  unfold CoarseChart.addSpelled
  split
  case isFalse => exact h
  case isTrue hphrase =>
    apply h.add _ (by simp)
    rw [hparser.literals, List.mem_filter, Bool.and_eq_true] at hr
    obtain ⟨hr, hcat, htwo⟩ := hr
    have hlength := hparser.length r hr
    -- without a right-hand side or with a single symbol in it, which is no category
    match hrhs : r.rhs with
    | [] =>
      rw [hrhs] at hphrase
      exact ⟨.silent r hr hrhs first last hf hl (beq_iff_eq.mp hphrase).symm⟩
    | [text] =>
      rw [hrhs, String.intercalate_singleton] at hphrase
      have hword : isCat text = false := by simpa [Rule.isCatUnary, hrhs] using hcat
      exact ⟨.literal r hr text hrhs hword first last hf hl (beq_iff_eq.mp hphrase).symm⟩
    | _ :: _ :: _ =>
      simp only [hrhs, List.length_cons, bne_iff_ne] at htwo hlength
      omega

/-- A tree of the category that a rule takes is one of its left-hand side with a node more. -/
theorem Backed.addFollowing {parser : CoarseParser} (hparser : IsParserOf parser rules) (h : Backed rules ex c)
    {r : Rule} (hr : r ∈ parser.unaries) : Backed rules ex (CoarseChart.addFollowing first last c r) := by
  obtain ⟨hr, hunary⟩ := (UnaryOrder.mem_sort hparser.unaries).mp hr
  have hrhs := Rule.rhs_of_isCatUnary hunary
  have hunaryOf : ∀ part : Recognition rules ex ⟨r.target, first, last⟩,
      ∃ tree : Recognition rules ex ⟨r.lhs, first, last⟩, ⟨r.target, first, last⟩ ∈ tree.nodes := by
    intro part
    exact ⟨.unary r hr r.target hrhs (Rule.isCat_target hunary) first last part,
      List.mem_cons_of_mem _ part.mem_nodes_self⟩
  unfold CoarseChart.addFollowing
  split
  case isFalse => exact h
  case isTrue hfound =>
    obtain ⟨part⟩ := h.found ⟨r.target, first, last⟩ hfound
    apply h.add
    · exact ⟨(hunaryOf part).choose⟩
    · intro t ht htree
      obtain rfl := List.mem_singleton.mp ht
      exact hunaryOf htree.some

/-- **Adding unary rules** keeps a chart backed. -/
theorem Backed.addUnary {parser : CoarseParser} (hparser : IsParserOf parser rules) (h : Backed rules ex c)
    (hf : first < last) (hl : last ≤ ex.length) : Backed rules ex (c.addUnary parser ex first last) := by
  show Backed rules ex (parser.unaries.foldl (CoarseChart.addFollowing first last)
    (parser.literals.foldl (CoarseChart.addSpelled (ex.info.phrase first last) first last) c))
  apply List.foldlRecOn
  · exact List.foldlRecOn _ _ h fun d hd r hr => hd.addSpelled hparser hf hl hr
  · exact fun d hd r hr => hd.addFollowing hparser hr

/-- **A filled chart** is backed if it was before it was filled. -/
theorem Backed.fill {parser : CoarseParser} (hparser : IsParserOf parser rules) (h : Backed rules ex c)
    (hlen : c.length = ex.length) : Backed rules ex (c.fill parser ex) := by
  unfold CoarseChart.fill
  apply List.foldlRecOn _ _ h
  rintro d hd ⟨first, last⟩ hspan
  obtain ⟨hf, hl⟩ := mem_spansByLength.mp hspan
  rw [hlen] at hl
  refine Backed.addUnary hparser ?_ hf hl
  unfold addBinary
  apply List.foldlRecOn _ _ hd
  intro e he mid hmid
  rw [List.mem_range'_1] at hmid
  exact he.addPairs hparser (by omega) (by omega)

/-- **The chart at the start** is backed by the tokens and phrases of the text. -/
theorem backed_seed (rules : List Rule) (ex : Example) : Backed rules ex (seed ex.length) := by
  have hterminal : ∀ {d : CoarseChart} {cat : String} {f l : Nat} (text canonical : String), Backed rules ex d →
      ⟨cat, f, l, text, canonical⟩ ∈ Progress.terminals ex → Backed rules ex (d.add cat f l []) := by
    intro d cat f l text canonical hd ht
    exact hd.add ⟨.builtin _ ht⟩ (by simp)
  unfold seed
  apply List.foldlRecOn
  · apply List.foldlRecOn
    · -- nothing is found in the empty chart
      have hempty : ∀ f l, CoarseChart.cell { length := ex.length, cells := .replicate ex.length .empty } f l =
          .empty := by
        intro f l
        unfold cell
        rw [Grid.get?_replicate]
        split <;> rfl
      constructor
      · intro s hs
        unfold Found allows at hs
        rw [hempty] at hs
        cases hs
      · rintro s t ⟨children, hchildren, -⟩
        rw [hempty] at hchildren
        cases hchildren
    · intro d hd i hi
      have hmem : ∀ t ∈ [Progress.Terminal.mk tokenCat i (i + 1) (ex.token i) (ex.token i),
          ⟨lemmaTokenCat, i, i + 1, ex.lemmaAt i, ex.token i⟩], t ∈ Progress.terminals ex := fun t ht =>
        List.mem_append_left _ (List.mem_flatMap.mpr ⟨i, hi, ht⟩)
      apply hterminal _ _ (hterminal _ _ hd (hmem _ List.mem_cons_self))
      exact hmem _ (List.mem_cons_of_mem _ List.mem_cons_self)
  · rintro d hd ⟨first, last⟩ hspan
    have hmem : ∀ t ∈ [Progress.Terminal.mk phraseCat first last (ex.info.phrase first last)
        (ex.info.phrase first last), ⟨lemmaPhraseCat, first, last, ex.info.lemmaPhrase first last,
        ex.info.phrase first last⟩], t ∈ Progress.terminals ex := fun t ht =>
      List.mem_append_right _ (List.mem_flatMap.mpr ⟨(first, last), hspan, ht⟩)
    apply hterminal _ _ (hterminal _ _ hd (hmem _ List.mem_cons_self))
    exact hmem _ (List.mem_cons_of_mem _ List.mem_cons_self)

/-! ## Top down -/

/-- What is reached after something was noted was reached before, or is what was noted. -/
theorem eq_or_isReached_of_modify {reached : Reached} {span s : CatSpan}
    (h : isReached (reached.modify span.first span.last fun cats => span.cat :: cats) s = true) :
    s = span ∨ isReached reached s = true := by
  by_cases hspan : (reached.get? span.first span.last).isSome = true
  · exact (isReached_modify hspan).mp h
  · -- there is no cell to note it in
    have hnone := Option.not_isSome_iff_eq_none.mp hspan
    right
    unfold isReached at h ⊢
    by_cases he : s.first = span.first ∧ s.last = span.last
    · rw [he.1, he.2, Grid.get?_modify_self, hnone] at h
      cases h
    · rwa [Grid.get?_modify_of_ne _ he] at h

/-- **What the search reaches** has every property that what is pending has and that links pass on. -/
theorem of_isReached {P : CatSpan → Prop} (hstep : ∀ s t, P s → chart.Links s t → chart.Found t → P t) (fuel : Nat)
    (pending : List CatSpan) (reached : Reached) (hpending : ∀ s ∈ pending, chart.Found s → P s)
    (hreached : ∀ s, isReached reached s = true → P s) :
    ∀ s, isReached (chart.reach fuel pending reached) s = true → P s := by
  induction fuel generalizing pending reached with
  | zero => exact hreached
  | succ fuel ih =>
    cases pending with
    | nil => exact hreached
    | cons span pending =>
      have hrest : ∀ s ∈ pending, chart.Found s → P s := fun s hs => hpending s (List.mem_cons_of_mem _ hs)
      rw [reach]
      split
      case isTrue => exact ih pending reached hrest hreached
      case isFalse =>
        split
        case h_1 => exact ih pending reached hrest hreached
        case h_2 children hchildren =>
          have hfound : chart.Found span := found_iff_isSome.mpr (Option.isSome_of_eq_some hchildren)
          have hspan : P span := hpending span List.mem_cons_self hfound
          apply ih
          · intro s hs hsfound
            rcases List.mem_append.mp hs with hs | hs
            · exact hstep span s hspan ⟨children, hchildren, hs⟩ hsfound
            · exact hrest s hs hsfound
          · intro s hs
            rcases eq_or_isReached_of_modify hs with rfl | hs
            · exact hspan
            · exact hreached s hs

/-- **What is kept of a chart that is backed** is a node of a tree of the root. -/
theorem Backed.exists_root (h : Backed rules ex chart) (hlen : chart.length = ex.length) {s : CatSpan}
    (hs : chart.keepReachable.Found s) :
    ∃ tree : Recognition rules ex ⟨rootCat, 0, ex.length⟩, s ∈ tree.nodes := by
  unfold Found at hs
  rw [allows_keepReachable, Bool.and_eq_true] at hs
  refine of_isReached (P := fun s => ∃ tree : Recognition rules ex ⟨rootCat, 0, ex.length⟩, s ∈ tree.nodes)
    ?_ _ _ _ ?_ ?_ s hs.2
  · -- a link is a node of some tree over its start, and that tree is put in the place of the start
    rintro s t ⟨tree, hmem⟩ hlink hfound
    obtain ⟨part, hpart⟩ := h.links s t hlink (h.found t hfound)
    obtain ⟨tree', hsub⟩ := Recognition.exists_graft part tree hmem
    exact ⟨tree', hsub hpart⟩
  · intro s hmem hfound
    obtain rfl := List.mem_singleton.mp hmem
    rw [hlen] at hfound ⊢
    obtain ⟨tree⟩ := h.found _ hfound
    exact ⟨tree, tree.mem_nodes_self⟩
  · intro s hreached
    rw [isReached_replicate] at hreached
    cases hreached

end CoarseChart

/-! ## No loss -/

variable {found kept : CoarseChart}

/-- What a category makes is linked to it, if the category is found where it has a tree. -/
theorem CoarseChart.Closed.links_unary (hclosed : CoarseChart.Closed rules ex found kept) {r : Rule} (mem : r ∈ rules)
    {cat : String} (rhs : r.rhs = [cat]) (hcat : isCat cat = true) {first last : Nat}
    (part : Recognition rules ex ⟨cat, first, last⟩) (hpart : found.Found ⟨cat, first, last⟩) :
    found.Links ⟨r.lhs, first, last⟩ ⟨cat, first, last⟩ := by
  have hproper := Recognition.proper part
  have htarget : r.target = cat := by simp [Rule.target, rhs]
  have hunary : r.isCatUnary = true := by simpa [Rule.isCatUnary, rhs] using hcat
  have hlinks := (hclosed.filled first last hproper.1 hproper.2).unary r mem hunary (htarget ▸ hpart)
  rwa [htarget] at hlinks

/-- What two sides make is linked to both. They are shorter than the span, and so were found before it was filled. -/
theorem CoarseChart.Closed.links_pair (hclosed : CoarseChart.Closed rules ex found kept) {r : Rule} (mem : r ∈ rules)
    {left right : String} (rhs : r.rhs = [left, right]) {first mid last : Nat} (onLeft : Side rules ex ⟨left, first, mid⟩)
    (onRight : Side rules ex ⟨right, mid, last⟩) (hleft : found.Covers ex left first mid)
    (hright : found.Covers ex right mid last) : found.LinksPair r.lhs left right first mid last := by
  have hl := Side.proper onLeft
  have hr := Side.proper onRight
  exact (hclosed.filled first last (hl.1.trans hr.1) hr.2).pair r mem left right mid rhs hl.1 hr.1 hleft hright

mutual
/-- What has a tree is found. -/
theorem Recognition.found (hclosed : CoarseChart.Closed rules ex found kept) :
    ∀ {s : CatSpan}, Recognition rules ex s → found.Found s
  | _, .builtin t mem => hclosed.terminal t mem
  | _, .literal r mem text rhs word first last proper inside phrase => by
    apply (hclosed.filled first last proper inside).spelled r mem
    · simpa [Rule.isCatUnary, rhs] using word
    · simp [rhs]
    · rw [rhs, String.intercalate_singleton, phrase]
  | _, .silent r mem rhs first last proper inside phrase => by
    apply (hclosed.filled first last proper inside).spelled r mem
    · simp [Rule.isCatUnary, rhs]
    · simp [rhs]
    · rw [rhs, phrase]
      rfl
  | _, .unary _ mem _ rhs hcat _ _ part =>
    (hclosed.links_unary mem rhs hcat part (Recognition.found hclosed part)).allows
  | _, .pair _ mem _ _ rhs _ _ _ onLeft onRight =>
    (hclosed.links_pair mem rhs onLeft onRight (Side.covers hclosed onLeft) (Side.covers hclosed onRight)).1.allows
theorem Side.covers (hclosed : CoarseChart.Closed rules ex found kept) :
    ∀ {s : CatSpan}, Side rules ex s → found.Covers ex s.cat s.first s.last
  | _, .node tree => Or.inl (Recognition.found hclosed tree)
  | _, .word _ _ => Or.inr ⟨rfl, rfl⟩
end

mutual
/-- The nodes of a tree are kept if its root is. -/
theorem Recognition.kept (hclosed : CoarseChart.Closed rules ex found kept) :
    ∀ {s : CatSpan} (tree : Recognition rules ex s), kept.Found s → ∀ t ∈ tree.nodes, kept.Found t
  | _, .builtin _ _, hs, t, ht => List.mem_singleton.mp ht ▸ hs
  | _, .literal _ _ _ _ _ _ _ _ _ _, hs, t, ht => List.mem_singleton.mp ht ▸ hs
  | _, .silent _ _ _ _ _ _ _ _, hs, t, ht => List.mem_singleton.mp ht ▸ hs
  | _, .unary _ mem _ rhs hcat _ _ part, hs, t, ht => by
    rcases List.mem_cons.mp ht with rfl | ht
    · exact hs
    have hpart := Recognition.found hclosed part
    have hlinks := hclosed.links_unary mem rhs hcat part hpart
    exact Recognition.kept hclosed part (hclosed.follow _ _ hs hlinks hpart) t ht
  | _, .pair _ mem _ _ rhs _ _ _ onLeft onRight, hs, t, ht => by
    rcases List.mem_cons.mp ht with rfl | ht
    · exact hs
    have hlinks := hclosed.links_pair mem rhs onLeft onRight (Side.covers hclosed onLeft) (Side.covers hclosed onRight)
    -- a side is linked to; if it is a token it need not be found, and then it has no nodes
    rcases List.mem_append.mp ht with ht | ht
    · exact Side.kept hclosed onLeft (hclosed.follow _ _ hs hlinks.1) t ht
    · exact Side.kept hclosed onRight (hclosed.follow _ _ hs hlinks.2) t ht
theorem Side.kept (hclosed : CoarseChart.Closed rules ex found kept) :
    ∀ {s : CatSpan} (side : Side rules ex s), (found.Found s → kept.Found s) → ∀ t ∈ side.nodes, kept.Found t
  | _, .node tree, hs, t, ht => Recognition.kept hclosed tree (hs (Recognition.found hclosed tree)) t ht
  | _, .word _ _, _, _, ht => by cases ht
end

/-! ## Both -/

/-- **A coarse chart is exact**: it allows a category over a span iff that is a node of a tree of the root over the
whole text. -/
theorem CoarseParser.allows_parse_iff {parser : CoarseParser} (hparser : CoarseParser.ofRules rules = .ok parser)
    (ex : Example) (cat : String) (first last : Nat) :
    (parser.parse ex).allows cat first last = true ↔
      ∃ tree : Recognition rules ex ⟨rootCat, 0, ex.length⟩, ⟨cat, first, last⟩ ∈ tree.nodes := by
  constructor
  · -- nothing is kept without need: the chart is backed by trees, and the search from the root grafts them
    intro hallows
    obtain ⟨hlen, hspan, -⟩ := CoarseChart.seed_spec ex
    have hbacked := (CoarseChart.backed_seed rules ex).fill (CoarseChart.isParserOf_ofRules hparser) hlen
    obtain ⟨hext, -⟩ := CoarseChart.filled_fill (CoarseChart.isParserOf_ofRules hparser) hlen fun f l hf hl =>
      (hspan f l).mpr ⟨by omega, hl⟩
    exact hbacked.exists_root (hext.length.trans hlen) hallows
  · -- nothing is lost: the root of the tree is kept, and all nodes with it
    rintro ⟨tree, hmem⟩
    have hclosed := CoarseChart.closed_parse hparser ex
    have hroot := hclosed.root (Recognition.found hclosed tree)
    have hkept : (parser.parse ex).Found ⟨cat, first, last⟩ := Recognition.kept hclosed tree hroot _ hmem
    unfold CoarseChart.Found at hkept
    exact hkept

/-- In a sum of two terms both are terms, and neither is needed as a phrase. -/
theorem CoarseParser.allows_parse_iff_sample : ∃ parser, CoarseParser.ofRules sampleRules = .ok parser ∧
    (∃ tree : Recognition sampleRules sampleText ⟨rootCat, 0, sampleText.length⟩, ⟨"$A", 1, 2⟩ ∈ tree.nodes) ∧
    ¬ ∃ tree : Recognition sampleRules sampleText ⟨rootCat, 0, sampleText.length⟩, ⟨phraseCat, 0, 1⟩ ∈ tree.nodes := by
  have hrun : (CoarseParser.ofRules sampleRules).toOption.any (fun parser =>
      (parser.parse sampleText).allows "$A" 1 2 && !(parser.parse sampleText).allows phraseCat 0 1) = true := by
    decide +kernel
  cases hparser : CoarseParser.ofRules sampleRules with
  | error e =>
    rw [hparser] at hrun
    cases hrun
  | ok parser =>
    rw [hparser, Except.toOption, Option.any_some, Bool.and_eq_true, Bool.not_eq_true'] at hrun
    have hterm := CoarseParser.allows_parse_iff hparser sampleText "$A" 1 2
    have hphrase := CoarseParser.allows_parse_iff hparser sampleText phraseCat 0 1
    refine ⟨parser, rfl, hterm.mp hrun.1, fun h => ?_⟩
    rw [hphrase.mpr h] at hrun
    cases hrun.2

/-- A rule that rewrites the root to nothing. -/
def silentRules : List Rule := [{ lhs := rootCat, rhs := [], sem := IdentityFn.mk.toFn }]

/-- A text of one token that has no characters. -/
def silentText : Example where
  utterance := ""
  info := { tokens := [""], lemmas := [""] }

/-- Without rules there is nothing but tokens and phrases. -/
theorem Recognition.mem_builtinCats {s : CatSpan} (tree : Recognition [] ex s) : s.cat ∈ builtinCats := by
  cases tree with
  | builtin t mem => exact (mem_terminals mem).2.2
  | literal _ mem => cases mem
  | silent _ mem => cases mem
  | unary _ mem => cases mem
  | pair _ mem => cases mem

/-- **Rules without a right-hand side count**: over a token without characters the chart has what they make, even if
left-hand sides are categories and tokens are not. -/
theorem CoarseParser.allows_parse_not :
    ¬ ∀ (rules : List Rule) (parser : CoarseParser) (ex : Example), CoarseParser.ofRules rules = .ok parser →
      (∀ r ∈ rules, isCat r.lhs = true) → (∀ i < ex.length, isCat (ex.token i) = false) →
      ∀ cat first last, (parser.parse ex).allows cat first last = true ↔
        ∃ tree : Recognition (rules.filter fun r => !r.rhs.isEmpty) ex ⟨rootCat, 0, ex.length⟩,
          ⟨cat, first, last⟩ ∈ tree.nodes := by
  intro h
  have hrun : (CoarseParser.ofRules silentRules).toOption.any (fun parser =>
      (parser.parse silentText).allows rootCat 0 1) = true := by decide +kernel
  cases hparser : CoarseParser.ofRules silentRules with
  | error e =>
    rw [hparser] at hrun
    cases hrun
  | ok parser =>
    rw [hparser, Except.toOption, Option.any_some] at hrun
    obtain ⟨tree, -⟩ := (h silentRules parser silentText hparser (by decide) (by decide) rootCat 0 1).mp hrun
    -- all rules are left out, and the root is no category of tokens or phrases
    exact absurd (Recognition.mem_builtinCats tree) (by decide)

end Parlance
