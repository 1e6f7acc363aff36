import Parlance.Proofs.Completeness

/-!
# `Proofs.Forest` — what rules make of the trees at hand

Forget the order in which derivations are found, and look at all trees of a parse at once. The tokens and phrases
are among them; each rule makes further trees of those that are there, in each way that these cover a span. What
comes of this is one operator on multisets of trees. It grows with the trees at hand, and it has one fixed point
only: how often a tree is in it goes by how often its children are.

## Contents
- **Multisets.** `bind_le_bind`, `count_bind_of_unique`.
- **Ways.** `ways_le_ways` and `count_ways`: how ways depend on the parts.
- **The operator.** `compositions`, what there is to put together, and `consequences`, with what comes of it.
- **Fixed points.** `eq_of_eq_consequences`.
- **Cells.** `filter_consequences`, the trees of one cell.
-/

namespace Parlance

open Progress

/-! ## Multisets -/

section Multisets

variable {β γ : Type}

/-- More items, each of which leads to more, lead to more. -/
theorem bind_le_bind {m n : Multiset β} {f g : β → Multiset γ} (h : m ≤ n) (hf : ∀ x, f x ≤ g x) :
    m.bind f ≤ n.bind g := by
  obtain ⟨k, rfl⟩ := Multiset.le_iff_exists_add.mp h
  have hm : m.bind f ≤ m.bind g := by
    induction m using Multiset.induction_on with
    | empty => exact le_of_eq (by simp)
    | cons x m ih =>
      rw [Multiset.cons_bind, Multiset.cons_bind]
      exact add_le_add (hf x) (ih (Multiset.le_add_right m k))
  rw [Multiset.add_bind]
  exact hm.trans (Multiset.le_add_right _ _)

/-- If only one item leads to something, it is led to by each occurrence of that item. -/
theorem count_bind_of_unique [DecidableEq β] [DecidableEq γ] {m : Multiset β} {f : β → Multiset γ} {x : β}
    {y : γ} (h : ∀ z, y ∈ f z → z = x) : (m.bind f).count y = m.count x * (f x).count y := by
  induction m using Multiset.induction_on with
  | empty => simp
  | cons z m ih =>
    rw [Multiset.cons_bind, Multiset.count_add, ih, Multiset.count_cons]
    by_cases hz : x = z
    · subst hz
      rw [if_pos rfl, Nat.add_mul, Nat.one_mul, Nat.add_comm]
    · have hnone : (f z).count y = 0 := Multiset.count_eq_zero.mpr fun hy => hz (h z hy).symm
      rw [if_neg hz, hnone, Nat.zero_add, Nat.add_zero]

end Multisets

/-! ## Ways -/

section Ways

variable {δ : Type} {isToken : Nat → String → Bool} {parts parts' : Nat → Nat → String → Multiset δ} {last : Nat}

/-- More parts leave more ways. -/
theorem ways_le_ways (h : ∀ j k s, parts j k s ≤ parts' j k s) (symbols : List String) (i : Nat) :
    ways isToken parts last symbols i ≤ ways isToken parts' last symbols i := by
  induction symbols generalizing i with
  | nil => exact le_refl _
  | cons symbol rest ih =>
    rw [ways, ways]
    refine add_le_add ?_ (bind_le_bind (le_refl _) fun k => bind_le_bind (h _ _ _) fun d => ?_)
    · split
      · exact ih _
      · exact le_refl _
    · exact Multiset.map_le_map (ih _)

/-- **How often a way occurs** goes by how often its parts do. -/
theorem count_ways [DecidableEq δ] {w : List δ} (h : ∀ d ∈ w, ∀ j k s, (parts j k s).count d = (parts' j k s).count d)
    (symbols : List String) (i : Nat) :
    (ways isToken parts last symbols i).count w = (ways isToken parts' last symbols i).count w := by
  induction symbols generalizing i w with
  | nil => rfl
  | cons symbol rest ih =>
    rw [ways, ways, Multiset.count_add, Multiset.count_add, Multiset.count_bind, Multiset.count_bind]
    congr 1
    · split
      · exact ih h _
      · rfl
    · refine congrArg Multiset.sum (Multiset.map_congr rfl fun k _ => ?_)
      cases w with
      | nil =>
        have hnone : ∀ (m : Multiset δ) (f : δ → Multiset (List δ)),
            (m.bind fun d => (f d).map (d :: ·)).count [] = 0 := by
          intro m f
          refine Multiset.count_eq_zero.mpr fun hm => ?_
          obtain ⟨d, -, hd⟩ := Multiset.mem_bind.mp hm
          obtain ⟨w, -, hw⟩ := Multiset.mem_map.mp hd
          cases hw
        rw [hnone, hnone]
      | cons d w =>
        -- only the first part of the way leads to it
        have hfirst : ∀ (f : δ → Multiset (List δ)) (e : δ), d :: w ∈ (f e).map (e :: ·) → e = d := by
          intro f e hm
          obtain ⟨w', -, hw⟩ := Multiset.mem_map.mp hm
          exact (List.cons.inj hw).1
        rw [count_bind_of_unique (hfirst _), count_bind_of_unique (hfirst _),
          h d List.mem_cons_self, Multiset.count_map_eq_count' _ _ (List.cons_injective),
          Multiset.count_map_eq_count' _ _ (List.cons_injective),
          ih (fun e he => h e (List.mem_cons_of_mem _ he))]

end Ways

/-! ## Trees -/

namespace DerivationTree

variable {α : Type}

/-- What the derivation at the root is made of. -/
def children : DerivationTree α → List (DerivationTree α)
  | node _ children => children

/-- **Induction over trees**, from the children to the whole. -/
theorem induct {P : DerivationTree α → Prop} (h : ∀ t, (∀ c ∈ t.children, P c) → P t) :
    ∀ t, P t
  | node label children => h (node label children) fun c (_ : c ∈ children) => induct h c

end DerivationTree

variable {α : Type} [Score α]

/-- A tree tells which rule was applied to what. -/
theorem Composition.eq_of_mem_trees {c : Composition α} {task : Task α} {t : DerivationTree α}
    (h : t ∈ c.trees task) : c = ⟨t.label.rule, t.label.first, t.label.last, t.children⟩ := by
  obtain ⟨candidate, -, rfl⟩ := List.mem_map.mp h
  obtain ⟨-, hfirst, hlast⟩ := c.label_ofCandidate task candidate
  have hrule : (c.labelOf task candidate).rule = c.rule := by
    unfold labelOf
    dsimp only
    split
    · rfl
    · rfl
  show c = ⟨(c.labelOf task candidate).rule, (c.labelOf task candidate).first,
    (c.labelOf task candidate).last, c.children⟩
  rw [hrule, hfirst, hlast]

/-! ## The operator -/

/-- What there is for each span of a text of `n` tokens. -/
def overSpans {δ : Type} (n : Nat) (f : Nat → Nat → Multiset δ) : Multiset δ :=
  (Multiset.range n).bind fun first =>
    (Multiset.range (n + 1)).bind fun last => if first < last then f first last else 0

/-- The trees that a symbol stands for over a span; a literal stands for none. -/
def among (forest : Multiset (DerivationTree α)) (first last : Nat) (symbol : String) :
    Multiset (DerivationTree α) :=
  if isCat symbol then forest.filter fun t => t.isAt first last symbol else 0

/-- The ways to apply a rule over a span. -/
def applicable (task : Task α) (forest : Multiset (DerivationTree α)) (first last : Nat) (r : Rule) :
    Multiset (Composition α) :=
  if task.canBuild r first last then
    (ways task.isLiteral (among forest) last r.rhs first).map fun w => ⟨r, first, last, w⟩
  else 0

/-- **What there is to put together**: a rule, a span, and trees that cover it. -/
def compositions (task : Task α) (rules : List Rule) (forest : Multiset (DerivationTree α)) :
    Multiset (Composition α) :=
  overSpans task.length fun first last => (rules : Multiset Rule).bind (applicable task forest first last)

/-- The trees of the tokens and phrases. -/
def seedTrees (task : Task α) : Multiset (DerivationTree α) :=
  (ratedTerminals task).map (Derivation.unfold .empty)

/-- **What comes of the trees at hand**: the tokens and phrases, and what rules make. -/
def consequences (task : Task α) (rules : List Rule) (forest : Multiset (DerivationTree α)) :
    Multiset (DerivationTree α) :=
  seedTrees task + (compositions task rules forest).bind fun c => c.trees task

variable {task : Task α} {rules : List Rule} {F G : Multiset (DerivationTree α)}

theorem overSpans_le_overSpans {δ : Type} {n : Nat} {f g : Nat → Nat → Multiset δ}
    (h : ∀ first last, f first last ≤ g first last) : overSpans n f ≤ overSpans n g := by
  refine bind_le_bind (le_refl _) fun first => bind_le_bind (le_refl _) fun last => ?_
  split
  · exact h first last
  · exact le_refl _

omit [Score α] in
/-- More trees leave more to put together. -/
theorem compositions_le_compositions (h : F ≤ G) : compositions task rules F ≤ compositions task rules G := by
  refine overSpans_le_overSpans fun first last => bind_le_bind (le_refl _) fun r => ?_
  unfold applicable
  split
  · refine Multiset.map_le_map (ways_le_ways (fun j k s => ?_) _ _)
    unfold among
    split
    · exact Multiset.filter_le_filter _ h
    · exact le_refl _
  · exact le_refl _

/-- **More comes of more trees.** -/
theorem consequences_le_consequences (h : F ≤ G) : consequences task rules F ≤ consequences task rules G :=
  add_le_add (le_refl _) (bind_le_bind (compositions_le_compositions h) fun _ => le_refl _)

/-! ## Fixed points -/

omit [Score α] in
/-- **How often something can be put together** goes by how often its parts are there. -/
theorem count_compositions [DecidableEq (DerivationTree α)] [DecidableEq (Composition α)] {c : Composition α}
    (h : ∀ t ∈ c.children, F.count t = G.count t) :
    (compositions task rules F).count c = (compositions task rules G).count c := by
  have happlicable : ∀ first last r, (applicable task F first last r).count c =
      (applicable task G first last r).count c := by
    intro first last r
    unfold applicable
    split
    · by_cases hc : c = ⟨r, first, last, c.children⟩
      · have hinj : Function.Injective fun w => (⟨r, first, last, w⟩ : Composition α) :=
          fun w w' he => congrArg Composition.children he
        rw [hc]
        refine (Multiset.count_map_eq_count' _ _ hinj _).trans
          (Eq.trans ?_ (Multiset.count_map_eq_count' _ _ hinj _).symm)
        refine count_ways (fun t ht j k s => ?_) _ _
        unfold among
        split
        · rw [Multiset.count_filter, Multiset.count_filter, h t ht]
        · rfl
      · have hnone : ∀ m : Multiset (List (DerivationTree α)),
            (m.map fun w => (⟨r, first, last, w⟩ : Composition α)).count c = 0 := by
          intro m
          refine Multiset.count_eq_zero.mpr fun hm => ?_
          obtain ⟨w, -, rfl⟩ := Multiset.mem_map.mp hm
          exact hc rfl
        rw [hnone, hnone]
    · rfl
  unfold compositions overSpans
  simp only [Multiset.count_bind]
  refine congrArg Multiset.sum (Multiset.map_congr rfl fun first _ => ?_)
  refine congrArg Multiset.sum (Multiset.map_congr rfl fun last _ => ?_)
  split
  · rw [Multiset.count_bind, Multiset.count_bind]
    exact congrArg Multiset.sum (Multiset.map_congr rfl fun r _ => happlicable first last r)
  · rfl

/-- **There is only one multiset of trees that is what comes of it.** -/
theorem eq_of_eq_consequences (hF : F = consequences task rules F) (hG : G = consequences task rules G) :
    F = G := by
  classical
  refine Multiset.ext.mpr fun t => ?_
  induction t using DerivationTree.induct with
  | h t ih =>
    rw [hF, hG]
    unfold consequences
    rw [Multiset.count_add, Multiset.count_add]
    congr 1
    -- a tree is made of its children only
    rw [count_bind_of_unique fun c hc => Composition.eq_of_mem_trees (Multiset.mem_coe.mp hc),
      count_bind_of_unique fun c hc => Composition.eq_of_mem_trees (Multiset.mem_coe.mp hc),
      count_compositions ih]

/-! ## Cells -/

section Spans

variable {δ ε : Type} {n first last : Nat}

/-- If only one item leads to something, that is all there is. -/
theorem bind_eq_of_unique {β : Type} {m : Multiset β} (hm : m.Nodup) {x : β} (hx : x ∈ m)
    {f : β → Multiset δ} (h : ∀ y ∈ m, y ≠ x → f y = 0) : m.bind f = f x := by
  obtain ⟨k, rfl⟩ := Multiset.exists_cons_of_mem hx
  have hzero : k.bind f = k.bind fun _ => 0 := Multiset.bind_congr fun y hy =>
    h y (Multiset.mem_cons_of_mem hy) fun he => (Multiset.nodup_cons.mp hm).1 (he ▸ hy)
  rw [Multiset.cons_bind, hzero, Multiset.bind_zero, add_zero]

theorem overSpans_eq_of_unique (hf : first < last) (hl : last ≤ n) {f : Nat → Nat → Multiset δ}
    (h : ∀ i j, ¬(i = first ∧ j = last) → f i j = 0) : overSpans n f = f first last := by
  unfold overSpans
  rw [bind_eq_of_unique (Multiset.nodup_range n) (Multiset.mem_range.mpr (Nat.lt_of_lt_of_le hf hl)),
    bind_eq_of_unique (Multiset.nodup_range (n + 1)) (Multiset.mem_range.mpr (Nat.lt_succ_of_le hl)), if_pos hf]
  · intro j _ hj
    split
    · exact h first j fun he => hj he.2
    · rfl
  · intro i _ hi
    have hzero : ∀ j, (if i < j then f i j else 0) = 0 := fun j => by
      split
      · exact h i j fun he => hi he.1
      · rfl
    simp only [hzero, Multiset.bind_zero]

theorem overSpans_congr {f g : Nat → Nat → Multiset δ} (h : ∀ i j, i < j → j ≤ n → f i j = g i j) :
    overSpans n f = overSpans n g := by
  refine Multiset.bind_congr fun i _ => Multiset.bind_congr fun j hj => ?_
  split
  · exact h i j ‹_› (Nat.lt_succ_iff.mp (Multiset.mem_range.mp hj))
  · rfl

theorem overSpans_bind (f : Nat → Nat → Multiset δ) (g : δ → Multiset ε) :
    (overSpans n f).bind g = overSpans n fun i j => (f i j).bind g := by
  unfold overSpans
  rw [Multiset.bind_assoc]
  refine Multiset.bind_congr fun i _ => ?_
  rw [Multiset.bind_assoc]
  refine Multiset.bind_congr fun j _ => ?_
  split
  · rfl
  · exact Multiset.zero_bind _

theorem filter_overSpans (f : Nat → Nat → Multiset δ) (keep : δ → Prop) [DecidablePred keep] :
    (overSpans n f).filter keep = overSpans n fun i j => (f i j).filter keep := by
  unfold overSpans
  rw [Multiset.filter_bind]
  refine Multiset.bind_congr fun i _ => ?_
  rw [Multiset.filter_bind]
  refine Multiset.bind_congr fun j _ => ?_
  split
  · rfl
  · exact Multiset.filter_zero _

theorem mem_overSpans {f : Nat → Nat → Multiset δ} {x : δ} :
    x ∈ overSpans n f ↔ ∃ i j, i < j ∧ j ≤ n ∧ x ∈ f i j := by
  unfold overSpans
  simp only [Multiset.mem_bind, Multiset.mem_range]
  constructor
  · rintro ⟨i, -, j, hj, hx⟩
    split at hx
    · exact ⟨i, j, ‹_›, by omega, hx⟩
    · cases hx
  · rintro ⟨i, j, hij, hj, hx⟩
    exact ⟨i, by omega, j, by omega, by rwa [if_pos hij]⟩

end Spans

omit [Score α] in
/-- The span and the category of a tree. -/
theorem DerivationTree.isAt_iff {t : DerivationTree α} {first last : Nat} {cat : String} :
    t.isAt first last cat = true ↔ t.label.first = first ∧ t.label.last = last ∧ t.label.cat = cat := by
  unfold isAt
  simp only [Bool.and_eq_true, beq_iff_eq, and_assoc]

omit [Score α] in
theorem mem_applicable {first last : Nat} {r : Rule} {c : Composition α}
    (h : c ∈ applicable task F first last r) :
    task.canBuild r first last = true ∧ c.rule = r ∧ c.first = first ∧ c.last = last ∧
      c.children ∈ ways task.isLiteral (among F) last r.rhs first := by
  unfold applicable at h
  split at h
  · obtain ⟨w, hw, rfl⟩ := Multiset.mem_map.mp h
    exact ⟨‹_›, rfl, rfl, rfl, hw⟩
  · cases h

/-- What a rule makes lies in the cell of its left-hand side. -/
theorem filter_bind_applicable (first last i j : Nat) (cat : String) (r : Rule) :
    ((applicable task F i j r).bind fun c => (c.trees task : Multiset (DerivationTree α))).filter
        (fun t => t.isAt first last cat) =
      if (i = first ∧ j = last) ∧ r.lhs = cat then (applicable task F i j r).bind fun c => c.trees task else 0 := by
  have hat : ∀ t ∈ (applicable task F i j r).bind fun c => (c.trees task : Multiset (DerivationTree α)),
      t.label.first = i ∧ t.label.last = j ∧ t.label.cat = r.lhs := by
    intro t ht
    obtain ⟨c, hc, hmade⟩ := Multiset.mem_bind.mp ht
    obtain ⟨-, rfl, rfl, rfl, -⟩ := mem_applicable hc
    obtain ⟨h1, h2, h3⟩ := Composition.isAt_of_mem_trees (Multiset.mem_coe.mp hmade)
    exact ⟨h2, h3, h1⟩
  split
  · rename_i he
    refine Multiset.filter_eq_self.mpr fun t ht => ?_
    obtain ⟨h1, h2, h3⟩ := hat t ht
    exact DerivationTree.isAt_iff.mpr ⟨h1.trans he.1.1, h2.trans he.1.2, h3.trans he.2⟩
  · rename_i he
    refine Multiset.filter_eq_nil.mpr fun t ht hm => he ?_
    obtain ⟨h1, h2, h3⟩ := hat t ht
    obtain ⟨h1', h2', h3'⟩ := DerivationTree.isAt_iff.mp hm
    exact ⟨⟨h1.symm.trans h1', h2.symm.trans h2'⟩, h3.symm.trans h3'⟩

/-- **The trees of a cell** among those that come of some trees. -/
theorem filter_consequences {first last : Nat} (hf : first < last) (hl : last ≤ task.length) (cat : String) :
    (consequences task rules F).filter (fun t => t.isAt first last cat) =
      (seedTrees task).filter (fun t => t.isAt first last cat) +
        ((rules.filter fun r => r.lhs = cat : List Rule) : Multiset Rule).bind fun r =>
          (applicable task F first last r).bind fun c => c.trees task := by
  unfold consequences compositions
  rw [Multiset.filter_add, overSpans_bind, filter_overSpans]
  congr 1
  have hspan : ∀ i j, (((rules : Multiset Rule).bind (applicable task F i j)).bind fun c =>
        (c.trees task : Multiset (DerivationTree α))).filter (fun t => t.isAt first last cat) =
      (rules : Multiset Rule).bind fun r => if (i = first ∧ j = last) ∧ r.lhs = cat then
        (applicable task F i j r).bind fun c => c.trees task else 0 := by
    intro i j
    rw [Multiset.bind_assoc, Multiset.filter_bind]
    exact Multiset.bind_congr fun r _ => filter_bind_applicable first last i j cat r
  simp only [hspan]
  rw [overSpans_eq_of_unique hf hl, ← Multiset.filter_coe, Multiset.bind_filter]
  · simp only [true_and, and_self]
  · intro i j hne
    simp only [hne, false_and, if_false, Multiset.bind_zero]

/-- A tree over a part of the text. -/
def DerivationTree.LiesIn (n : Nat) (t : DerivationTree α) : Prop :=
  t.label.first < t.label.last ∧ t.label.last ≤ n ∧ isCat t.label.cat = true

/-- **What comes of trees** lies over parts of the text and belongs to categories. -/
theorem liesIn_of_mem_consequences (hcat : ∀ r ∈ rules, isCat r.lhs = true) {t : DerivationTree α}
    (h : t ∈ consequences task rules F) : t.LiesIn task.length := by
  rcases Multiset.mem_add.mp h with h | h
  · obtain ⟨d, hd, rfl⟩ := List.mem_map.mp (Multiset.mem_coe.mp h)
    obtain ⟨hf, hl, hc, -⟩ := mem_ratedTerminals hd
    exact ⟨hf, hl, hc⟩
  · obtain ⟨c, hc, ht⟩ := Multiset.mem_bind.mp h
    obtain ⟨i, j, hij, hj, hc⟩ := mem_overSpans.mp hc
    obtain ⟨r, hr, hc⟩ := Multiset.mem_bind.mp hc
    obtain ⟨-, rfl, rfl, rfl, -⟩ := mem_applicable hc
    obtain ⟨h1, h2, h3⟩ := Composition.isAt_of_mem_trees (Multiset.mem_coe.mp ht)
    unfold DerivationTree.LiesIn
    rw [h1, h2, h3]
    exact ⟨hij, hj, hcat _ (Multiset.mem_coe.mp hr)⟩

omit [Score α] in
/-- Trees over parts of the text are known by their cells. -/
theorem eq_of_filter_isAt {n : Nat} (hF : ∀ t ∈ F, t.LiesIn n) (hG : ∀ t ∈ G, t.LiesIn n)
    (h : ∀ first last cat, first < last → last ≤ n →
      F.filter (fun t => t.isAt first last cat) = G.filter fun t => t.isAt first last cat) : F = G := by
  classical
  refine Multiset.ext.mpr fun t => ?_
  by_cases ht : t.LiesIn n
  · have hat : t.isAt t.label.first t.label.last t.label.cat = true :=
      DerivationTree.isAt_iff.mpr ⟨rfl, rfl, rfl⟩
    have hcell := congrArg (Multiset.count t) (h t.label.first t.label.last t.label.cat ht.1 ht.2.1)
    rwa [Multiset.count_filter, Multiset.count_filter, if_pos hat, if_pos hat] at hcell
  · rw [Multiset.count_eq_zero.mpr fun hm => ht (hF t hm), Multiset.count_eq_zero.mpr fun hm => ht (hG t hm)]

end Parlance
