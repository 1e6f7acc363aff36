import Parlance.Parse.Progress
import Parlance.Proofs.Fold
import Parlance.Proofs.Spans
import Parlance.Proofs.Table
import Parlance.Proofs.UnaryOrder

/-!
# `Proofs.CoarseFill` — a coarse chart has all that the rules can make

A coarse chart only grows while it is filled, and the work on a span adds to the cell of that span only. Once a
span was worked on, its cell is closed under the rules: what covers the parts of the span by a right-hand side gives
the left-hand side over the span, with links to these parts.

## Contents
- **Charts.** `HasSpan`, `Links`, and what `add` does to them.
- **Growing.** `Extends`, and `Worked`: only one span was worked on.
- **Filling.** One lemma for each loop, and `Filled`, which holds of all spans in the end.
- **Seeds.** `seed_spec`.
-/

namespace Parlance

namespace CoarseChart

variable {chart c d e : CoarseChart} {first last : Nat}

/-! ## Charts -/

/-- Whether the chart has a cell for a span. -/
def HasSpan (chart : CoarseChart) (first last : Nat) : Prop := (chart.cells.get? first last).isSome = true

/-- Whether a category over a span is noted to be made of something. -/
def Links (chart : CoarseChart) (span child : CatSpan) : Prop :=
  ∃ children, (chart.cell span.first span.last).get? span.cat = some children ∧ child ∈ children

theorem allows_iff {cat : String} :
    chart.allows cat first last = true ↔ cat ∈ (chart.cell first last).keys :=
  Table.contains_iff

theorem hasSpan_of_allows {cat : String} (h : chart.allows cat first last = true) :
    chart.HasSpan first last := by
  unfold allows cell at h
  unfold HasSpan
  cases hc : chart.cells.get? first last with
  | none => rw [hc] at h; cases h
  | some cell => rfl

theorem Links.allows {span child : CatSpan} (h : chart.Links span child) :
    chart.allows span.cat span.first span.last = true := by
  obtain ⟨children, hc, -⟩ := h
  unfold CoarseChart.allows Table.contains
  rw [hc]
  rfl

theorem cell_add_self (hs : chart.HasSpan first last) (cat : String) (children : List CatSpan) :
    (chart.add cat first last children).cell first last =
      (chart.cell first last).update cat fun old => old.getD [] ++ children := by
  unfold HasSpan at hs
  obtain ⟨old, hc⟩ := Option.isSome_iff_exists.mp hs
  simp only [cell, add, Grid.get?_modify_self, hc, Option.map_some, Option.getD_some]

theorem cell_add_of_ne (chart : CoarseChart) {f l : Nat} (h : ¬(f = first ∧ l = last)) (cat : String)
    (children : List CatSpan) : (chart.add cat first last children).cell f l = chart.cell f l := by
  simp only [cell, add, Grid.get?_modify_of_ne _ h]

theorem hasSpan_add {cat : String} {children : List CatSpan} {f l : Nat} :
    (chart.add cat first last children).HasSpan f l ↔ chart.HasSpan f l := by
  unfold HasSpan add
  by_cases h : f = first ∧ l = last
  · rw [h.1, h.2, Grid.get?_modify_self, Option.isSome_map]
  · rw [Grid.get?_modify_of_ne _ h]

theorem allows_add_iff (hs : chart.HasSpan first last) {cat c : String} {children : List CatSpan} {f l : Nat} :
    (chart.add cat first last children).allows c f l = true ↔
      chart.allows c f l = true ∨ (f = first ∧ l = last ∧ c = cat) := by
  rw [allows_iff, allows_iff]
  by_cases h : f = first ∧ l = last
  · obtain ⟨rfl, rfl⟩ := h
    rw [cell_add_self hs, Table.mem_keys_update]
    simp
  · rw [cell_add_of_ne chart h]
    exact ⟨Or.inl, fun hc => hc.elim id fun he => absurd ⟨he.1, he.2.1⟩ h⟩

/-- What is added is linked. -/
theorem links_add_self (hs : chart.HasSpan first last) {cat : String} {children : List CatSpan}
    {child : CatSpan} (h : child ∈ children) :
    (chart.add cat first last children).Links ⟨cat, first, last⟩ child := by
  refine ⟨_, by rw [cell_add_self hs, Table.get?_update_self], ?_⟩
  exact List.mem_append_right _ h

/-- What was linked stays linked. -/
theorem Links.add {span child : CatSpan} (h : chart.Links span child) (hs : chart.HasSpan first last)
    (cat : String) (children : List CatSpan) : (chart.add cat first last children).Links span child := by
  obtain ⟨old, hold, hm⟩ := h
  obtain ⟨c, f, l⟩ := span
  dsimp only at hold
  by_cases he : f = first ∧ l = last
  · obtain ⟨rfl, rfl⟩ := he
    by_cases hc : c = cat
    · subst hc
      refine ⟨old ++ children, ?_, List.mem_append_left _ hm⟩
      dsimp only
      rw [cell_add_self hs, Table.get?_update_self, hold]
      rfl
    · refine ⟨old, ?_, hm⟩
      dsimp only
      rw [cell_add_self hs, Table.get?_update_of_ne _ hc, hold]
  · refine ⟨old, ?_, hm⟩
    dsimp only
    rw [cell_add_of_ne chart he, hold]

/-! ## Growing -/

/-- **A later chart** has what an earlier one has. -/
structure Extends (c d : CoarseChart) : Prop where
  length : d.length = c.length
  hasSpan : ∀ f l, d.HasSpan f l ↔ c.HasSpan f l
  allows : ∀ cat f l, c.allows cat f l = true → d.allows cat f l = true
  links : ∀ span child, c.Links span child → d.Links span child

theorem Extends.refl (c : CoarseChart) : c.Extends c :=
  ⟨rfl, fun _ _ => Iff.rfl, fun _ _ _ h => h, fun _ _ h => h⟩

theorem Extends.trans (h : c.Extends d) (h' : d.Extends e) : c.Extends e where
  length := h'.length.trans h.length
  hasSpan f l := (h'.hasSpan f l).trans (h.hasSpan f l)
  allows cat f l hc := h'.allows cat f l (h.allows cat f l hc)
  links span child hc := h'.links span child (h.links span child hc)

theorem extends_add (hs : c.HasSpan first last) (cat : String) (children : List CatSpan) :
    c.Extends (c.add cat first last children) where
  length := rfl
  hasSpan _ _ := hasSpan_add
  allows _ _ _ h := (allows_add_iff hs).mpr (Or.inl h)
  links _ _ h := h.add hs cat children

/-- **Nothing but one span was worked on.** -/
structure Worked (first last : Nat) (c d : CoarseChart) : Prop extends c.Extends d where
  cell : ∀ f l, ¬(f = first ∧ l = last) → d.cell f l = c.cell f l

theorem Worked.refl (c : CoarseChart) : Worked first last c c := ⟨.refl c, fun _ _ _ => rfl⟩

theorem Worked.trans (h : Worked first last c d) (h' : Worked first last d e) : Worked first last c e :=
  ⟨h.toExtends.trans h'.toExtends, fun f l hn => (h'.cell f l hn).trans (h.cell f l hn)⟩

theorem worked_add (hs : c.HasSpan first last) (cat : String) (children : List CatSpan) :
    Worked first last c (c.add cat first last children) :=
  ⟨extends_add hs cat children, fun _ _ hn => cell_add_of_ne c hn cat children⟩

section Steps

variable {β : Type} {f : CoarseChart → β → CoarseChart} {Q : β → CoarseChart → Prop} {l : List β}

/-- Steps that are related one by one are related as a whole, and what each of them does is kept. -/
theorem foldl_steps {R : CoarseChart → CoarseChart → Prop} (hrefl : ∀ c, R c c)
    (htrans : ∀ {c d e}, R c d → R d e → R c e) (hmono : ∀ x d e, R d e → Q x d → Q x e)
    (hstep : ∀ x ∈ l, ∀ d, R c d → R d (f d x) ∧ Q x (f d x)) :
    R c (l.foldl f c) ∧ ∀ x ∈ l, Q x (l.foldl f c) := by
  refine foldl_induct (P := fun pre d => R c d ∧ ∀ x ∈ pre, Q x d) l c ⟨hrefl c, by simp⟩ ?_
  rintro pre x post d hl ⟨hd, hq⟩
  obtain ⟨hd', hx⟩ := hstep x (hl ▸ by simp) d hd
  refine ⟨htrans hd hd', fun y hy => ?_⟩
  rcases List.mem_append.mp hy with hy | hy
  · exact hmono y d _ hd' (hq y hy)
  · rw [List.mem_singleton] at hy
    exact hy ▸ hx

/-- Growing in steps does what each step does, if later charts keep that. -/
theorem Extends.foldl (hmono : ∀ x d e, d.Extends e → Q x d → Q x e)
    (hstep : ∀ x ∈ l, ∀ d, c.Extends d → d.Extends (f d x) ∧ Q x (f d x)) :
    c.Extends (l.foldl f c) ∧ ∀ x ∈ l, Q x (l.foldl f c) :=
  foldl_steps Extends.refl Extends.trans hmono hstep

/-- Work in steps does what each step does, if later charts keep that. -/
theorem Worked.foldl (first last : Nat) (hmono : ∀ x d e, d.Extends e → Q x d → Q x e)
    (hstep : ∀ x ∈ l, ∀ d, Worked first last c d → Worked first last d (f d x) ∧ Q x (f d x)) :
    Worked first last c (l.foldl f c) ∧ ∀ x ∈ l, Q x (l.foldl f c) :=
  foldl_steps Worked.refl Worked.trans (fun x d e h => hmono x d e h.toExtends) hstep

end Steps

/-- Adds categories that are made of the same parts. -/
def addAll (chart : CoarseChart) (first last : Nat) (children : List CatSpan) (cats : List String) : CoarseChart :=
  cats.foldl (fun chart cat => chart.add cat first last children) chart

theorem worked_addAll (hs : c.HasSpan first last) (children : List CatSpan) (cats : List String) :
    Worked first last c (c.addAll first last children cats) ∧
      ∀ cat ∈ cats, ∀ child ∈ children, (c.addAll first last children cats).Links ⟨cat, first, last⟩ child := by
  refine Worked.foldl first last (Q := fun cat d => ∀ child ∈ children, d.Links ⟨cat, first, last⟩ child)
    (fun _ _ _ hx h child hc => hx.links _ _ (h child hc)) fun cat _ d hd => ?_
  have hsd : d.HasSpan first last := (hd.hasSpan _ _).mpr hs
  exact ⟨worked_add hsd cat children, fun child hc => links_add_self hsd hc⟩

/-! ## Filling -/

/-- Whether a symbol covers a span: by a category that is found, or as the only token. -/
def Covers (chart : CoarseChart) (ex : Example) (symbol : String) (first last : Nat) : Prop :=
  chart.allows symbol first last = true ∨ (last = first + 1 ∧ ex.token first = symbol)

theorem phrase_token {ex : Example} {i : Nat} (h : i < ex.length) :
    ex.info.phrase i (i + 1) = ex.token i := by
  have hlt : i < ex.info.tokens.length := h
  unfold LanguageInfo.phrase LanguageInfo.span Example.token
  rw [List.take_add_one, List.getElem?_eq_getElem hlt, Option.toList_some, List.drop_append,
    List.length_take, Nat.min_eq_left (Nat.le_of_lt hlt), Nat.sub_self, List.drop_zero,
    List.drop_eq_nil_of_le (by rw [List.length_take]; omega), List.nil_append, Option.getD_some]
  rfl

/-- What covers a side of a pair is looked at there. -/
theorem mem_sideSymbols {ex : Example} {s : String} (hf : first < ex.length) (h : c.Covers ex s first last) :
    s ∈ c.sideSymbols ex first last := by
  unfold sideSymbols
  rcases h with h | ⟨rfl, rfl⟩
  · exact List.mem_append_left _ (allows_iff.mp h)
  · rw [if_pos (by omega), phrase_token hf]
    exact List.mem_append_right _ List.mem_cons_self

/-- Only the cell of a span tells what covers it. -/
theorem Covers.congr {ex : Example} {s : String} (h : d.cell first last = c.cell first last) :
    d.Covers ex s first last ↔ c.Covers ex s first last := by
  unfold Covers CoarseChart.allows
  rw [h]

/-- A left-hand side over a span is linked to what covers the span from left to right. -/
def LinksPair (chart : CoarseChart) (lhs left right : String) (first mid last : Nat) : Prop :=
  chart.Links ⟨lhs, first, last⟩ ⟨left, first, mid⟩ ∧ chart.Links ⟨lhs, first, last⟩ ⟨right, mid, last⟩

theorem LinksPair.mono {lhs left right : String} {mid : Nat} (hx : c.Extends d)
    (h : c.LinksPair lhs left right first mid last) : d.LinksPair lhs left right first mid last :=
  ⟨hx.links _ _ h.1, hx.links _ _ h.2⟩

/-- Whether a table of pairs has a category for two symbols. -/
def MakesPair (pairs : Table (Table (List String))) (left right cat : String) : Prop :=
  ∃ byRight, pairs.get? left = some byRight ∧ cat ∈ (byRight.get? right).getD []

/-- A pair that is added is there, and so is every pair that was there. -/
theorem makesPair_addPair {pairs : Table (Table (List String))} {a b lhs left right cat : String}
    (h : MakesPair pairs left right cat ∨ (left = a ∧ right = b ∧ cat = lhs)) :
    MakesPair (CoarseParser.addPair pairs a b lhs) left right cat := by
  unfold MakesPair CoarseParser.addPair
  by_cases ha : left = a
  · subst ha
    rw [Table.get?_update_self]
    refine ⟨_, rfl, ?_⟩
    by_cases hb : right = b
    · subst hb
      rw [Table.get?_update_self, Option.getD_some]
      have hold : cat ∈ (((pairs.get? left).getD .empty).get? right).getD [] ∨ cat = lhs := by
        rcases h with ⟨byRight, hget, hm⟩ | ⟨-, -, rfl⟩
        · rw [hget]
          exact Or.inl hm
        · exact Or.inr rfl
      dsimp only
      split
      · rename_i hc
        rcases hold with hm | rfl
        · exact hm
        · simpa using hc
      · rcases hold with hm | rfl
        · exact List.mem_append_left _ hm
        · exact List.mem_append_right _ List.mem_cons_self
    · rw [Table.get?_update_of_ne _ hb]
      rcases h with ⟨byRight, hget, hm⟩ | ⟨-, he, -⟩
      · rw [hget]
        exact hm
      · exact absurd he hb
  · rw [Table.get?_update_of_ne _ ha]
    rcases h with h | ⟨he, -, -⟩
    · exact h
    · exact absurd he ha

/-- **The pairs of a list** have each of its rules of two symbols. -/
theorem makesPair_pairsOf {rules : List Rule} {r : Rule} {left right : String} (hr : r ∈ rules)
    (hrhs : r.rhs = [left, right]) : MakesPair (CoarseParser.pairsOf rules) left right r.lhs := by
  refine foldl_induct
    (P := fun pre pairs => ∀ r ∈ pre, ∀ left right, r.rhs = [left, right] → MakesPair pairs left right r.lhs)
    rules (Table.empty : Table (Table (List String))) (by simp) ?_ r hr left right hrhs
  intro pre x post pairs _ hp r hr left right hrhs
  rcases List.mem_append.mp hr with hr | hr
  · split
    · exact makesPair_addPair (Or.inl (hp r hr left right hrhs))
    · exact hp r hr left right hrhs
  · rw [List.mem_singleton] at hr
    subst hr
    rw [hrhs]
    exact makesPair_addPair (Or.inr ⟨rfl, rfl, rfl⟩)

/-- What a parser can make of two symbols that cover a span. -/
def MadeOf (parser : CoarseParser) (ex : Example) (chart : CoarseChart) (first mid last : Nat)
    (d : CoarseChart) : Prop :=
  ∀ left right cat, chart.Covers ex left first mid → chart.Covers ex right mid last →
    MakesPair parser.pairs left right cat → d.LinksPair cat left right first mid last

/-- Adds what a left symbol makes with each of the right ones. -/
def addRights (chart : CoarseChart) (first mid last : Nat) (left : String) (byRight : Table (List String))
    (rights : List String) : CoarseChart :=
  rights.foldl (fun chart right => chart.addAll first last [⟨left, first, mid⟩, ⟨right, mid, last⟩]
    ((byRight.get? right).getD [])) chart

theorem worked_addRights (hs : c.HasSpan first last) (mid : Nat) (left : String) (byRight : Table (List String))
    (rights : List String) :
    Worked first last c (c.addRights first mid last left byRight rights) ∧
      ∀ right ∈ rights, ∀ cat ∈ (byRight.get? right).getD [],
        (c.addRights first mid last left byRight rights).LinksPair cat left right first mid last := by
  refine Worked.foldl first last
    (Q := fun right d => ∀ cat ∈ (byRight.get? right).getD [], d.LinksPair cat left right first mid last)
    (fun _ _ _ hx h cat hc => (h cat hc).mono hx) fun right _ d hd => ?_
  obtain ⟨hw, hlinks⟩ := worked_addAll ((hd.hasSpan _ _).mpr hs) [⟨left, first, mid⟩, ⟨right, mid, last⟩]
    ((byRight.get? right).getD [])
  exact ⟨hw, fun cat hc =>
    ⟨hlinks cat hc _ List.mem_cons_self, hlinks cat hc _ (List.mem_cons_of_mem _ List.mem_cons_self)⟩⟩

/-- **Adding pairs** adds what the parser makes of what covers the two parts. -/
theorem worked_addPairs (parser : CoarseParser) {ex : Example} {mid : Nat} (hs : c.HasSpan first last)
    (hf : first < ex.length) (hm : mid < ex.length) :
    Worked first last c (c.addPairs parser ex first mid last) ∧
      MadeOf parser ex c first mid last (c.addPairs parser ex first mid last) := by
  unfold addPairs
  dsimp only
  refine And.imp_right ?_ (Worked.foldl first last
    (Q := fun left d => ∀ right ∈ c.sideSymbols ex mid last, ∀ cat, MakesPair parser.pairs left right cat →
      d.LinksPair cat left right first mid last)
    (fun _ _ _ hx h right hr cat hc => (h right hr cat hc).mono hx) ?_)
  · intro hq left right cat hl hr hmake
    exact hq left (mem_sideSymbols hf hl) right (mem_sideSymbols hm hr) cat hmake
  · intro left _ d hd
    split
    next hnone =>
      refine ⟨.refl d, ?_⟩
      rintro right - cat ⟨byRight, hb, -⟩
      rw [hnone] at hb
      cases hb
    next byRight hsome =>
      obtain ⟨hw, hq⟩ := worked_addRights ((hd.hasSpan _ _).mpr hs) mid left byRight (c.sideSymbols ex mid last)
      refine ⟨hw, ?_⟩
      rintro right hr cat ⟨byRight', hb, hcat⟩
      rw [hsome] at hb
      obtain rfl := Option.some.inj hb
      exact hq right hr cat hcat

/-- **Adding binary rules** adds what the parser makes of what covers two parts of the span. -/
theorem worked_addBinary (parser : CoarseParser) {ex : Example} (hs : c.HasSpan first last)
    (hl : last ≤ ex.length) :
    Worked first last c (c.addBinary parser ex first last) ∧
      ∀ mid, first < mid → mid < last → MadeOf parser ex c first mid last (c.addBinary parser ex first last) := by
  unfold addBinary
  obtain ⟨hw, hq⟩ := Worked.foldl first last (c := c)
    (l := List.range' (first + 1) (last - first - 1))
    (f := fun chart mid => chart.addPairs parser ex first mid last)
    (Q := fun mid d => MadeOf parser ex c first mid last d)
    (fun _ _ _ hx h left right cat hl hr hmake => (h left right cat hl hr hmake).mono hx) (by
      intro mid hmid d hd
      rw [List.mem_range'_1] at hmid
      have hsd : d.HasSpan first last := (hd.hasSpan _ _).mpr hs
      obtain ⟨hw, hmade⟩ := worked_addPairs parser hsd (by omega : first < ex.length)
        (by omega : mid < ex.length)
      -- the parts of the span were not worked on
      refine ⟨hw, fun left right cat hl hr hmake => hmade left right cat ?_ ?_ hmake⟩
      · exact (Covers.congr (hd.cell first mid (by omega))).mpr hl
      · exact (Covers.congr (hd.cell mid last (by omega))).mpr hr)
  exact ⟨hw, fun mid h1 h2 => hq mid (List.mem_range'_1.mpr ⟨by omega, by omega⟩)⟩

/-- Adds the left-hand side of a rule that spells a phrase. -/
def addSpelled (phrase : String) (first last : Nat) (chart : CoarseChart) (rule : Rule) : CoarseChart :=
  if " ".intercalate rule.rhs == phrase then chart.add rule.lhs first last [] else chart

theorem worked_addSpelled (hs : c.HasSpan first last) (phrase : String) (literals : List Rule) :
    Worked first last c (literals.foldl (addSpelled phrase first last) c) ∧
      ∀ r ∈ literals, " ".intercalate r.rhs = phrase →
        (literals.foldl (addSpelled phrase first last) c).allows r.lhs first last = true := by
  refine Worked.foldl first last
    (Q := fun (r : Rule) d => " ".intercalate r.rhs = phrase → d.allows r.lhs first last = true)
    (fun r _ _ hx h hr => hx.allows r.lhs first last (h hr)) fun r _ d hd => ?_
  have hsd : d.HasSpan first last := (hd.hasSpan _ _).mpr hs
  unfold addSpelled
  by_cases hr : " ".intercalate r.rhs = phrase
  · rw [if_pos (by simpa using hr)]
    exact ⟨worked_add hsd _ _, fun _ => (allows_add_iff hsd).mpr (Or.inr ⟨rfl, rfl, rfl⟩)⟩
  · rw [if_neg (by simpa using hr)]
    exact ⟨.refl d, fun h => absurd h hr⟩

/-- Adds what a rule makes of one category, if that is found. -/
def addFollowing (first last : Nat) (chart : CoarseChart) (rule : Rule) : CoarseChart :=
  if chart.allows rule.target first last then chart.add rule.lhs first last [⟨rule.target, first, last⟩] else chart

/-- A rule finds the category that it takes, if that is found at all, because no later rule makes it. -/
theorem worked_addFollowing (hs : c.HasSpan first last) {unaries : List Rule}
    (horder : unaries.Pairwise fun a b => b.lhs ≠ a.target) :
    Worked first last c (unaries.foldl (addFollowing first last) c) ∧
      ∀ r ∈ unaries, (unaries.foldl (addFollowing first last) c).allows r.target first last = true →
        (unaries.foldl (addFollowing first last) c).Links ⟨r.lhs, first, last⟩ ⟨r.target, first, last⟩ := by
  refine foldl_induct
    (P := fun pre d => Worked first last c d ∧ ∀ r ∈ pre, d.allows r.target first last = true →
      d.Links ⟨r.lhs, first, last⟩ ⟨r.target, first, last⟩)
    unaries c ⟨.refl c, by simp⟩ ?_
  rintro pre rule post d hl ⟨hd, hlinks⟩
  have hsd : d.HasSpan first last := (hd.hasSpan _ _).mpr hs
  have hbefore : ∀ r ∈ pre, rule.lhs ≠ r.target := fun r hr =>
    (List.pairwise_append.mp (hl ▸ horder)).2.2 r hr rule List.mem_cons_self
  unfold addFollowing
  by_cases hfound : d.allows rule.target first last = true
  · rw [if_pos hfound]
    refine ⟨hd.trans (worked_add hsd _ _), fun r hr hr' => ?_⟩
    rcases List.mem_append.mp hr with hr | hr
    · refine (hlinks r hr ?_).add hsd _ _
      exact ((allows_add_iff hsd).mp hr').resolve_right fun h => hbefore r hr h.2.2.symm
    · rw [List.mem_singleton] at hr
      exact hr ▸ links_add_self hsd List.mem_cons_self
  · rw [if_neg hfound]
    refine ⟨hd, fun r hr hr' => ?_⟩
    rcases List.mem_append.mp hr with hr | hr
    · exact hlinks r hr hr'
    · rw [List.mem_singleton] at hr
      exact absurd (hr ▸ hr') hfound

/-- **Adding unary rules** adds what the words of the span make, and then what a category makes that is found. -/
theorem worked_addUnary (parser : CoarseParser) (ex : Example) (hs : c.HasSpan first last)
    (horder : parser.unaries.Pairwise fun a b => b.lhs ≠ a.target) :
    Worked first last c (c.addUnary parser ex first last) ∧
      (∀ r ∈ parser.literals, " ".intercalate r.rhs = ex.info.phrase first last →
        (c.addUnary parser ex first last).allows r.lhs first last = true) ∧
      ∀ r ∈ parser.unaries, (c.addUnary parser ex first last).allows r.target first last = true →
        (c.addUnary parser ex first last).Links ⟨r.lhs, first, last⟩ ⟨r.target, first, last⟩ := by
  obtain ⟨hw, hspelled⟩ := worked_addSpelled hs (ex.info.phrase first last) parser.literals
  obtain ⟨hw', hlinks⟩ := worked_addFollowing ((hw.hasSpan _ _).mpr hs) horder
  exact ⟨hw.trans hw', fun r hr h => hw'.allows _ _ _ (hspelled r hr h), hlinks⟩

/-- **The cell of a span is closed under rules.** -/
structure Filled (rules : List Rule) (ex : Example) (chart : CoarseChart) (first last : Nat) : Prop where
  pair : ∀ r ∈ rules, ∀ left right mid, r.rhs = [left, right] → first < mid → mid < last →
    chart.Covers ex left first mid → chart.Covers ex right mid last →
      chart.LinksPair r.lhs left right first mid last
  spelled : ∀ r ∈ rules, r.isCatUnary = false → r.rhs.length ≠ 2 →
    " ".intercalate r.rhs = ex.info.phrase first last → chart.allows r.lhs first last = true
  unary : ∀ r ∈ rules, r.isCatUnary = true → chart.allows r.target first last = true →
    chart.Links ⟨r.lhs, first, last⟩ ⟨r.target, first, last⟩

/-- In a closed cell is what rewrites to the only token. -/
theorem Filled.literal {rules : List Rule} {ex : Example} (h : Filled rules ex chart first last)
    (hf : first < ex.length) {r : Rule} (hr : r ∈ rules) {s : String} (hrhs : r.rhs = [s]) (hcat : isCat s = false)
    (hlast : last = first + 1) (htok : ex.token first = s) : chart.allows r.lhs first last = true := by
  apply h.spelled r hr
  · unfold Rule.isCatUnary
    rw [hrhs]
    exact hcat
  · simp [hrhs]
  · rw [hrhs, hlast, phrase_token hf, htok]
    exact String.intercalate_singleton

/-- Work on a span that does not lie within another one leaves that one closed. -/
theorem Filled.worked {rules : List Rule} {ex : Example} {f l : Nat} (h : Filled rules ex c f l)
    (hw : Worked first last c d) (hn : ¬(f ≤ first ∧ last ≤ l)) : Filled rules ex d f l where
  pair r hr left right mid hrhs hm hm' hl hr' := by
    refine (h.pair r hr left right mid hrhs hm hm' ?_ ?_).mono hw.toExtends
    · exact (Covers.congr (hw.cell f mid (by omega))).mp hl
    · exact (Covers.congr (hw.cell mid l (by omega))).mp hr'
  spelled r hr hu hlength hphrase := hw.allows _ _ _ (h.spelled r hr hu hlength hphrase)
  unary r hr hu ha := by
    refine hw.links _ _ (h.unary r hr hu ?_)
    unfold CoarseChart.allows at ha ⊢
    rwa [hw.cell f l (by omega)] at ha

/-- What the coarse parser of a list of rules has. -/
structure IsParserOf (parser : CoarseParser) (rules : List Rule) : Prop where
  length : ∀ r ∈ rules, r.rhs.length ≤ 2
  pairs : parser.pairs = CoarseParser.pairsOf rules
  unaries : UnaryOrder.sort rules = .ok parser.unaries
  literals : parser.literals = rules.filter fun r => !r.isCatUnary && r.rhs.length != 2

theorem isParserOf_ofRules {rules : List Rule} {parser : CoarseParser}
    (h : CoarseParser.ofRules rules = .ok parser) : IsParserOf parser rules := by
  unfold CoarseParser.ofRules at h
  split at h
  · cases h
  · rename_i hfind
    obtain ⟨unaries, hsort, hparser⟩ := bind_eq_ok.mp h
    rw [List.find?_eq_none] at hfind
    rw [← Except.ok.inj hparser]
    exact ⟨fun r hr => by simpa using hfind r hr, rfl, hsort, rfl⟩

/-- **Work on a span** closes its cell. -/
theorem filled_span {parser : CoarseParser} {rules : List Rule} (hparser : IsParserOf parser rules)
    {ex : Example} (hs : c.HasSpan first last) (hl : last ≤ ex.length) :
    Worked first last c ((c.addBinary parser ex first last).addUnary parser ex first last) ∧
      Filled rules ex ((c.addBinary parser ex first last).addUnary parser ex first last) first last := by
  obtain ⟨hw, hmade⟩ := worked_addBinary parser hs hl
  obtain ⟨hw', hlit, hun⟩ := worked_addUnary parser ex ((hw.hasSpan _ _).mpr hs)
    (UnaryOrder.pairwise_sort hparser.unaries)
  refine ⟨hw.trans hw', ?_, ?_, ?_⟩
  · intro r hr left right mid hrhs hm hm' hcl hcr
    have hsub := (hw.trans hw').cell
    refine (hmade mid hm hm' left right r.lhs ?_ ?_ ?_).mono hw'.toExtends
    · exact (Covers.congr (hsub first mid (by omega))).mp hcl
    · exact (Covers.congr (hsub mid last (by omega))).mp hcr
    · rw [hparser.pairs]
      exact makesPair_pairsOf hr hrhs
  · intro r hr hu hlength hphrase
    refine hlit r ?_ hphrase
    rw [hparser.literals, List.mem_filter]
    exact ⟨hr, by simp [hu, hlength]⟩
  · intro r hr hu ha
    exact hun r ((UnaryOrder.mem_sort hparser.unaries).mpr ⟨hr, hu⟩) ha

/-- **A filled chart** is closed under rules over all spans. -/
theorem filled_fill {parser : CoarseParser} {rules : List Rule} (hparser : IsParserOf parser rules)
    {ex : Example} (hlen : c.length = ex.length) (hs : ∀ f l, f < l → l ≤ ex.length → c.HasSpan f l) :
    c.Extends (c.fill parser ex) ∧
      ∀ f l, f < l → l ≤ ex.length → Filled rules ex (c.fill parser ex) f l := by
  have h := foldl_induct
    (P := fun pre d => c.Extends d ∧ ∀ span ∈ pre, Filled rules ex d span.1 span.2)
    (spansByLength c.length) c
    (f := fun chart (span : Nat × Nat) =>
      (chart.addBinary parser ex span.1 span.2).addUnary parser ex span.1 span.2)
    ⟨.refl c, by simp⟩ (by
      rintro pre ⟨first, last⟩ post d hspans ⟨hd, hdone⟩
      have hmem : (first, last) ∈ spansByLength c.length := hspans ▸ by simp
      obtain ⟨hf, hl⟩ := mem_spansByLength.mp hmem
      rw [hlen] at hl
      obtain ⟨hw, hfilled⟩ := filled_span hparser ((hd.hasSpan _ _).mpr (hs first last hf hl)) hl
      refine ⟨hd.trans hw.toExtends, fun span hspan => ?_⟩
      rcases List.mem_append.mp hspan with hspan | hspan
      · exact (hdone span hspan).worked hw (not_within_of_mem hspans hspan)
      · obtain rfl := List.mem_singleton.mp hspan
        exact hfilled)
  refine ⟨h.1, fun f l hf hl => h.2 (f, l) ?_⟩
  exact mem_spansByLength.mpr ⟨hf, hlen ▸ hl⟩

/-! ## Seeds -/

theorem hasSpan_replicate {n : Nat} {f l : Nat} :
    HasSpan { length := n, cells := .replicate n .empty } f l ↔ f < n ∧ l ≤ n := by
  unfold HasSpan
  rw [Grid.get?_replicate]
  split
  case isTrue h => exact iff_of_true rfl h
  case isFalse h => exact iff_of_false (by simp) h

/-- Two categories are added over each of several spans. -/
theorem extends_addBoth {β : Type} {l : List β} (first last : β → Nat) (a b : String)
    (hs : ∀ x ∈ l, c.HasSpan (first x) (last x)) :
    c.Extends (l.foldl (fun chart x => (chart.add a (first x) (last x) []).add b (first x) (last x) []) c) ∧
      ∀ x ∈ l, ∀ cat ∈ [a, b],
        (l.foldl (fun chart x => (chart.add a (first x) (last x) []).add b (first x) (last x) []) c).allows cat
          (first x) (last x) = true := by
  refine Extends.foldl (Q := fun x d => ∀ cat ∈ [a, b], d.allows cat (first x) (last x) = true)
    (fun x _ _ hx h cat hc => hx.allows _ _ _ (h cat hc)) fun x hx d hd => ?_
  have hsd : d.HasSpan (first x) (last x) := (hd.hasSpan _ _).mpr (hs x hx)
  have hsa : (d.add a (first x) (last x) []).HasSpan (first x) (last x) := hasSpan_add.mpr hsd
  refine ⟨(extends_add hsd a []).trans (extends_add hsa b []), fun cat hc => ?_⟩
  rcases List.mem_pair.mp hc with rfl | rfl
  · exact (allows_add_iff hsa).mpr (Or.inl ((allows_add_iff hsd).mpr (Or.inr ⟨rfl, rfl, rfl⟩)))
  · exact (allows_add_iff hsa).mpr (Or.inr ⟨rfl, rfl, rfl⟩)

/-- **The chart at the start** has the cells of a text, and the tokens and phrases in them. -/
theorem seed_spec (ex : Example) :
    (seed ex.length).length = ex.length ∧
      (∀ f l, (seed ex.length).HasSpan f l ↔ f < ex.length ∧ l ≤ ex.length) ∧
      ∀ t ∈ Progress.terminals ex, (seed ex.length).allows t.cat t.first t.last = true := by
  obtain ⟨htokens, hfound⟩ := extends_addBoth (c := { length := ex.length, cells := .replicate ex.length .empty })
    (l := List.range ex.length) (fun i => i) (fun i => i + 1) tokenCat lemmaTokenCat
    fun i hi => hasSpan_replicate.mpr ⟨List.mem_range.mp hi, List.mem_range.mp hi⟩
  obtain ⟨hphrases, hfound'⟩ := extends_addBoth (l := spansByStart ex.length) Prod.fst Prod.snd phraseCat
    lemmaPhraseCat fun span hspan => (htokens.hasSpan _ _).mpr (hasSpan_replicate.mpr (by
      obtain ⟨hf, hl⟩ := mem_spansByStart.mp hspan
      exact ⟨by omega, hl⟩))
  refine ⟨(htokens.trans hphrases).length,
    fun f l => ((htokens.trans hphrases).hasSpan f l).trans hasSpan_replicate, fun t ht => ?_⟩
  rcases List.mem_append.mp ht with ht | ht
  · obtain ⟨i, hi, ht⟩ := List.mem_flatMap.mp ht
    rcases List.mem_pair.mp ht with rfl | rfl
    · exact hphrases.allows _ _ _ (hfound i hi _ List.mem_cons_self)
    · exact hphrases.allows _ _ _ (hfound i hi _ (List.mem_cons_of_mem _ List.mem_cons_self))
  · obtain ⟨span, hspan, ht⟩ := List.mem_flatMap.mp ht
    rcases List.mem_pair.mp ht with rfl | rfl
    · exact hfound' span hspan _ List.mem_cons_self
    · exact hfound' span hspan _ (List.mem_cons_of_mem _ List.mem_cons_self)

end CoarseChart

end Parlance
