import Parlance.Proofs.Layout
import Parlance.Proofs.Moments
import Parlance.Proofs.Seed

/-!
# `Proofs.WellMade` — bottom-up parses are well made

At every moment of a parse each derivation covers its span by its rule and by derivations that were made before
it, and each number in the chart stands in the cell of its derivation. Neither limits nor noise nor the beam have a
part in this: a derivation that is dropped, or that is scored anew, keeps its shape.

## Contents
- **Cells.** `Chart.Lists`, what is in a cell, and what writing can add to it.
- **Well-made states.** `Progress.WellMade`, kept by `insert` and by everything that leaves the shapes alone.
- **Applications.** `Application.shape`, the shape of whatever a rule makes.
- **Bottom up.** Every list of moments, from a single rule to `wellMade_moments`.
-/

namespace Parlance

open Progress

variable {α : Type}

/-! ## Cells -/

namespace Chart

/-- Whether a number is listed in the cell of a span, under a category. -/
def Lists (chart : Chart α) (first last : Nat) (cat : String) (i : Nat) : Prop :=
  ∃ l, (cat, l) ∈ chart.entries first last ∧ i ∈ l

variable {chart : Chart α} {first last f l i j : Nat} {cat c : String}

theorem Lists.of_cells {chart' : Chart α} (h : chart.Lists first last cat i) (hcells : chart.cells = chart'.cells) :
    chart'.Lists first last cat i := by
  unfold Lists entries cell? at h ⊢
  rwa [← hcells]

theorem lists_of_mem_get (h : i ∈ chart.get first last cat) : chart.Lists first last cat i := by
  rw [get_eq, Table.get?] at h
  cases hfind : Table.find cat (chart.cellAt first last).toList with
  | none => simp [hfind] at h
  | some l =>
    refine ⟨l, ?_, by simpa [hfind] using h⟩
    rw [entries_eq]
    exact Table.mem_of_find hfind

/-- After a write to the table of a cell, an entry is an old one or the one that was written. -/
theorem mem_entries_modify (chart : Chart α) {g : Option (List Nat) → List Nat} {ds : List Nat} {chart' : Chart α}
    (hcells : chart'.cells = chart.cells.modify first last fun cell => cell.update cat g)
    (h : (c, ds) ∈ chart'.entries f l) :
    (c, ds) ∈ chart.entries f l ∨
      (f = first ∧ l = last ∧ c = cat) ∧ ds = g ((chart.cellAt first last).get? cat) := by
  by_cases hs : f = first ∧ l = last
  case pos =>
    obtain ⟨rfl, rfl⟩ := hs
    unfold entries cell? at h ⊢
    unfold cellAt cell?
    rw [hcells, Grid.get?_modify_self] at h
    cases hcell : chart.cells.get? f l with
    | none => simp [hcell] at h
    | some cell =>
      rw [hcell] at h
      rcases Table.mem_put h with h | ⟨rfl, rfl⟩
      · exact .inl h
      · exact .inr ⟨⟨rfl, rfl, rfl⟩, rfl⟩
  case neg =>
    unfold entries cell? at h ⊢
    rw [hcells, Grid.get?_modify_of_ne _ hs] at h
    exact .inl h

theorem Lists.of_push (h : (chart.push first last cat i).Lists f l c j) :
    chart.Lists f l c j ∨ (f = first ∧ l = last ∧ c = cat) ∧ j = i := by
  obtain ⟨ds, hds, hj⟩ := h
  rcases mem_entries_modify chart rfl hds with hds | ⟨hat, rfl⟩
  · exact .inl ⟨ds, hds, hj⟩
  · obtain ⟨rfl, rfl, rfl⟩ := hat
    rcases List.mem_append.mp hj with hj | hj
    · exact .inl (lists_of_mem_get (by rw [get_eq]; exact hj))
    · exact .inr ⟨⟨rfl, rfl, rfl⟩, List.mem_singleton.mp hj⟩

/-- Setting a cell to a part of what it has adds nothing. -/
theorem Lists.of_setCell (chart : Chart α) {v : List Nat} (hv : v ⊆ chart.get first last cat)
    (h : (chart.setCell first last cat v).Lists f l c j) : chart.Lists f l c j := by
  unfold setCell at h
  split at h
  case isFalse => exact h
  case isTrue =>
    obtain ⟨ds, hds, hj⟩ := h
    rcases mem_entries_modify chart rfl hds with hds | ⟨hat, rfl⟩
    · exact ⟨ds, hds, hj⟩
    · obtain ⟨rfl, rfl, rfl⟩ := hat
      exact lists_of_mem_get (hv hj)

variable [Score α]

theorem Lists.of_sortCell {arena : Arena α} (h : (chart.sortCell arena first last cat).Lists f l c j) :
    chart.Lists f l c j := .of_setCell chart (arena.sort_perm _).subset h

end Chart

namespace Arena

theorem shapes_notePlaces {note : Arena α → Nat → Nat → Arena α}
    (h : ∀ arena place i, (note arena place i).shapes = arena.shapes) (arena : Arena α) (l : List Nat) :
    (notePlaces note arena l).shapes = arena.shapes := shapes_foldl (fun arena _ => h arena _ _) arena _

variable [Score α]

theorem shapes_noteUnsorted (arena : Arena α) (place i : Nat) :
    (noteUnsorted arena place i).shapes = arena.shapes := shapes_modify arena i fun _ => rfl

theorem shapes_noteSorted (arena : Arena α) (place i : Nat) :
    (noteSorted arena place i).shapes = arena.shapes := shapes_modify arena i fun _ => rfl

theorem shapes_disturb (beam : Beam α) (arena : Arena α) (drawn : Nat) (l : List Nat) :
    (disturb beam arena drawn l).shapes = arena.shapes := by
  unfold disturb
  refine shapes_foldl (fun arena pair => ?_) arena _
  exact shapes_modify arena pair.1 fun _ => rfl

/-- Cutting a cell leaves the shapes alone, whatever noise there is. -/
theorem shapes_prune (chart : Chart α) (arena : Arena α) (first last : Nat) (cat : String) :
    (chart.prune arena first last cat).2.shapes = arena.shapes := by
  by_cases h : chart.get first last cat = []
  case pos => rw [Chart.prune_of_empty arena h]
  case neg =>
    unfold Chart.prune
    rw [if_neg (by simpa using h)]
    refine (shapes_notePlaces shapes_noteSorted _ _).trans ?_
    split
    · exact (shapes_disturb _ _ _ _).trans (shapes_notePlaces shapes_noteUnsorted _ _)
    · exact shapes_notePlaces shapes_noteUnsorted _ _

end Arena

namespace Chart

variable [Score α] {chart : Chart α} {first last f l j : Nat} {cat c : String}

/-- What is kept of a cell that is cut was there before. -/
theorem exists_kept (arena : Arena α) (h : chart.get first last cat ≠ []) :
    ∃ stats drawn kept, kept ⊆ chart.get first last cat ∧
      (chart.prune arena first last cat).1 = { chart with stats, drawn }.setCell first last cat kept := by
  unfold prune
  rw [if_neg (by simpa using h)]
  refine ⟨_, _, _, ?_, rfl⟩
  exact fun i hi => (Arena.sort_perm _ _).subset ((Beam.cut_sublist _ _ _).subset hi)

/-- Cutting a cell adds nothing to the chart. -/
theorem Lists.of_prune {arena : Arena α} (hj : (chart.prune arena first last cat).1.Lists f l c j) :
    chart.Lists f l c j := by
  by_cases h : chart.get first last cat = []
  case pos => rwa [prune_of_empty arena h] at hj
  case neg =>
    obtain ⟨stats, drawn, kept, hkept, he⟩ := exists_kept arena h
    rw [he] at hj
    exact Lists.of_setCell { chart with stats, drawn } hkept hj

end Chart

/-! ## Well-made states -/

/-- The shape of what a rule makes. -/
def Progress.Application.shape (a : Application) : Shape := ⟨a.rule.lhs, a.first, a.last, a.rule, a.children⟩

namespace Progress

variable {ex : Example} {p q r : Progress α}

/-- **What is true of a parse at every moment.** -/
structure WellMade (ex : Example) (p : Progress α) : Prop where
  arena : ∀ (i : Nat) (s : Shape), p.arena.shapes[i]? = some s → s.Proper ex (p.arena.shapes.take i)
  chart : ∀ f l c i, p.chart.Lists f l c i →
    ∃ s : Shape, p.arena.shapes[i]? = some s ∧ s.first = f ∧ s.last = l ∧ s.cat = c

/-- A parse with the same shapes, and with nothing new in its chart. -/
theorem WellMade.congr (h : p.WellMade ex) (hshapes : q.arena.shapes = p.arena.shapes)
    (hchart : ∀ f l c i, q.chart.Lists f l c i → p.chart.Lists f l c i) : q.WellMade ex where
  arena i s hs := by
    rw [hshapes] at hs ⊢
    exact h.arena i s hs
  chart f l c i hi := by
    rw [hshapes]
    exact h.chart f l c i (hchart f l c i hi)

/-- **Putting in a derivation** with a proper shape. -/
theorem WellMade.insert (h : p.WellMade ex) {d : Derivation α} (hd : d.shape.Proper ex p.arena.shapes) :
    (p.insert d).WellMade ex where
  arena i s hs := by
    change (p.arena.push d).shapes[i]? = some s at hs
    show s.Proper ex ((p.arena.push d).shapes.take i)
    rw [Arena.shapes_push] at hs ⊢
    rcases Nat.lt_trichotomy i p.arena.shapes.length with hi | hi | hi
    · rw [List.getElem?_append_left hi] at hs
      rw [List.take_append_of_le_length (Nat.le_of_lt hi)]
      exact h.arena i s hs
    · subst hi
      rw [List.getElem?_concat_length] at hs
      rw [List.take_left, ← Option.some.inj hs]
      exact hd
    · rw [List.getElem?_eq_none (by rw [List.length_append]; exact hi)] at hs
      cases hs
  chart f l c i hi := by
    show ∃ s, (p.arena.push d).shapes[i]? = some s ∧ _
    rw [Arena.shapes_push]
    rcases Chart.Lists.of_push hi with hi | ⟨⟨rfl, rfl, rfl⟩, rfl⟩
    · obtain ⟨s, hs, hat⟩ := h.chart f l c i hi
      exact ⟨s, Shape.getElem?_of_isPrefix (List.prefix_append _ _) hs, hat⟩
    · refine ⟨d.shape, ?_, rfl, rfl, rfl⟩
      rw [← Arena.length_shapes, List.getElem?_concat_length]

/-- **A later moment of a parse.** -/
structure Follows (ex : Example) (p q : Progress α) : Prop where
  wellMade : q.WellMade ex
  isPrefix : p.arena.shapes <+: q.arena.shapes

theorem Follows.refl (h : p.WellMade ex) : Follows ex p p := ⟨h, List.prefix_rfl⟩

theorem Follows.trans (h : Follows ex p q) (h' : Follows ex q r) : Follows ex p r :=
  ⟨h'.wellMade, h.isPrefix.trans h'.isPrefix⟩

variable [Score α] {task : Task α}

theorem shape_rated (task : Task α) (p : Progress α) (d : Derivation α) : (p.rated task d).shape = d.shape := by
  obtain ⟨features, score, h⟩ := rated_eq task p d
  rw [h]
  rfl

/-- Scoring a derivation changes nothing but figures. -/
theorem follows_featurize (task : Task α) (h : p.WellMade ex) (d : Derivation α) :
    Follows ex p (p.featurize task d).2 := by
  unfold featurize
  split
  · exact .refl h
  · exact ⟨h.congr rfl fun _ _ _ _ hi => hi, List.prefix_rfl⟩

omit [Score α] in
theorem follows_addToChart (h : p.WellMade ex) {d : Derivation α} (hd : d.shape.Proper ex p.arena.shapes) :
    Follows ex p (p.addToChart task d) := by
  unfold addToChart
  split
  · exact .refl h
  · have hcount : p.count.WellMade ex := h.congr rfl fun _ _ _ _ hi => hi
    refine ⟨hcount.insert hd, ?_⟩
    show p.arena.shapes <+: (p.arena.push d).shapes
    rw [Arena.shapes_push]
    exact List.prefix_append _ _

/-- **Adding a result** of a rule that covers its span. -/
theorem follows_record (h : p.WellMade ex) {o : Output} (hshape : o.application.shape.Proper ex p.arena.shapes) :
    Follows ex p (p.record task o) := by
  have hmade : (p.make task o.application o.candidate).2.WellMade ex := h.congr rfl fun _ _ _ _ hi => hi
  have hfeat := follows_featurize task hmade (p.make task o.application o.candidate).1
  have hscored : Follows ex p ((p.make task o.application o.candidate).2.featurize task
    (p.make task o.application o.candidate).1).2 := ⟨hfeat.wellMade, hfeat.isPrefix⟩
  refine hscored.trans (follows_addToChart hfeat.wellMade ?_)
  show ((p.make task o.application o.candidate).2.rated task _).shape.Proper ex _
  rw [shape_rated]
  exact Shape.Proper.mono hshape hfeat.isPrefix

end Progress

/-! ## Applications -/

namespace Progress

variable {ex : Example} {task : Task α} {p : Progress α}

/-- **A grammar and a text that go together**: the rules make categories, and no token of the text is a category that
a rule asks for. -/
structure Suits (rules : List Rule) (ex : Example) : Prop where
  cats : ∀ r ∈ rules, isCat r.lhs = true
  free : ∀ r ∈ rules, ∀ t ∈ r.rhs, t ∈ ex.info.tokens → isCat t = false

/-- The derivations with some numbers have some shapes. -/
def Shaped (p : Progress α) (numbers : List Nat) (kids : List Shape) : Prop :=
  List.Forall₂ (fun c k => p.arena.shapes[c]? = some k) numbers kids

theorem Shaped.concat {numbers : List Nat} {kids : List Shape} {c : Nat} {k : Shape} (h : p.Shaped numbers kids)
    (hc : p.arena.shapes[c]? = some k) : p.Shaped (numbers ++ [c]) (kids ++ [k]) :=
  List.rel_append h (.cons hc .nil)

/-- **An application that covers a span**: the symbols of its rule lie on the span, with its children for the
categories. -/
structure Application.Covers (task : Task α) (p : Progress α) (rules : List Rule) (first last : Nat)
    (a : Application) : Prop where
  rule : a.rule ∈ rules
  canBuild : task.canBuild a.rule first last = true
  starts : a.first = first
  ends : a.last = last
  laidOut : ∃ kids, p.Shaped a.children kids ∧ LaidOut task.ex first a.rule.rhs kids last

variable {rules : List Rule} {first last : Nat} {a : Application}

theorem first_last_of_canBuild {r : Rule} (h : task.canBuild r first last = true) (hroot : r.lhs = rootCat) :
    first = 0 ∧ last = task.length := by
  simp only [Task.canBuild, hroot, bne_self_eq_false, Bool.false_or, Bool.and_eq_true, beq_iff_eq] at h
  exact h.1

/-- Whatever a rule makes that covers a span is proper. -/
theorem Application.Covers.proper (h : a.Covers task p rules first last) (hs : Suits rules task.ex)
    (hf : first < last) (hl : last ≤ task.length) : a.shape.Proper task.ex p.arena.shapes := by
  obtain ⟨hrule, hbuild, rfl, rfl, kids, hkids, hlaid⟩ := h
  exact {
    lt := hf
    le := hl
    isCat := hs.cats _ hrule
    root := fun hroot => first_last_of_canBuild hbuild hroot
    parse := fun _ => ⟨rfl, kids, hkids, Shape.parses_of_laidOut hlaid (hs.free _ hrule)⟩ }

/-- One more symbol, which is the category of a derivation that starts there. -/
theorem WellMade.laidOut_part (h : p.WellMade ex) {symbols : List String} {numbers : List Nat} {kids : List Shape}
    {from_ c : Nat} {k : Shape} (hkids : p.Shaped numbers kids) (hc : p.arena.shapes[c]? = some k)
    (hlaid : LaidOut ex from_ symbols kids k.first) :
    ∃ kids, p.Shaped (numbers ++ [c]) kids ∧ LaidOut ex from_ (symbols ++ [k.cat]) kids k.last := by
  have hproper := h.arena c k hc
  exact ⟨kids ++ [k], hkids.concat hc, .part hlaid hproper.isCat hproper.lt hproper.le⟩

/-- One more symbol, which is the category of what stands in a cell. -/
theorem WellMade.laidOut_concat (h : p.WellMade ex) {symbols : List String} {numbers : List Nat}
    {kids : List Shape} {from_ i j : Nat} {cat : String} {c : Nat} (hkids : p.Shaped numbers kids)
    (hlaid : LaidOut ex from_ symbols kids i) (hc : p.chart.Lists i j cat c) :
    ∃ kids, p.Shaped (numbers ++ [c]) kids ∧ LaidOut ex from_ (symbols ++ [cat]) kids j := by
  obtain ⟨k, hk, rfl, rfl, rfl⟩ := h.chart _ _ _ _ hc
  exact h.laidOut_part hkids hk hlaid

end Progress

/-! ## Bottom up -/

namespace BottomUp

variable {task : Task α} {p q : Progress α} {rules unaries : List Rule} {first last : Nat} {a : Application}

/-- Where symbols are laid out up to the end of the span, the rules that end at their node cover it. -/
theorem covers_of_mem_endings {l : List NumberedRule} {path : List String} {trie : Trie}
    (hfiled : Trie.Filed l path trie) {children : List Nat} {kids : List Shape} (hkids : p.Shaped children kids)
    (hlaid : LaidOut task.ex first path kids last) (ha : a ∈ endings task first last trie children) :
    a.Covers task p (l.map NumberedRule.rule) first last := by
  obtain ⟨r, hr, hrhs, hbuild, rfl⟩ := exists_of_mem_endings hfiled ha
  refine ⟨List.mem_map_of_mem hr, hbuild, rfl, rfl, kids, hkids, ?_⟩
  rw [hrhs]
  exact hlaid

/-- **The walk through the trie** lays out symbols from the start of the span to its end. -/
theorem Way.covers (h : p.WellMade task.ex) {l : List NumberedRule} {path : List String} {trie : Trie}
    (hfiled : Trie.Filed l path trie) {i : Nat} {children : List Nat} {kids : List Shape} (hi : i ≤ last)
    (hl : last ≤ task.length) (hkids : p.Shaped children kids) (hlaid : LaidOut task.ex first path kids i)
    (way : Way task p.chart first last a i trie children) :
    a.Covers task p (l.map NumberedRule.rule) first last := by
  induction way generalizing path kids with
  | ends hend ha =>
    obtain rfl := Nat.le_antisymm hi hend
    exact covers_of_mem_endings hfiled hkids hlaid ha
  | token hi' hnext _ ih =>
    exact ih (hfiled.next hnext) hi' hkids (.token hlaid (Nat.lt_of_lt_of_le hi' hl))
  | part _ hj _ hentry hd hnext _ ih =>
    obtain ⟨kids', hkids', hlaid'⟩ := h.laidOut_concat hkids hlaid ⟨_, hentry, hd⟩
    exact ih (hfiled.next hnext) hj hkids' hlaid'

theorem covers_of_mem_wholeSpan (h : p.WellMade task.ex) {l : List NumberedRule} {trie : Trie}
    (hfiled : Trie.Filed l [] trie)
    (ha : a ∈ wholeSpan task p.chart first last trie) :
    a.Covers task p (l.map NumberedRule.rule) first last := by
  obtain ⟨cat, ds, next, d, hentry, hd, hnext, ha⟩ := exists_of_mem_wholeSpan ha
  obtain ⟨kids, hkids, hlaid⟩ := h.laidOut_concat .nil .nil ⟨ds, hentry, hd⟩
  exact covers_of_mem_endings (hfiled.next hnext) hkids hlaid ha

theorem covers_unary (h : p.WellMade task.ex) {rule : Rule} (hr : rule ∈ rules) (hunary : rule.isCatUnary = true)
    (hbuild : task.canBuild rule first last = true)
    (ha : a ∈ (p.chart.get first last rule.target).map
      fun d => ({ rule, first, last, children := [d] } : Application)) :
    a.Covers task p rules first last := by
  obtain ⟨d, hd, rfl⟩ := List.mem_map.mp ha
  refine ⟨hr, hbuild, rfl, rfl, ?_⟩
  have hlaid := h.laidOut_concat .nil .nil (Chart.lists_of_mem_get hd)
  show ∃ kids, p.Shaped [d] kids ∧ LaidOut task.ex first rule.rhs kids last
  rw [Rule.rhs_of_isCatUnary hunary]
  exact hlaid

variable [Score α]

/-! ### Rules -/

theorem follows_resultMoments {ex : Example} (items : List (Except SemanticError Candidate)) (h : p.WellMade ex)
    (ha : a.shape.Proper ex p.arena.shapes) : ∀ q ∈ resultMoments task a items p, Follows ex p q := by
  induction items generalizing p with
  | nil =>
    intro q hq
    rw [List.mem_singleton.mp hq]
    exact .refl h
  | cons item rest ih =>
    cases item with
    | error e =>
      intro q hq
      rw [List.mem_singleton.mp hq]
      exact .refl h
    | ok candidate =>
      intro q hq
      have hadded : Follows ex p (p.record task ⟨a, candidate⟩) := follows_record h ha
      rcases List.mem_cons.mp hq with rfl | hq
      · exact .refl h
      · split at hq
        · rw [List.mem_singleton.mp hq]
          exact hadded
        · exact hadded.trans (ih hadded.wellMade (ha.mono hadded.isPrefix) q hq)

theorem follows_applyMoments {ex : Example} (h : p.WellMade ex) (ha : a.shape.Proper ex p.arena.shapes) :
    ∀ q ∈ applyMoments task p a, Follows ex p q := by
  unfold applyMoments
  split
  · intro q hq
    rw [List.mem_singleton.mp hq]
    exact .refl h
  · exact follows_resultMoments _ h ha

theorem follows_applyAllMoments (task : Task α) {ex : Example} {l : List Application} (h : p.WellMade ex)
    (hl : ∀ a ∈ l, a.shape.Proper ex p.arena.shapes) : ∀ q ∈ applyAllMoments task p l, Follows ex p q := by
  refine forall_mem_foldMoments (P := Follows ex p) (.refl h) ?_ fun _ _ _ _ => mem_applyMoments
  intro a ha r hr q hq
  -- an application goes on to be proper while others are carried out
  exact hr.trans (follows_applyMoments hr.wellMade ((hl a ha).mono hr.isPrefix) q hq)

/-! ### Spans -/

theorem follows_pruneOnce (first last : Nat) {ex : Example} {state : Progress α × List String}
    (h : state.1.WellMade ex) (cat : String) :
    Follows ex state.1 (pruneOnce first last state cat).1 := by
  obtain ⟨p, pruned⟩ := state
  by_cases hc : cat ∈ pruned
  case pos =>
    rw [pruneOnce_of_mem hc]
    exact .refl h
  case neg =>
    rw [pruneOnce_of_not_mem hc]
    have hshapes := Arena.shapes_prune p.chart p.arena first last cat
    refine ⟨h.congr hshapes fun _ _ _ _ hi => hi.of_prune, ?_⟩
    show p.arena.shapes <+: (p.chart.prune p.arena first last cat).2.shapes
    rw [hshapes]

theorem follows_unaryMoments (hs : Suits rules task.ex) (hf : first < last) (hl : last ≤ task.length)
    {state : Progress α × List String} (h : state.1.WellMade task.ex) {rule : Rule} (hr : rule ∈ rules)
    (hunary : rule.isCatUnary = true) : ∀ q ∈ unaryMoments task first last state rule, Follows task.ex state.1 q := by
  intro q hq
  unfold unaryMoments at hq
  split at hq
  case isTrue =>
    rw [List.mem_singleton.mp hq]
    exact .refl h
  case isFalse hbuild =>
    have hcut := follows_pruneOnce first last h rule.target
    rcases List.mem_cons.mp hq with rfl | hq
    · exact .refl h
    · refine hcut.trans (follows_applyAllMoments task hcut.wellMade (fun a ha => ?_) q hq)
      exact (covers_unary hcut.wellMade hr hunary (by simpa using hbuild) ha).proper hs hf hl

theorem follows_cutMoments {ex : Example} {state : Progress α × List String} (h : state.1.WellMade ex) :
    ∀ q ∈ cutMoments first last state, Follows ex state.1 q := by
  intro q hq
  obtain ⟨t, ht, rfl⟩ := List.mem_map.mp hq
  refine forall_mem_scanl (P := fun t : Progress α × List String => Follows ex state.1 t.1) (.refl h) ?_ t ht
  intro cat _ u hu
  exact hu.trans (follows_pruneOnce first last hu.wellMade cat)

/-- **Building a span.** -/
theorem follows_spanMoments (hs : Suits rules task.ex) (hsort : UnaryOrder.sort rules = .ok unaries) (hf : first < last)
    (hl : last ≤ task.length) (h : p.WellMade task.ex) :
    ∀ q ∈ spanMoments task (trieOf rules) unaries p (first, last), Follows task.ex p q := by
  have hfiled := filed_trieOf rules
  have hproper : ∀ {p : Progress α} {a : Application},
      a.Covers task p (((numberRules rules).filter fun r => !r.rule.isCatUnary).map NumberedRule.rule) first last →
      a.shape.Proper task.ex p.arena.shapes := fun hc =>
    Application.Covers.proper { hc with rule := rule_mem_of_mem_trieOf hc.rule } hs hf hl
  intro q hq
  have hparts := follows_applyAllMoments task h fun a ha =>
    hproper ((way_of_mem_coverings ha).covers h hfiled (Nat.le_of_lt hf) hl .nil .nil)
  rcases List.mem_append.mp hq with hq | hq
  · exact hparts q hq
  obtain ⟨p₁, h₁, hq⟩ := mem_andThen.mp hq
  have hp₁ := hparts p₁ (mem_applyAllMoments h₁)
  have hwhole := follows_applyAllMoments task hp₁.wellMade fun a ha =>
    hproper (covers_of_mem_wholeSpan hp₁.wellMade hfiled ha)
  rcases List.mem_append.mp hq with hq | hq
  · exact hp₁.trans (hwhole q hq)
  obtain ⟨p₂, h₂, hq⟩ := mem_andThen.mp hq
  have hp₂ := hp₁.trans (hwhole p₂ (mem_applyAllMoments h₂))
  have hunary : ∀ r ∈ foldMoments (applyUnary task first last) (unaryMoments task first last) Prod.fst unaries
      (p₂, []), Follows task.ex p r := by
    refine forall_mem_foldMoments (P := Follows task.ex p) hp₂ ?_ fun _ _ _ _ => mem_unaryMoments
    intro rule hrule state hstate r hr
    obtain ⟨hmem, hcat⟩ := (UnaryOrder.mem_sort hsort).mp hrule
    exact hstate.trans (follows_unaryMoments hs hf hl hstate.wellMade hmem hcat r hr)
  rcases List.mem_append.mp hq with hq | hq
  · exact hunary q hq
  obtain ⟨state, h₃, hq⟩ := mem_andThen.mp hq
  have hp₃ : Follows task.ex p state.1 := hunary _ (mem_foldMoments h₃)
  exact hp₃.trans (follows_cutMoments hp₃.wellMade q hq)

/-! ### Texts -/

omit [Score α] in
theorem wellMade_start (task : Task α) (ex : Example) : (startWithTerminals task).WellMade ex where
  arena i s hs := by cases hs
  chart f l c i hi := by
    obtain ⟨ds, hds, -⟩ := hi
    change (c, ds) ∈ (Chart.new task.length task.beam).entries f l at hds
    rw [Chart.entries_eq, Chart.cellAt_new] at hds
    cases hds

/-- Tokens and phrases are proper without any rule. -/
theorem proper_terminal {d : Derivation α} (hd : d ∈ terminalDerivations task) (before : List Shape) :
    d.shape.Proper task.ex before := by
  obtain ⟨t, ht, n, rfl⟩ := exists_terminal hd
  obtain ⟨hf, hl, hcat⟩ := mem_terminals ht
  exact {
    lt := hf
    le := hl
    isCat := isCat_of_mem_builtinCats _ hcat
    root := fun hroot => by
      have hroot : t.cat = rootCat := hroot
      rw [hroot] at hcat
      exact absurd hcat (by decide)
    parse := fun hnull => by
      have hnull : Rule.null.isNull = false := hnull
      exact absurd hnull (by decide) }

theorem wellMade_plant {ex : Example} (h : p.WellMade ex) {d : Derivation α}
    (hd : ∀ before, d.shape.Proper ex before) : (plant task p d).WellMade ex := by
  have hfeat := follows_featurize task h d
  refine (follows_addToChart hfeat.wellMade ?_).wellMade
  show (p.rated task d).shape.Proper ex _
  rw [shape_rated]
  exact hd _

theorem wellMade_seedMoments : ∀ q ∈ seedMoments task, WellMade task.ex q :=
  forall_mem_scanl (P := WellMade task.ex) (wellMade_start task task.ex) fun _ hd _ h =>
    wellMade_plant h (proper_terminal hd)

/-- **Every moment of a bottom-up parse is well made**, whatever the limits, the noise and the beam are. -/
theorem wellMade_moments (hs : Suits rules task.ex) (hsort : UnaryOrder.sort rules = .ok unaries) :
    ∀ q ∈ moments task (trieOf rules) unaries, WellMade task.ex q := by
  have hseed : WellMade task.ex (seed task) := wellMade_seedMoments _ (foldl_mem_scanl _ _ _)
  have hspans : ∀ q ∈ foldMoments (buildSpan task (trieOf rules) unaries) (spanMoments task (trieOf rules) unaries) id
      (spansByLength task.length) (seed task), WellMade task.ex q := by
    refine forall_mem_foldMoments hseed ?_ fun _ _ _ _ => mem_spanMoments
    rintro ⟨first, last⟩ hspan p hp r hr
    obtain ⟨hf, hl⟩ := mem_spansByLength.mp hspan
    exact (follows_spanMoments hs hsort hf hl hp r hr).wellMade
  intro q hq
  rcases List.mem_append.mp hq with hq | hq
  · exact wellMade_seedMoments q hq
  · exact hspans q hq

end BottomUp

end Parlance
