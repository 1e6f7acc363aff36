import Parlance.Parse.Parser
import Parlance.Proofs.Run

/-!
# `Proofs.Completeness` — the bottom-up parse finds every derivation once

If nothing falls off the beam, a cell holds exactly what the grammar says that it holds: the tokens and phrases,
and one derivation for each rule of the category, each way to cover the span by the right-hand side of the rule,
and each result of its semantic function there. The ways are counted by the finished chart: whatever a cell is
made of was complete when it was read.

## Contents
- **What the grammar says.** `essence`, `produce`, `ruled`, `Progress.Holds`.
- **Applying.** What applications add to a cell.
- **Unary rules.** `UnariesDone`, kept by each of them.
- **Spans.** `content_buildSpan`: what a span holds once it was built.
- **Texts.** `SpansDone`, kept by each span, and so `spansDone_run`.
- **Parsers.** `Parser.holds_infer`.
-/

namespace Parlance

open Progress

variable {α : Type} [Score α]

/-! ## What the grammar says -/

/-- **What a derivation says**: all of it but the number that it was made with and its places in the beam. -/
def Derivation.essence (d : Derivation α) : Derivation α := { d.bare with created := 0 }

/-- What the derivation with a number says. -/
def Arena.essence (arena : Arena α) (i : Nat) : Derivation α := (arena.get i).essence

/-- Whether a symbol is a literal that stands for the token at a position. -/
def Task.isLiteral (task : Task α) (i : Nat) (symbol : String) : Bool :=
  !isCat symbol && task.ex.token i == symbol

namespace Progress

/-- The derivations that a symbol stands for over a span; a literal stands for none. -/
def parts (p : Progress α) (first last : Nat) (symbol : String) : Multiset Nat :=
  if isCat symbol then p.chart.get first last symbol else 0

/-- The results of applying a rule that are no errors. -/
def yields (p : Progress α) (task : Task α) (a : Application) : List Candidate :=
  (p.results task a).items.filterMap Except.toOption

/-- What the derivations of an application say, one for each of its results. -/
def produce (p : Progress α) (task : Task α) (a : Application) : Multiset (Derivation α) :=
  (p.yields task a : Multiset Candidate).map fun c => (p.derive task ⟨a, c⟩ 0).essence

/-- What a rule says about a span: something for each way to cover it and each result there. -/
def ruled (p : Progress α) (task : Task α) (first last : Nat) (r : Rule) : Multiset (Derivation α) :=
  (ways task.isLiteral p.parts last r.rhs first).bind fun children =>
    p.produce task { rule := r, first, last, children }

/-- The tokens and phrases of a category over a span. -/
def seeded (task : Task α) (first last : Nat) (cat : String) : Multiset (Derivation α) :=
  ((ratedTerminals task).filter fun d => d.isAt first last cat).map Derivation.essence

/-- What the derivations of a cell say. -/
def content (p : Progress α) (first last : Nat) (cat : String) : Multiset (Derivation α) :=
  (p.chart.get first last cat : Multiset Nat).map p.arena.essence

/-- The rules of a category over a span; those of the root category cover the whole text. -/
def rulesOver (task : Task α) (rules : List Rule) (first last : Nat) (cat : String) : List Rule :=
  rules.filter fun r => r.lhs = cat ∧ (cat = rootCat → first = 0 ∧ last = task.length)

/-- **A cell holds what it should hold**: the tokens and phrases, and what each rule of the category says, each
of it once. -/
def Holds (p : Progress α) (task : Task α) (rules : List Rule) (first last : Nat) (cat : String) : Prop :=
  p.content first last cat =
    seeded task first last cat +
      (rulesOver task rules first last cat : Multiset Rule).bind (p.ruled task first last)

end Progress

/-! ## Applying -/

namespace Progress

variable {task : Task α} {first last : Nat} {p q : Progress α}

theorem steady_essence : Steady (Arena.essence (α := α)) := fun a b h i hi => by
  unfold Arena.essence Derivation.essence
  rw [Arena.bare_get_of_isPrefix h hi]

theorem essence_derive (o : Output) (n : Nat) :
    (p.derive task o n).essence = (p.derive task o 0).essence := by
  unfold derive
  rw [show (Derivation.ofCandidate o.application.rule (p.call o.application) o.application.children
      o.candidate (task.supply n) : Derivation α) =
    { (Derivation.ofCandidate o.application.rule (p.call o.application) o.application.children
      o.candidate (task.supply 0) : Derivation α) with created := task.supply n } from rfl]
  rw [rated_created]
  rfl

theorem produce_congr {a : Application} (h : p.arena.bares <+: q.arena.bares)
    (hc : ∀ c ∈ a.children, c < p.arena.size) : q.produce task a = p.produce task a := by
  unfold produce yields
  rw [results_congr h hc]
  refine Multiset.map_congr rfl fun c _ => ?_
  rw [derive_congr h hc]

/-- What the derivations of outputs over a span say, those of one category. -/
theorem map_essence_derivations (outs : List Output) (n : Nat) (cat : String)
    (herr : task.pruneErrors = false)
    (hspan : ∀ o ∈ outs, o.application.first = first ∧ o.application.last = last) :
    ((p.derivations task outs n).filter fun d => d.isAt first last cat).map Derivation.essence =
      (outs.filter fun o => o.application.rule.lhs = cat).map fun o => (p.derive task o 0).essence := by
  induction outs generalizing n with
  | nil => rfl
  | cons o outs ih =>
    have hk : o.isKept task = true := by
      unfold Output.isKept
      rw [herr]
      rfl
    have hat : (p.derive task o n).isAt first last cat = (o.application.rule.lhs == cat) := by
      obtain ⟨h1, h2⟩ := hspan o List.mem_cons_self
      rw [isAt_derive, h1, h2]
      simp
    rw [derivations_cons, hk, if_pos rfl, List.filter_append, List.map_append,
      ih (n + 1) fun o' h => hspan o' (List.mem_cons_of_mem _ h), List.filter_cons, List.filter_cons,
      List.filter_nil, hat]
    by_cases hc : o.application.rule.lhs = cat
    · simp [hc, essence_derive o n]
    · simp [hc]

theorem content_eq_coe (p : Progress α) (first last : Nat) (cat : String) :
    p.content first last cat = (p.cellOf Arena.essence first last cat : Multiset (Derivation α)) :=
  Multiset.map_coe _ _

/-- Cells that are not worked on keep saying what they say. -/
theorem content_of_later (h : Later first last p q) (hp : p.Bounded) {f l : Nat} (c : String)
    (hn : ¬(f = first ∧ l = last)) : q.content f l c = p.content f l c := by
  unfold content
  rw [h.get f l c hn]
  exact Multiset.map_congr rfl fun i hi =>
    steady_essence _ _ h.isPrefix i (hp f l c i (Multiset.mem_coe.mp hi))

end Progress

namespace BottomUp

variable {task : Task α} {first last : Nat} {p q : Progress α}

/-- **Applying rules** adds what they produce. -/
theorem content_applyAll (hlim : task.limit = none) (herr : task.pruneErrors = false) (hp : p.Sound task)
    (hf : first < last) (hl : last ≤ task.length) {rules : List Rule} {l : List Application}
    (ha : ∀ a ∈ l, FromChart task p.chart rules first last [] a) (h : applyAll task p l = .ok q)
    (cat : String) :
    q.content first last cat = p.content first last cat +
      (l : Multiset Application).bind fun a => if a.rule.lhs = cat then p.produce task a else 0 := by
  obtain ⟨hg, -⟩ := grown_applyAll hlim (fun a hm => (ha a hm).fits hp hf hl) h
  have hnew : ∀ k d, (p.derivations task (p.outputs task l) p.made)[k]? = some d →
      q.arena.essence (p.arena.size + k) = d.essence := fun k d hk => by
    unfold Arena.essence Derivation.essence
    rw [hg.bare_get hk]
  rw [content_eq_coe, content_eq_coe, hg.cellOf steady_essence hp.bounded hnew,
    map_essence_derivations _ _ _ herr fun o ho =>
      ⟨(ha _ (application_of_mem_outputs ho)).first, (ha _ (application_of_mem_outputs ho)).last⟩,
    ← Multiset.coe_add]
  congr 1
  rw [outputs, List.filter_flatMap, List.map_flatMap, ← Multiset.coe_bind]
  refine Multiset.bind_congr fun a _ => ?_
  by_cases hc : a.rule.lhs = cat
  · rw [if_pos hc, outputsOf, List.filter_map, List.filter_eq_self.mpr, List.map_map]
    · rfl
    · intro c _
      exact decide_eq_true hc
  · rw [if_neg hc, outputsOf, List.filter_map, List.filter_eq_nil_iff.mpr]
    · rfl
    · intro c _
      simpa using hc

/-! ## Unary rules -/

/-- What a rule says that takes one category over the whole span. -/
def taken (p : Progress α) (task : Task α) (first last : Nat) (r : Rule) : Multiset (Derivation α) :=
  (p.chart.get first last r.target : Multiset Nat).bind fun d =>
    p.produce task { rule := r, first, last, children := [d] }

theorem taken_congr {r : Rule} (h : p.arena.bares <+: q.arena.bares) (hp : p.Bounded)
    (hget : (q.chart.get first last r.target).Perm (p.chart.get first last r.target)) :
    taken q task first last r = taken p task first last r := by
  unfold taken
  rw [Multiset.coe_eq_coe.mpr hget]
  refine Multiset.bind_congr fun d hd => produce_congr h fun c hc => ?_
  rw [List.mem_singleton] at hc
  exact hc ▸ hp first last r.target d (Multiset.mem_coe.mp hd)

/-- Cells of other categories are not changed by applying rules. -/
theorem get_applyAll_of_ne (hlim : task.limit = none) (hp : p.Sound task) (hf : first < last)
    (hl : last ≤ task.length) {rules : List Rule} {l : List Application}
    (ha : ∀ a ∈ l, FromChart task p.chart rules first last [] a) (h : applyAll task p l = .ok q)
    {cat : String} (hne : ∀ a ∈ l, a.rule.lhs ≠ cat) (f e : Nat) :
    q.chart.get f e cat = p.chart.get f e cat := by
  obtain ⟨hg, -⟩ := grown_applyAll hlim (fun a hm => (ha a hm).fits hp hf hl) h
  rw [hg.get, numbersAt_eq_nil, List.append_nil]
  intro d hd
  obtain ⟨⟨o, n⟩, ho, rfl⟩ := List.mem_map.mp hd
  have hm := application_of_mem_outputs (List.fst_mem_of_mem_zipIdx (List.mem_filter.mp ho).1)
  rw [isAt_derive]
  have := hne _ hm
  simp [this]

/-- **What the unary rules have done so far**: a cell says what it said before them, and what those behind say by
the cells as they are now. -/
structure UnariesDone (task : Task α) (p : Progress α) (first last : Nat) (pre : List Rule)
    (q : Progress α) : Prop where
  sound : q.Sound task
  later : Later first last p q
  content : q.chart.stats.fellOff = false → ∀ cat,
    q.content first last cat = p.content first last cat +
      (pre : Multiset Rule).bind fun r =>
        if r.lhs = cat ∧ task.canBuild r first last then taken q task first last r else 0

/-- **One unary rule** reads a cell that no later rule adds to. -/
theorem UnariesDone.step {rules pre : List Rule} {rule : Rule} {pruned : List String}
    {state : Progress α × List String} (hlim : task.limit = none) (herr : task.pruneErrors = false)
    (hq : task.beam.Quiet) (hcat : ∀ r ∈ rules, isCat r.lhs = true)
    (hf : first < last) (hl : last ≤ task.length) (hr : rule ∈ rules)
    (hbefore : ∀ a ∈ pre, rule.lhs ≠ a.target) (hself : rule.lhs ≠ rule.target)
    (hu : UnariesDone task p first last pre q)
    (h : applyUnary task first last (q, pruned) rule = .ok state) :
    UnariesDone task p first last (pre ++ [rule]) state.1 := by
  obtain ⟨hs, hlat⟩ := step_applyUnary hlim hq hcat hu.sound hf hl hr h
  refine ⟨hs, hu.later.trans hlat, fun hfell cat => ?_⟩
  have hfell' := hlat.fellOff hfell
  rw [← Multiset.coe_add, Multiset.add_bind, Multiset.coe_singleton, Multiset.singleton_bind]
  rw [applyUnary_eq_ok_iff] at h
  split at h
  · rename_i hb
    -- the cell that the rule reads is pruned, and then the rule is applied to it
    have hquiet : q.chart.beam.Quiet := hu.sound.beam ▸ hq
    have hs' := sound_pruneOnce hq hu.sound first last pruned rule.target
    generalize hr' : (pruneOnce first last (q, pruned) rule.target).1 = r at h hs'
    obtain ⟨happ, -⟩ := h
    obtain ⟨-, hlat'⟩ := step_applyAll hlim hcat hs' hf hl (fun a ha => fromChart_unary hr hb ha) happ
    have hbares : r.arena.bares = q.arena.bares := hr' ▸ bares_pruneOnce hquiet rule.target
    have hperm : ∀ c, (r.chart.get first last c).Perm (q.chart.get first last c) := fun c => by
      rw [← hr']
      refine get_pruneOnce_perm hquiet pruned rule.target ?_ first last c
      rw [hr']
      exact hlat'.fellOff hfell
    have hget : ∀ c, rule.lhs ≠ c →
        (state.1.chart.get first last c).Perm (q.chart.get first last c) := fun c hc => by
      rw [get_applyAll_of_ne hlim hs' hf hl (fun a ha => fromChart_unary hr hb ha) happ
        (fun a ha => by obtain ⟨d, -, rfl⟩ := List.mem_map.mp ha; exact hc)]
      exact hperm c
    have hcontent : r.content first last cat = q.content first last cat := by
      unfold Progress.content
      rw [Multiset.coe_eq_coe.mpr (hperm cat)]
      refine Multiset.map_congr rfl fun i hi => ?_
      exact steady_essence _ _ (hbares ▸ List.prefix_rfl) i
        (hu.sound.bounded _ _ _ i (Multiset.mem_coe.mp hi))
    rw [content_applyAll hlim herr hs' hf hl (fun a ha => fromChart_unary hr hb ha) happ, hcontent,
      hu.content hfell' cat, add_assoc]
    congr 1
    congr 1
    · refine Multiset.bind_congr fun a ha => ?_
      rw [taken_congr hlat.isPrefix hu.sound.bounded (hget a.target (hbefore a (Multiset.mem_coe.mp ha)))]
    · rw [← Multiset.map_coe, Multiset.bind_map]
      by_cases hc : rule.lhs = cat
      · simp only [if_pos hc, if_pos (And.intro hc hb)]
        rw [taken_congr hlat.isPrefix hu.sound.bounded (hget rule.target hself)]
        exact taken_congr (hbares ▸ List.prefix_rfl) hu.sound.bounded (hperm rule.target)
      · simp [hc]
  · rename_i hb
    rw [h]
    simp [hb, hu.content hfell' cat]

/-- **All unary rules**, in order. -/
theorem unariesDone_foldlM {rules unaries pruned : List _} {p₂ : Progress α}
    (hlim : task.limit = none) (herr : task.pruneErrors = false)
    (hq : task.beam.Quiet) (hr : Ready rules unaries)
    (hp : p.Sound task) (hf : first < last) (hl : last ≤ task.length)
    (h : unaries.foldlM (applyUnary task first last) (p, []) = .ok (p₂, pruned)) :
    UnariesDone task p first last unaries p₂ := by
  refine foldlM_induct
    (P := fun pre (s : Progress α × List String) => UnariesDone task p first last pre s.1)
    ⟨hp, .refl p, fun _ cat => by simp⟩ ?_ h
  rintro pre rule post ⟨q, pruned'⟩ s' hlist hu hstep
  have hmem : rule ∈ unaries := hlist ▸ by simp
  have hbefore := (List.pairwise_append.mp (hlist ▸ UnaryOrder.pairwise_sort hr.sorted)).2.2
  exact hu.step hlim herr hq hr.cats hf hl ((UnaryOrder.mem_sort hr.sorted).mp hmem).1
    (fun a ha => hbefore a ha rule List.mem_cons_self)
    (UnaryOrder.lhs_ne_target_of_sort hr.sorted hmem) hstep

/-- The last pruning of a span drops nothing, if the cells fit into the beam. -/
theorem content_foldl_pruneOnce (hq : task.beam.Quiet)
    (hp : p.Sound task) (pruned cats : List String)
    (hfell : (cats.foldl (pruneOnce first last) (p, pruned)).1.chart.stats.fellOff = false)
    (c : String) :
    ((cats.foldl (pruneOnce first last) (p, pruned)).1.chart.get first last c).Perm
      (p.chart.get first last c) := by
  induction cats generalizing p pruned with
  | nil => exact List.Perm.refl _
  | cons cat cats ih =>
    rw [List.foldl_cons] at hfell ⊢
    have hs := sound_pruneOnce hq hp first last pruned cat
    generalize hr : pruneOnce first last (p, pruned) cat = state at hs hfell ⊢
    obtain ⟨r, pruned'⟩ := state
    obtain ⟨-, hlat⟩ := step_foldl_pruneOnce hq hs first last pruned' cats
    refine (ih hs pruned' hfell).trans ?_
    have hperm := get_pruneOnce_perm (p := p) (hp.beam ▸ hq : p.chart.beam.Quiet) pruned cat (by
      rw [hr]
      exact hlat.fellOff hfell) first last c
    rwa [hr] at hperm

/-! ## Spans -/

/-- **No token is a category** of some right-hand side. -/
def LiteralTokens (task : Task α) (rules : List Rule) : Prop :=
  ∀ i < task.length, ∀ r ∈ rules, task.ex.token i ∈ r.rhs → isCat (task.ex.token i) = false

omit [Score α] in
theorem isLiteral_eq {rules : List Rule} (htok : LiteralTokens task rules) {r : Rule} (hr : r ∈ rules)
    {i : Nat} (hi : i < task.length) {s : String} (hs : s ∈ r.rhs) :
    task.isLiteral i s = (task.ex.token i == s) := by
  unfold Task.isLiteral
  by_cases he : task.ex.token i = s
  · have hc := htok i hi r hr (he ▸ hs)
    rw [he] at hc
    simp [he, hc]
  · simp [he]

omit [Score α] in
/-- A symbol that is not a category has no derivations. -/
theorem parts_eq (hp : p.Sound task) (f l : Nat) (s : String) :
    p.parts f l s = p.chart.get f l s := by
  unfold Progress.parts
  split
  · rfl
  · rename_i hs
    rw [Chart.get_of_not_mem fun hk => hs (hp.cats f l s (by rw [Chart.cats_eq]; exact hk))]
    rfl

omit [Score α] in
/-- **The ways that were found are all ways.** While a span was built, only parts of it were there; a part that
is all of it serves unary rules only. -/
theorem ways_eq_ways {rules : List Rule} (htok : LiteralTokens task rules) {r : Rule} (hr : r ∈ rules)
    (hu : r.isCatUnary = false) (hq : q.Sound task) (hlat : Later first last p q)
    (hf : first < last) (hl : last ≤ task.length) :
    ways task.isLiteral q.parts last r.rhs first =
      ways (fun i s => task.ex.token i == s) (properParts p.chart first last) last r.rhs first := by
  have hrest : ∀ rest i, (∀ s ∈ rest, s ∈ r.rhs) → first < i →
      ways task.isLiteral q.parts last rest i =
        ways (fun i s => task.ex.token i == s) (properParts p.chart first last) last rest i := by
    intro rest i hsub hi
    refine ways_congr (fun j hj hjl s hs => isLiteral_eq htok hr (by omega) (hsub s hs))
      fun j k hj hjk hk s hs => ?_
    have hne : ¬(j = first ∧ k = last) := fun h => by omega
    rw [parts_eq hq, hlat.get j k s hne, properParts, if_neg hne]
  cases hrhs : r.rhs with
  | nil => rfl
  | cons s rest =>
    have hs : s ∈ r.rhs := hrhs ▸ List.mem_cons_self
    have hsub : ∀ x ∈ rest, x ∈ r.rhs := fun x hx => hrhs ▸ List.mem_cons_of_mem _ hx
    rw [ways, ways, isLiteral_eq htok hr (by omega) hs]
    rw [hrest rest (first + 1) hsub (Nat.lt_succ_self first)]
    congr 1
    refine Multiset.bind_congr fun k hk => ?_
    rw [hrest rest (first + k + 1) hsub (by omega)]
    by_cases hw : first + k + 1 = last
    · -- the part is the whole span: nothing may follow it, and so the rule takes a literal
      rw [hw, properParts, if_pos ⟨rfl, rfl⟩, Multiset.zero_bind]
      cases rest with
      | nil =>
        have hcat : isCat s = false := by
          unfold Rule.isCatUnary at hu
          rwa [hrhs] at hu
        unfold Progress.parts
        rw [hcat]
        exact Multiset.zero_bind _
      | cons x rest =>
        simp only [ways_cons_last, Multiset.map_zero, Multiset.bind_zero]
    · have hne : ¬(first = first ∧ first + k + 1 = last) := fun h => hw h.2
      rw [parts_eq hq, hlat.get _ _ s hne, properParts, if_neg hne]

/-- What a rule says that takes parts of the span. -/
theorem ruled_of_not_catUnary {rules : List Rule} (htok : LiteralTokens task rules) {r : Rule}
    (hr : r ∈ rules) (hu : r.isCatUnary = false) (hp : p.Sound task) (hq : q.Sound task)
    (hlat : Later first last p q) (hf : first < last) (hl : last ≤ task.length) :
    q.ruled task first last r =
      (ways (fun i s => task.ex.token i == s) (properParts p.chart first last) last r.rhs first).bind
        fun children => p.produce task { rule := r, first, last, children } := by
  unfold ruled
  rw [ways_eq_ways htok hr hu hq hlat hf hl]
  refine Multiset.bind_congr fun w hw => produce_congr hlat.isPrefix fun c hc => ?_
  obtain ⟨j, k, s, -, -, -, -, hm⟩ := mem_parts_of_mem_ways hw hc
  unfold properParts at hm
  split at hm
  · cases hm
  · exact hp.bounded j k s c (Multiset.mem_coe.mp hm)

/-- What a rule says that takes one category over the whole span. -/
theorem ruled_of_catUnary {r : Rule} (hu : r.isCatUnary = true) (hf : first < last) :
    p.ruled task first last r = taken p task first last r := by
  have hcat := Rule.isCat_target hu
  unfold ruled taken
  rw [r.rhs_of_isCatUnary hu, ways_singleton hf (by simp [Task.isLiteral, hcat]), Multiset.bind_map,
    Progress.parts, if_pos hcat]

omit [Score α] in
/-- The rules of a category that may be used over a span are those of the trie and the unary ones. -/
theorem bind_rules {rules unaries : List Rule} (hr : Ready rules unaries) (cat : String)
    (f : Rule → Multiset (Derivation α)) :
    ((((numberRules rules).filter fun r => !r.rule.isCatUnary : List NumberedRule) :
        Multiset NumberedRule).bind fun r =>
      if task.canBuild r.rule first last ∧ r.rule.lhs = cat then f r.rule else 0) +
    ((unaries : Multiset Rule).bind fun r =>
      if r.lhs = cat ∧ task.canBuild r first last then f r else 0) =
    ((rules.filter fun r => r.lhs = cat ∧ task.canBuild r first last : List Rule) : Multiset Rule).bind f := by
  let g : Rule → Multiset (Derivation α) := fun r =>
    if r.lhs = cat ∧ task.canBuild r first last then f r else 0
  have hnumbered : ((((numberRules rules).filter fun r => !r.rule.isCatUnary : List NumberedRule) :
        Multiset NumberedRule).bind fun r =>
      if task.canBuild r.rule first last ∧ r.rule.lhs = cat then f r.rule else 0) =
      (Multiset.filter (fun r => ¬ r.isCatUnary = true) (rules : Multiset Rule)).bind g := by
    have hmap : ((numberRules rules).filter fun r => !r.rule.isCatUnary).map NumberedRule.rule =
        rules.filter fun r => !r.isCatUnary := by
      conv_rhs => rw [← map_rule_numberRules rules, List.filter_map]
      rfl
    have hfilter : Multiset.filter (fun r => ¬ r.isCatUnary = true) (rules : Multiset Rule) =
        (rules.filter fun r => !r.isCatUnary : List Rule) := by
      rw [Multiset.filter_coe]
      simp only [Bool.not_eq_true, Bool.decide_eq_false]
    rw [hfilter, ← hmap, ← Multiset.map_coe, Multiset.bind_map]
    simp only [g, and_comm]
  have hcat : ∀ l : List Rule, (l : Multiset Rule).bind g =
      ((l.filter fun r => r.lhs = cat : List Rule) : Multiset Rule).bind g := fun l => by
    rw [← Multiset.filter_coe, Multiset.bind_filter]
    refine Multiset.bind_congr fun r _ => ?_
    by_cases hc : r.lhs = cat
    · rw [if_pos hc]
    · simp [g, hc]
  have hsorted : (unaries : Multiset Rule).bind g =
      (Multiset.filter (fun r => r.isCatUnary = true) (rules : Multiset Rule)).bind g := by
    have hfilter : Multiset.filter (fun r => r.isCatUnary = true) (rules : Multiset Rule) =
        (rules.filter Rule.isCatUnary : List Rule) := by
      rw [Multiset.filter_coe]
      simp only [Bool.decide_eq_true]
    rw [hfilter, hcat, hcat (rules.filter Rule.isCatUnary), UnaryOrder.filter_sort hr.sorted cat]
  rw [hnumbered, show ((unaries : Multiset Rule).bind fun r =>
      if r.lhs = cat ∧ task.canBuild r first last then f r else 0) = (unaries : Multiset Rule).bind g
    from rfl, hsorted, ← Multiset.add_bind, add_comm, Multiset.filter_add_not, ← Multiset.filter_coe,
    Multiset.bind_filter]

/-- **Building a span** makes each of its cells hold what it should, besides what it held. -/
theorem content_buildSpan (hlim : task.limit = none) (herr : task.pruneErrors = false)
    (hcoarse : task.coarse = none) (hq : task.beam.Quiet)
    {rules unaries : List Rule} (hr : Ready rules unaries) (htok : LiteralTokens task rules)
    (hp : p.Sound task) (hf : first < last) (hl : last ≤ task.length)
    (h : buildSpan task (trieOf rules) unaries p (first, last) = .ok q)
    (hfell : q.chart.stats.fellOff = false) (cat : String) :
    q.content first last cat = p.content first last cat +
      ((rules.filter fun r => r.lhs = cat ∧ task.canBuild r first last : List Rule) :
        Multiset Rule).bind (q.ruled task first last) := by
  obtain ⟨hsq, hlatq⟩ := step_buildSpan hlim hq hr hp hf hl h
  obtain ⟨p₁, p₂, pruned, h₁, h₂, rfl⟩ := (buildSpan_eq_ok_iff hlim hr hp hf hl).mp h
  have hfrom := fun a (ha : a ∈ coverings task p.chart first last first (trieOf rules) []) =>
    fromChart_coverings hp.distinct ha
  obtain ⟨hs₁, hlat₁⟩ := step_applyAll hlim hr.cats hp hf hl hfrom h₁
  have hu := unariesDone_foldlM hlim herr hq hr hs₁ hf hl h₂
  obtain ⟨-, hlat₂⟩ := step_foldl_pruneOnce hq hu.sound first last pruned (p₂.chart.cats first last)
  have hperm := content_foldl_pruneOnce hq hu.sound pruned (p₂.chart.cats first last) hfell
  generalize (((p₂.chart.cats first last).foldl (pruneOnce first last) (p₂, pruned)).1) = q at *
  have hcontent : q.content first last cat = p₂.content first last cat := by
    unfold Progress.content
    rw [Multiset.coe_eq_coe.mpr (hperm cat)]
    exact Multiset.map_congr rfl fun i hi => steady_essence _ _ hlat₂.isPrefix i
      (hu.sound.bounded _ _ _ i (Multiset.mem_coe.mp hi))
  rw [hcontent, hu.content (hlat₂.fellOff hfell) cat,
    content_applyAll hlim herr hp hf hl hfrom h₁ cat, add_assoc, ← bind_rules hr]
  congr 2
  · rw [coverings_eq_bind hcoarse hp.distinct (filed_trieOf rules) (Nat.le_of_lt hf),
      Multiset.bind_assoc]
    refine Multiset.bind_congr fun r hm => ?_
    obtain ⟨hmem, hu'⟩ := List.mem_filter.mp (Multiset.mem_coe.mp hm)
    have hrule : r.rule ∈ rules := by
      rw [← map_rule_numberRules rules]
      exact List.mem_map_of_mem hmem
    have hlat : Later first last p q := (hlat₁.trans hu.later).trans hlat₂
    rw [along_of_eq (List.nil_append _).symm]
    by_cases hb : task.canBuild r.rule first last
    · rw [if_pos hb, Multiset.bind_map]
      by_cases hc : r.rule.lhs = cat
      · simp only [if_pos hc, if_pos (And.intro hb hc)]
        exact (ruled_of_not_catUnary htok hrule (by simpa using hu') hp hsq hlat hf hl).symm
      · simp [hc]
    · simp [hb]
  · refine Multiset.bind_congr fun r hm => ?_
    have hru := ((UnaryOrder.mem_sort hr.sorted).mp (Multiset.mem_coe.mp hm)).2
    rw [ruled_of_catUnary hru hf, taken_congr hlat₂.isPrefix hu.sound.bounded (hperm r.target)]

/-! ## Texts -/

omit [Score α] in
theorem filter_canBuild (hcoarse : task.coarse = none) (rules : List Rule) (first last : Nat)
    (cat : String) :
    (rules.filter fun r => r.lhs = cat ∧ task.canBuild r first last) =
      rulesOver task rules first last cat := by
  refine List.filter_congr fun r _ => decide_eq_decide.mpr ?_
  refine and_congr_right fun hc => ?_
  have hallows : task.allows r.lhs first last = true := by
    unfold Task.allows
    rw [hcoarse]
  unfold Task.canBuild
  rw [hallows, hc]
  by_cases hroot : cat = rootCat
  · simp [hroot]
  · simp [hroot]

omit [Score α] in
/-- Work on a span that does not lie within another one leaves the ways to cover the other one. -/
theorem ways_of_later (hlat : Later first last p q) {i j : Nat} (hn : ¬(i ≤ first ∧ last ≤ j))
    (symbols : List String) :
    ways task.isLiteral q.parts j symbols i = ways task.isLiteral p.parts j symbols i := by
  refine ways_congr (fun _ _ _ _ _ => rfl) fun a b ha hab hb s _ => ?_
  unfold Progress.parts
  rw [hlat.get a b s fun h => hn ⟨h.1 ▸ ha, h.2 ▸ hb⟩]

omit [Score α] in
/-- Ways take derivations that are there. -/
theorem lt_size_of_mem_ways (hp : p.Bounded) {i j : Nat} {symbols : List String} {w : List Nat}
    (hw : w ∈ ways task.isLiteral p.parts j symbols i) {c : Nat} (hc : c ∈ w) : c < p.arena.size := by
  obtain ⟨a, b, s, -, -, -, -, hm⟩ := mem_parts_of_mem_ways hw hc
  unfold Progress.parts at hm
  split at hm
  · exact hp a b s c (Multiset.mem_coe.mp hm)
  · cases hm

/-- Work on a span that does not lie within another one makes no difference to what rules say about the other
one. -/
theorem ruled_of_later (hlat : Later first last p q) (hp : p.Bounded) {i j : Nat}
    (hn : ¬(i ≤ first ∧ last ≤ j)) (r : Rule) : q.ruled task i j r = p.ruled task i j r := by
  unfold ruled
  rw [ways_of_later hlat hn]
  exact Multiset.bind_congr fun w hw =>
    produce_congr hlat.isPrefix fun c hc => lt_size_of_mem_ways hp hw hc

/-- **How far the parse of a text has come**: the spans behind it hold what they should, the others have their
tokens and phrases only. -/
structure SpansDone (task : Task α) (rules : List Rule) (pre : List (Nat × Nat)) (p : Progress α) :
    Prop where
  sound : p.Sound task
  untouched : ∀ f l, (f, l) ∉ pre → ∀ cat, p.content f l cat = seeded task f l cat
  holds : p.chart.stats.fellOff = false → ∀ f l, (f, l) ∈ pre → ∀ cat, p.Holds task rules f l cat

theorem spansDone_seed (task : Task α) (rules : List Rule) : SpansDone task rules [] (seed task) where
  sound := sound_seed task
  untouched f l _ cat := by
    obtain ⟨hg, -⟩ := grown_seed task
    have hb := (sound_start task).bounded
    have hnew : ∀ k d, (ratedTerminals task)[k]? = some d →
        (seed task).arena.essence ((startWithTerminals task).arena.size + k) = d.essence :=
      fun k d hk => by
        unfold Arena.essence Derivation.essence
        rw [hg.bare_get hk]
    have hnil : (startWithTerminals task).cellOf Arena.essence f l cat = [] := by
      unfold cellOf
      rw [List.map_eq_nil_iff]
      exact List.eq_nil_iff_forall_not_mem.mpr fun i hi => Nat.not_lt_zero i (hb f l cat i hi)
    rw [content_eq_coe, hg.cellOf steady_essence hb hnew, hnil]
    rfl
  holds _ f l h := by cases h

theorem SpansDone.step (hlim : task.limit = none) (herr : task.pruneErrors = false)
    (hcoarse : task.coarse = none) (hq : task.beam.Quiet)
    {rules unaries : List Rule} (hr : Ready rules unaries) (htok : LiteralTokens task rules)
    {pre post : List (Nat × Nat)} (hspans : spansByLength task.length = pre ++ (first, last) :: post)
    (hp : SpansDone task rules pre p)
    (h : buildSpan task (trieOf rules) unaries p (first, last) = .ok q) :
    SpansDone task rules (pre ++ [(first, last)]) q := by
  obtain ⟨hf, hl⟩ := mem_spansByLength.mp (hspans ▸ by simp : (first, last) ∈ spansByLength task.length)
  obtain ⟨hs, hlat⟩ := step_buildSpan hlim hq hr hp.sound hf hl h
  refine ⟨hs, fun f l hm cat => ?_, fun hfell f l hm cat => ?_⟩
  · rw [List.mem_append, not_or, List.mem_singleton] at hm
    have hne : ¬(f = first ∧ l = last) := fun he => hm.2 (Prod.ext he.1 he.2)
    rw [content_of_later hlat hp.sound.bounded cat hne]
    exact hp.untouched f l hm.1 cat
  · rcases List.mem_append.mp hm with hm | hm
    · have hn := not_within_of_mem hspans hm
      have hne : ¬(f = first ∧ l = last) := fun he => hn ⟨by omega, by omega⟩
      unfold Holds
      rw [content_of_later hlat hp.sound.bounded cat hne,
        Multiset.bind_congr fun r _ => ruled_of_later hlat hp.sound.bounded hn r]
      exact hp.holds (hlat.fellOff hfell) f l hm cat
    · rw [List.mem_singleton] at hm
      injection hm with hff hll
      subst hff hll
      have hnew : (f, l) ∉ pre := fun hm => not_within_of_mem hspans hm ⟨Nat.le_refl f, Nat.le_refl l⟩
      unfold Holds
      rw [content_buildSpan hlim herr hcoarse hq hr htok hp.sound hf hl h hfell cat,
        hp.untouched f l hnew cat, filter_canBuild hcoarse]

/-- **The parse of a text** makes every cell hold what it should. -/
theorem spansDone_run (hlim : task.limit = none) (herr : task.pruneErrors = false)
    (hcoarse : task.coarse = none) (hq : task.beam.Quiet)
    {rules unaries : List Rule} (hr : Ready rules unaries) (htok : LiteralTokens task rules)
    (h : run task (trieOf rules) unaries = .ok p) :
    SpansDone task rules (spansByLength task.length) p :=
  foldlM_induct (P := SpansDone task rules) (spansDone_seed task rules)
    (fun _ _ _ _ _ hspans hp hstep => hp.step hlim herr hcoarse hq hr htok hspans hstep) h

end BottomUp

/-! ## Parsers -/

/-- What makes up a parser for rules. -/
theorem Parser.ofRules_eq_ok {rules : List Rule} {options : ParserOptions α} {ctx : SemContext}
    {executor : Executor} {extractor : FeatureExtractor α} {evaluator : ValueEvaluator α} {parser : Parser α}
    (h : Parser.ofRules rules options ctx executor extractor evaluator = .ok parser) :
    UnaryOrder.sort rules = .ok parser.unaries ∧ parser.options = options ∧
      parser.trie = trieOf rules ∧
      Parser.prepare options.coarse (CoarseParser.ofRules rules) = .ok parser.coarse := by
  unfold Parser.ofRules at h
  simp only [bind_eq_ok] at h
  obtain ⟨unaries, hu, coarse, hc, siblings, hsib, hp⟩ := h
  rw [← Except.ok.inj hp]
  exact ⟨hu, rfl, rfl, hc⟩

/-- **A bottom-up parse finds every derivation once.** For a grammar whose left-hand sides are categories and a
text none of whose tokens is one, let a parser search bottom up without a coarse parse, a limit, noise, or values
that are looked at, and let no cell have been larger than the beam. Then no number stands twice in a cell, and the
derivations of each cell say what the tokens and phrases say and, for each rule of its category, each way to cover
the span by the right-hand side of the rule, and each result there, what the rule makes of that. -/
theorem Parser.holds_infer {rules : List Rule} {options : ParserOptions α} {ctx : SemContext}
    {executor : Executor} {extractor : FeatureExtractor α} {evaluator : ValueEvaluator α} {parser : Parser α}
    (hparser : Parser.ofRules rules options ctx executor extractor evaluator = .ok parser)
    (hkind : options.kind = .bottomUp) (hcoarse : options.coarse = false) (hlimit : options.limit = none)
    (hnoise : Score.lt Score.zero options.noise = false) (herr : options.pruneErrors = false)
    (hpolicy : options.policy = .topK) (hcat : ∀ r ∈ rules, isCat r.lhs = true)
    {weights : Weights α} {ex : Example}
    (htok : ∀ i < ex.length, ∀ r ∈ rules, ex.token i ∈ r.rhs → isCat (ex.token i) = false)
    {p : Progress α} (h : parser.infer weights ex = .ok p)
    (hbeam : p.chart.stats.maxCell ≤ (parser.task weights ex).beam.size) {first last : Nat} (hf : first < last)
    (hl : last ≤ ex.length) (cat : String) :
    (p.chart.get first last cat).Nodup ∧
      p.Holds (parser.task weights ex) rules first last cat := by
  obtain ⟨hsort, hopt, htrie, hprep⟩ := Parser.ofRules_eq_ok hparser
  subst hopt
  have hnone : parser.coarse = none := by
    rw [hcoarse] at hprep
    exact (Except.ok.inj hprep).symm
  unfold Parser.infer at h
  rw [hkind, htrie] at h
  have hquiet : (parser.task weights ex).beam.Quiet := hnoise
  have hdone : BottomUp.SpansDone (parser.task weights ex) rules (spansByLength ex.length) p :=
    BottomUp.spansDone_run hlimit herr (by simp [Parser.task, hnone]) hquiet ⟨hcat, hsort⟩
      htok h
  have hfell : p.chart.stats.fellOff = false :=
    BottomUp.fellOff_of_maxCell hlimit hquiet hpolicy ⟨hcat, hsort⟩ h hbeam
  exact ⟨hdone.sound.nodup first last cat,
    hdone.holds hfell first last (mem_spansByLength.mpr ⟨hf, hl⟩) cat⟩

/-- A grammar of sums: tokens are terms, and so are two terms next to each other. -/
def sampleRules : List Rule := [
  { lhs := "$A", rhs := ["$TOKEN"], sem := IdentityFn.mk.toFn },
  { lhs := "$A", rhs := ["$A", "$A"], sem := (ConcatFn.mk " ").toFn },
  { lhs := "$ROOT", rhs := ["$A"], sem := IdentityFn.mk.toFn }]

/-- A text of two terms. -/
def sampleText : Example where
  utterance := "1 2"
  info := { tokens := ["1", "2"], lemmas := ["1", "2"] }

/-- What a parse by the grammar of sums comes to: the size of its largest cell and the number of its roots. -/
def sampleOutcome (options : ParserOptions Float) : Option (Nat × Nat) := do
  let parser ← (Parser.ofRules sampleRules options {} .matching).toOption
  let p ← (parser.infer Weights.new sampleText).toOption
  return (p.chart.stats.maxCell, p.roots.length)

theorem exists_of_sampleOutcome {options : ParserOptions Float} {largest roots : Nat}
    (h : sampleOutcome options = some (largest, roots)) :
    ∃ parser p, Parser.ofRules sampleRules options {} .matching = .ok parser ∧
      parser.infer Weights.new sampleText = .ok p ∧ p.chart.stats.maxCell = largest ∧
      p.roots.length = roots := by
  unfold sampleOutcome at h
  cases hparser : Parser.ofRules sampleRules options {} .matching with
  | error e => rw [hparser] at h; cases h
  | ok parser =>
    rw [hparser] at h
    cases hp : parser.infer Weights.new sampleText with
    | error e => simp [Except.toOption, hp] at h
    | ok p =>
      simp only [Except.toOption, hp, Option.pure_def, Option.bind_eq_bind, Option.bind_some,
        Option.some.injEq, Prod.mk.injEq] at h
      exact ⟨parser, p, rfl, hp, h.1, h.2⟩

/-- The sum of two terms is the only derivation of its cell. -/
theorem Parser.holds_infer_sample : ∃ (parser : Parser Float) (p : Progress Float),
    Parser.ofRules sampleRules .standard {} .matching = .ok parser ∧
      parser.infer Weights.new sampleText = .ok p ∧ p.roots.length = 1 ∧
      (p.chart.get 0 2 "$A").Nodup ∧
      p.Holds (parser.task Weights.new sampleText) sampleRules 0 2 "$A" := by
  obtain ⟨parser, p, hparser, hp, hmax, hroots⟩ :=
    exists_of_sampleOutcome (show sampleOutcome .standard = some (1, 1) by decide +kernel)
  obtain ⟨-, hopt, -⟩ := Parser.ofRules_eq_ok hparser
  have hbeam : p.chart.stats.maxCell ≤ (parser.task Weights.new sampleText).beam.size := by
    rw [hmax]
    show 1 ≤ sampleText.beamSize.getD parser.options.beamSize
    rw [hopt]
    decide
  have h := Parser.holds_infer hparser rfl rfl rfl (by decide +kernel) rfl rfl (by decide) (by decide)
    hp hbeam (show 0 < 2 by decide) (show 2 ≤ sampleText.length by decide) "$A"
  exact ⟨parser, p, hparser, hp, hroots, h.1, h.2⟩

end Parlance
