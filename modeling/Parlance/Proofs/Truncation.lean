import Parlance.Proofs.Cutting
import Parlance.Proofs.Isolation

/-!
# `Proofs.Truncation` — a limit on derivations only cuts their list short

A bottom-up parse with a limit is followed next to the same parse without one. Until the limit is reached, the two are
the same. From then on the limited parse makes nothing, though it goes on to sort and cut cells, and the other one
goes on to make derivations. So the limited parse has the first derivations of the other one, up to their places in
the beam. Tokens and phrases do not count for the limit: all of them are put in.

## Contents
- **Counting.** `Tallied`: the figure of all derivations is their number. An act keeps this, and what it finds there.
- **Two parses.** `Task.withLimit`, and `Truncates`, what relates a limited parse to one without a limit.
- **Applying.** From the results of one rule to `exists_applyAll`.
- **Spans and texts.** `exists_buildSpan` and `exists_run`.
- **Parsers.** `ParseResult.Truncates`, and `Parser.parse_limit`.
-/

namespace Parlance

open Progress

variable {α : Type} [Score α]

/-! ## Counting -/

namespace Progress

variable {task : Task α} {p : Progress α}

/-- **A parse that has counted its derivations**, and has a beam without noise. -/
structure Tallied (p : Progress α) : Prop where
  total : p.chart.stats.total = p.arena.size
  quiet : p.chart.beam.Quiet

theorem Tallied.featurize (h : p.Tallied) (task : Task α) (d : Derivation α) : (p.featurize task d).2.Tallied := by
  unfold Progress.featurize
  split
  · exact h
  · exact ⟨h.total, h.quiet⟩

theorem Tallied.addToChart (h : p.Tallied) (task : Task α) (d : Derivation α) : (p.addToChart task d).Tallied := by
  unfold Progress.addToChart
  split
  · exact h
  · have htotal : p.chart.stats.total + 1 = (p.arena.push d).size := by rw [Arena.size_push, h.total]
    exact ⟨htotal, h.quiet⟩

end Progress

namespace BottomUp

section Counting

variable {task : Task α} {p : Progress α} {first last : Nat}

theorem tallied_cutCell (h : p.Tallied) (first last : Nat) (cat : String) : (cutCell p first last cat).Tallied where
  total := (Chart.total_prune p.chart p.arena first last cat).trans (h.total.trans size_cutCell.symm)
  quiet := by
    show Beam.Quiet (p.chart.prune p.arena first last cat).1.beam
    rw [Chart.beam_prune]
    exact h.quiet

/-- Each act counts what it puts in. -/
theorem tallied_carryOut (task : Task α) (h : p.Tallied) (a : Act α) : (a.carryOut task p).Tallied := by
  cases a with
  | plant d => exact (h.featurize task d).addToChart task _
  | add o =>
    have hmade : (p.make task o.application o.candidate).2.Tallied := ⟨h.total, h.quiet⟩
    exact (hmade.featurize task _).addToChart task _
  | cut cell => exact tallied_cutCell h _ _ _

/-- Without noise, each act leaves the derivations that are there as they are, up to their places. -/
theorem isPrefix_carryOut (task : Task α) (h : p.Tallied) (a : Act α) :
    p.arena.bares <+: (a.carryOut task p).arena.bares := by
  by_cases hcut : ∃ cell, a = .cut cell
  case pos =>
    obtain ⟨cell, rfl⟩ := hcut
    obtain ⟨first, last, cat⟩ := cell
    have hbares : (cutCell p first last cat).arena.bares = p.arena.bares := Chart.bares_prune h.quiet p.arena cat
    show p.arena.bares <+: (cutCell p first last cat).arena.bares
    rw [hbares]
  case neg =>
    exact (adds_carryOut fun cell he => hcut ⟨cell, he⟩).isPrefix

/-- **A parse that goes on** keeps its derivations and goes on to count them. -/
theorem tallied_after (task : Task α) (h : p.Tallied) (acts : List (Act α)) :
    p.arena.bares <+: (after task p acts).arena.bares ∧ (after task p acts).Tallied := by
  induction acts generalizing p with
  | nil => exact ⟨List.prefix_rfl, h⟩
  | cons a acts ih =>
    obtain ⟨hkept, hlast⟩ := ih (tallied_carryOut task h a)
    exact ⟨(isPrefix_carryOut task h a).trans hkept, hlast⟩

/-- The derivation of a result adds one at most. -/
theorem size_record_le (task : Task α) (p : Progress α) (o : Output) :
    (p.record task o).arena.size ≤ p.arena.size + 1 :=
  (adds_carryOut (a := .add o) fun _ => nofun).size_le_succ

theorem tallied_pruneOnce {state : Progress α × List String} (h : state.1.Tallied) (first last : Nat) (cat : String) :
    (pruneOnce first last state cat).1.Tallied := by
  obtain ⟨p, pruned⟩ := state
  by_cases hcat : cat ∈ pruned
  case pos =>
    rw [pruneOnce_of_mem hcat]
    exact h
  case neg =>
    rw [pruneOnce_of_not_mem hcat]
    exact tallied_cutCell h first last cat

/-- Cutting cells leaves the derivations as they are, up to their places. -/
theorem tallied_foldl_pruneOnce {state : Progress α × List String} (h : state.1.Tallied) (first last : Nat)
    (cats : List String) :
    (cats.foldl (pruneOnce first last) state).1.Tallied ∧
      (cats.foldl (pruneOnce first last) state).1.arena.bares = state.1.arena.bares := by
  induction cats generalizing state with
  | nil => exact ⟨h, rfl⟩
  | cons cat rest ih =>
    obtain ⟨hlast, hbares⟩ := ih (tallied_pruneOnce h first last cat)
    exact ⟨hlast, hbares.trans (bares_pruneOnce h.quiet cat)⟩

end Counting

end BottomUp

/-! ## Two parses -/

/-- The task with another limit. -/
def Task.withLimit (task : Task α) (limit : Option Nat) : Task α := { task with limit }

namespace BottomUp

variable {task : Task α} {limit seeds : Nat} {p p' q q' : Progress α} {s s' t : Progress α × List String}
  {first last : Nat}

/-- A parse that has counted its derivations knows whether they are as many as allowed. -/
theorem limitReached_withLimit (h : p.Tallied) (task : Task α) (limit : Nat) :
    p.limitReached (task.withLimit (some limit)) = decide (limit ≤ p.arena.size) := by
  show decide (limit ≤ p.chart.stats.total) = _
  rw [h.total]

/-- **A parse `q` with a limit and the same parse `p` without one.** There were `seeds` tokens and phrases in the
beginning. Of the derivations that `p` has, `q` has those that the limit leaves; before the limit is reached, nothing
tells the two apart. -/
structure Truncates (limit seeds : Nat) (p q : Progress α) : Prop where
  whole : p.Tallied
  part : q.Tallied
  seeded : seeds ≤ p.arena.size
  bares : q.arena.bares = p.arena.bares.take (max limit seeds)
  same : p.arena.size < limit → q = p

namespace Truncates

theorem size (h : Truncates limit seeds p q) : q.arena.size = min p.arena.size (max limit seeds) := by
  rw [← Arena.length_bares, h.bares, List.length_take, Arena.length_bares, Nat.min_comm]

/-- Both parses reach the limit at the same time. -/
theorem reached (h : Truncates limit seeds p q) (task : Task α) :
    q.limitReached (task.withLimit (some limit)) = decide (limit ≤ p.arena.size) := by
  have hseeded := h.seeded
  have hsize := h.size
  rw [limitReached_withLimit h.part]
  apply decide_eq_decide.mpr
  omega

/-- A parse that has no more derivations than the limit leaves is its own truncation. -/
theorem self (hp : p.Tallied) (hseeded : seeds ≤ p.arena.size) (hsize : p.arena.size ≤ max limit seeds) :
    Truncates limit seeds p p where
  whole := hp
  part := hp
  seeded := hseeded
  bares := by rw [List.take_of_length_le (by rwa [Arena.length_bares])]
  same _ := rfl

/-- **Once the limit is reached**, the parse without it may go on. -/
theorem after (h : Truncates limit seeds p q) (hreached : limit ≤ p.arena.size) (acts : List (Act α)) :
    Truncates limit seeds (after task p acts) q := by
  obtain ⟨hkept, hlast⟩ := tallied_after task h.whole acts
  have hsize := Arena.size_le_of_isPrefix hkept
  refine ⟨hlast, h.part, h.seeded.trans hsize, ?_, fun hlt => absurd (hreached.trans hsize) (Nat.not_le_of_lt hlt)⟩
  obtain ⟨more, hmore⟩ := hkept
  have hlength : max limit seeds ≤ p.arena.bares.length := by
    rw [Arena.length_bares]
    exact Nat.max_le.mpr ⟨hreached, h.seeded⟩
  rw [h.bares, ← hmore, List.take_append_of_le_length hlength]

end Truncates

/-- **Two parses that are at work on a span**, with the categories of the cells that they cut. Once the limit is
reached, these need not be the same. -/
structure TruncatesAt (limit seeds : Nat) (s t : Progress α × List String) : Prop where
  progress : Truncates limit seeds s.1 t.1
  same : s.1.arena.size < limit → t = s

/-- **Cutting cells in both parses**, which may be other ones once the limit is reached. -/
theorem TruncatesAt.cut (h : TruncatesAt limit seeds s t) (first last : Nat) (cats cats' : List String)
    (hcats : s.1.arena.size < limit → cats' = cats) :
    TruncatesAt limit seeds (cats.foldl (pruneOnce first last) s) (cats'.foldl (pruneOnce first last) t) := by
  obtain ⟨hwhole, hbares⟩ := tallied_foldl_pruneOnce h.progress.whole first last cats
  obtain ⟨hpart, hbares'⟩ := tallied_foldl_pruneOnce h.progress.part first last cats'
  have hsize : (cats.foldl (pruneOnce first last) s).1.arena.size = s.1.arena.size := by
    rw [← Arena.length_bares, hbares, Arena.length_bares]
  have hsame : (cats.foldl (pruneOnce first last) s).1.arena.size < limit →
      cats'.foldl (pruneOnce first last) t = cats.foldl (pruneOnce first last) s := by
    intro hlt
    rw [hsize] at hlt
    rw [h.same hlt, hcats hlt]
  refine ⟨⟨hwhole, hpart, ?_, ?_, fun hlt => congrArg Prod.fst (hsame hlt)⟩, hsame⟩
  · rw [hsize]
    exact h.progress.seeded
  · rw [hbares, hbares']
    exact h.progress.bares

/-! ## Applying -/

/-- A parse that has reached the limit applies nothing more. -/
theorem applyAll_of_reached (h : q.limitReached task = true) (l : List Application) : applyAll task q l = .ok q := by
  unfold applyAll
  induction l with
  | nil => rfl
  | cons a l ih =>
    have hstep : apply task q a = .ok q := by
      unfold apply
      rw [if_pos h]
    rw [List.foldlM_cons, hstep]
    exact ih

/-- **Adding the results of a rule, before the limit is reached.** -/
theorem exists_addResults (hnone : task.limit = none) {a : Application} {items : List (Except SemanticError Candidate)}
    (hp : p.Tallied) (hseeded : seeds ≤ p.arena.size) (hlt : p.arena.size < limit)
    (h : addResults task a items p = .ok p') :
    ∃ q', addResults (task.withLimit (some limit)) a items p = .ok q' ∧ Truncates limit seeds p' q' := by
  induction items generalizing p with
  | nil =>
    obtain rfl := Except.ok.inj h
    exact ⟨p, rfl, .self hp hseeded (by omega)⟩
  | cons item rest ih =>
    cases item with
    | error e => cases h
    | ok candidate =>
      have hrecord : p.record (task.withLimit (some limit)) ⟨a, candidate⟩ = p.record task ⟨a, candidate⟩ := rfl
      have htallied : (p.record task ⟨a, candidate⟩).Tallied := tallied_carryOut task hp (.add ⟨a, candidate⟩)
      have hle : p.arena.size ≤ (p.record task ⟨a, candidate⟩).arena.size :=
        Arena.size_le_of_isPrefix (isPrefix_carryOut task hp (.add ⟨a, candidate⟩))
      have hsize := size_record_le task p ⟨a, candidate⟩
      rw [addResults_ok, limitReached_of_none _ hnone, if_neg Bool.false_ne_true] at h
      rw [addResults_ok, hrecord, limitReached_withLimit htallied]
      generalize p.record task ⟨a, candidate⟩ = r at h htallied hle hsize
      by_cases hreached : limit ≤ r.arena.size
      case pos =>
        -- the limit is reached with this derivation, and the other parse goes on
        rw [if_pos (decide_eq_true hreached), ← after_resultActs h]
        exact ⟨r, rfl, (Truncates.self htallied (by omega) (by omega)).after hreached _⟩
      case neg =>
        rw [if_neg (by simpa using hreached)]
        exact ih htallied (by omega) (by omega) h

/-- **Applying a rule in both parses.** -/
theorem exists_apply (hnone : task.limit = none) (h : Truncates limit seeds p q) {a : Application}
    (hp' : apply task p a = .ok p') :
    ∃ q', apply (task.withLimit (some limit)) q a = .ok q' ∧ Truncates limit seeds p' q' := by
  unfold apply
  rw [h.reached]
  by_cases hreached : limit ≤ p.arena.size
  case pos =>
    rw [if_pos (decide_eq_true hreached), ← after_applyActs hp']
    exact ⟨q, rfl, h.after hreached _⟩
  case neg =>
    have hlt := Nat.lt_of_not_le hreached
    rw [if_neg (by simpa using hreached), h.same hlt]
    unfold apply at hp'
    rw [if_neg (by rw [limitReached_of_none p hnone]; exact Bool.false_ne_true)] at hp'
    exact exists_addResults hnone h.whole h.seeded hlt hp'

/-- **Applying rules in both parses.** The limited parse may be given other applications once it has reached the limit,
because it does nothing with them. -/
theorem exists_applyAll (hnone : task.limit = none) (h : Truncates limit seeds p q) {l l' : List Application}
    (hl : p.arena.size < limit → l' = l) (hp' : applyAll task p l = .ok p') :
    ∃ q', applyAll (task.withLimit (some limit)) q l' = .ok q' ∧ Truncates limit seeds p' q' := by
  by_cases hreached : limit ≤ p.arena.size
  case pos =>
    rw [← after_applyAllActs hp']
    exact ⟨q, applyAll_of_reached ((h.reached task).trans (decide_eq_true hreached)) l', h.after hreached _⟩
  case neg =>
    rw [hl (Nat.lt_of_not_le hreached)]
    exact foldlM_lockstep (R := fun _ => Truncates limit seeds) h
      (fun _ _ _ _ _ _ _ hpair hstep => exists_apply hnone hpair hstep) hp'

/-! ## Spans and texts -/

/-- **A rule from one category to one category in both parses.** -/
theorem exists_applyUnary (hnone : task.limit = none) (h : TruncatesAt limit seeds s t) {rule : Rule}
    (hs' : applyUnary task first last s rule = .ok s') :
    ∃ t', applyUnary (task.withLimit (some limit)) first last t rule = .ok t' ∧ TruncatesAt limit seeds s' t' := by
  have hcut : TruncatesAt limit seeds (pruneOnce first last s rule.target) (pruneOnce first last t rule.target) :=
    h.cut first last [rule.target] [rule.target] fun _ => rfl
  obtain ⟨p, pruned⟩ := s
  obtain ⟨q, pruned'⟩ := t
  have hbuild : (task.withLimit (some limit)).canBuild rule first last = task.canBuild rule first last := rfl
  simp only [applyUnary_eq_ok_iff, hbuild] at hs' ⊢
  split at hs'
  case isFalse hno =>
    rw [hs']
    exact ⟨(q, pruned'), by rw [if_neg hno], h⟩
  case isTrue hyes =>
    obtain ⟨happly, hpruned⟩ := hs'
    generalize pruneOnce first last (p, pruned) rule.target = cut at hcut happly hpruned
    generalize pruneOnce first last (q, pruned') rule.target = cut' at hcut
    have hle : cut.1.arena.size ≤ s'.1.arena.size := by
      rw [← after_applyAllActs happly]
      exact Arena.size_le_of_isPrefix (tallied_after task hcut.progress.whole _).1
    have happs : cut.1.arena.size < limit →
        (cut'.1.chart.get first last rule.target).map
            (fun d => ({ rule, first, last, children := [d] } : Application)) =
          (cut.1.chart.get first last rule.target).map fun d => { rule, first, last, children := [d] } := by
      intro hlt
      rw [hcut.same hlt]
    obtain ⟨q', hq', htruncates⟩ := exists_applyAll hnone hcut.progress happs happly
    refine ⟨(q', cut'.2), by rw [if_pos hyes]; exact ⟨hq', rfl⟩, htruncates, fun hlt => ?_⟩
    rw [htruncates.same hlt, hcut.same (hle.trans_lt hlt), ← hpruned]

/-- **Building a span in both parses.** -/
theorem exists_buildSpan (hnone : task.limit = none) (h : Truncates limit seeds p q) {trie : Trie}
    {unaries : List Rule} {span : Nat × Nat} (hp' : buildSpan task trie unaries p span = .ok p') :
    ∃ q', buildSpan (task.withLimit (some limit)) trie unaries q span = .ok q' ∧ Truncates limit seeds p' q' := by
  obtain ⟨first, last⟩ := span
  obtain ⟨p₁, p₂, s, hp₁, hp₂, hs, rfl⟩ := buildSpan_steps_iff.mp hp'
  have hparts : p.arena.size < limit →
      coverings (task.withLimit (some limit)) q.chart first last first trie [] =
        coverings task p.chart first last first trie [] := by
    intro hlt
    rw [h.same hlt]
    have htext : (task.withLimit (some limit)).ex = task.ex := rfl
    exact coverings_congr htext rfl p.chart first last first trie []
  obtain ⟨q₁, hq₁, h₁⟩ := exists_applyAll hnone h hparts hp₁
  have hwhole : p₁.arena.size < limit →
      wholeSpan (task.withLimit (some limit)) q₁.chart first last trie = wholeSpan task p₁.chart first last trie := by
    intro hlt
    rw [h₁.same hlt]
    rfl
  obtain ⟨q₂, hq₂, h₂⟩ := exists_applyAll hnone h₁ hwhole hp₂
  have hstart : TruncatesAt limit seeds (p₂, []) (q₂, []) := ⟨h₂, fun hlt => by rw [h₂.same hlt]⟩
  obtain ⟨t, ht, hst⟩ := foldlM_lockstep (R := fun _ => TruncatesAt limit seeds)
    (g := applyUnary (task.withLimit (some limit)) first last) hstart
    (fun _ _ _ _ _ _ _ hstate hstep => exists_applyUnary hnone hstate hstep) hs
  have hcats : s.1.arena.size < limit → t.1.chart.cats first last = s.1.chart.cats first last := by
    intro hlt
    rw [hst.same hlt]
  exact ⟨_, buildSpan_steps_iff.mpr ⟨q₁, q₂, t, hq₁, hq₂, ht, rfl⟩, (hst.cut first last _ _ hcats).progress⟩

/-- **The tokens and phrases** are put in by both parses. -/
theorem truncates_seed (hquiet : task.beam.Quiet) (limit : Nat) :
    Truncates limit (terminals task.ex).length (seed task) (seed (task.withLimit (some limit))) := by
  have hstart : (startWithTerminals task).Tallied := ⟨rfl, hquiet⟩
  have hseed : seed task = after task (startWithTerminals task) ((terminalDerivations task).map .plant) :=
    (after_map_plant task _ _).symm
  have hsize : (seed task).arena.size = (terminals task.ex).length := by
    rw [(grown_seed task).1.size]
    unfold ratedTerminals terminalDerivations
    rw [List.length_map, List.length_map, List.length_zipIdx]
    exact Nat.zero_add _
  have hsame : seed (task.withLimit (some limit)) = seed task := rfl
  rw [hsame]
  refine .self ?_ hsize.ge (by omega)
  rw [hseed]
  exact (tallied_after task hstart _).2

/-- **A limit only cuts a bottom-up parse short.** -/
theorem exists_run (hnone : task.limit = none) (hquiet : task.beam.Quiet) (limit : Nat) {trie : Trie}
    {unaries : List Rule} (h : run task trie unaries = .ok p) :
    ∃ q, run (task.withLimit (some limit)) trie unaries = .ok q ∧
      Truncates limit (terminals task.ex).length p q :=
  foldlM_lockstep (R := fun _ => Truncates limit (terminals task.ex).length) (truncates_seed hquiet limit)
    (fun _ _ _ _ _ _ _ hpair hstep => exists_buildSpan hnone hpair hstep) h

end BottomUp

/-! ## Parsers -/

/-- **A result that has the first `n` derivations of another result**, or all if there are not as many. Each says of
itself what it says there, and is made of the same ones; the figure of all derivations is their number. The values
that predictions were executed to may differ, for there may be fewer predictions. -/
structure ParseResult.Truncates (n : Nat) (whole part : ParseResult α) : Prop where
  size : part.arena.size = min whole.arena.size n
  label : ∀ i < part.arena.size, (part.arena.get i).label = (whole.arena.get i).label
  children : ∀ i < part.arena.size, (part.arena.get i).children = (whole.arena.get i).children
  total : part.chart.stats.total = part.arena.size
  whole : whole.chart.stats.total = whole.arena.size

omit [Score α] in
theorem ParseResult.size_renumber (f : Nat → Nat) (r : ParseResult α) : (r.renumber f).arena.size = r.arena.size :=
  Arena.size_renumber f r.arena

/-- The numbers that derivations are sorted by have no part in that. -/
theorem ParseResult.Truncates.renumber {n : Nat} {whole part : ParseResult α} (h : Truncates n whole part)
    (f g : Nat → Nat) : Truncates n (whole.renumber f) (part.renumber g) := by
  -- what is read off either result is what was read off it before
  have hread : ∀ {β : Type} (read : Derivation α → β), (∀ f d, read (Derivation.renumber f d) = read d) → ∀ i,
      read (part.arena.get i) = read (whole.arena.get i) →
        read ((part.renumber g).arena.get i) = read ((whole.renumber f).arena.get i) := by
    intro β read hfree i hi
    exact (Arena.read_renumber read (hfree g) part.arena i).trans
      (hi.trans (Arena.read_renumber read (hfree f) whole.arena i).symm)
  refine ⟨?_, fun i hi => ?_, fun i hi => ?_, ?_, ?_⟩
  · rw [size_renumber, size_renumber]
    exact h.size
  · rw [size_renumber] at hi
    exact hread Derivation.label (fun _ _ => rfl) i (h.label i hi)
  · rw [size_renumber] at hi
    exact hread Derivation.children (fun _ _ => rfl) i (h.children i hi)
  · exact h.total.trans (size_renumber g part).symm
  · exact h.whole.trans (size_renumber f whole).symm

namespace Parser

theorem size_conclude (parser : Parser α) (ex : Example) (learning : Bool) (p : Progress α) :
    (parser.conclude ex learning p).arena.size = p.arena.size :=
  Arena.size_eq_of_shapes ((shapes_setProbabilities _ _).trans (shapes_executePredictions _ _ _ _ _))

/-- What is concluded from two searches. -/
theorem truncates_conclude {limit seeds : Nat} {p q : Progress α} (h : BottomUp.Truncates limit seeds p q)
    (parser parser' : Parser α) (ex : Example) (learning : Bool) :
    ParseResult.Truncates (max limit seeds) (parser.conclude ex learning p) (parser'.conclude ex learning q) := by
  have hread : ∀ {β : Type} (read : Derivation α → β), Derivation.Settled read → (∀ d, read d.bare = read d) →
      ∀ i < q.arena.size, read ((parser'.conclude ex learning q).arena.get i) =
        read ((parser.conclude ex learning p).arena.get i) := by
    intro β read hsettled hplaces i hi
    have hbare : (q.arena.get i).bare = (p.arena.get i).bare := by
      apply Arena.bare_get_congr
      rw [h.size] at hi
      rw [h.bares, List.getElem?_take_of_lt (by omega)]
    rw [parser.read_conclude hsettled, parser'.read_conclude hsettled, ← hplaces, hbare, hplaces]
  refine ⟨?_, fun i hi => ?_, fun i hi => ?_, ?_, ?_⟩
  · rw [size_conclude, size_conclude]
    exact h.size
  · rw [size_conclude] at hi
    exact hread Derivation.label (fun _ _ _ _ => rfl) (fun _ => rfl) i hi
  · rw [size_conclude] at hi
    exact hread Derivation.children (fun _ _ _ _ => rfl) (fun _ => rfl) i hi
  · exact h.part.total.trans (size_conclude parser' ex learning q).symm
  · exact h.whole.total.trans (size_conclude parser ex learning p).symm

/-- The parser with another limit. -/
def withLimit (parser : Parser α) (limit : Option Nat) : Parser α :=
  { parser with options := { parser.options with limit } }

/-- **A parse with a limit**, and with other numbers on its derivations. -/
theorem exists_parse_withLimit {parser : Parser α} {supply : Nat → Nat} (hkind : parser.options.kind = .bottomUp)
    (hnone : parser.options.limit = none) (hnoise : Score.lt Score.zero parser.options.noise = false)
    (hs : StrictMono parser.options.supply) (hs' : StrictMono supply) {weights : Weights α} {ex : Example}
    {learning : Bool} {r : ParseResult α} (h : parser.parse weights ex learning = .ok r) (limit : Nat) :
    ∃ r', ((parser.withLimit (some limit)).withSupply supply).parse weights ex learning = .ok r' ∧
      r.Truncates (max limit (terminals ex).length) r' := by
  -- either parse is the one with the numbers from zero on, renumbered
  have hfree := parse_renumber hs parser weights ex learning
  have hlimited := parse_renumber hs' (parser.withLimit (some limit)) weights ex learning
  obtain ⟨r₀, hr₀, rfl⟩ : ∃ r₀, (parser.withSupply id).parse weights ex learning = .ok r₀ ∧
      r₀.renumber parser.options.supply = r := by
    cases hr₀ : (parser.withSupply id).parse weights ex learning with
    | error e =>
      rw [hr₀] at hfree
      cases h.symm.trans hfree
    | ok r₀ =>
      rw [hr₀] at hfree
      exact ⟨r₀, rfl, Except.ok.inj (hfree.symm.trans h)⟩
  obtain ⟨p, hp, rfl⟩ := (parse_eq_ok_iff (by exact hkind)).mp hr₀
  have hquiet : (parser.task weights ex).beam.Quiet := hnoise
  obtain ⟨q, hq, htruncates⟩ := BottomUp.exists_run (by exact hnone) (by exact hquiet) limit hp
  have hr' : ((parser.withLimit (some limit)).withSupply id).parse weights ex learning =
      .ok (((parser.withLimit (some limit)).withSupply id).conclude ex learning q) :=
    (parse_eq_ok_iff (by exact hkind)).mpr ⟨q, hq, rfl⟩
  rw [hr'] at hlimited
  exact ⟨_, hlimited, (truncates_conclude htruncates _ _ ex learning).renumber _ _⟩

/-- **A limit on derivations only cuts their list short.** For any grammar let a parser search bottom up without a
limit and without noise. The parser with a limit succeeds wherever that one does. Of the derivations of that one it
has the first ones, as many as the limit allows, and all tokens and phrases if there are more of these. The two may
number their derivations as they like. -/
theorem parse_limit {rules : List Rule} {options : ParserOptions α} {ctx : SemContext} {executor : Executor}
    {extractor : FeatureExtractor α} {evaluator : ValueEvaluator α} {free : Parser α} {supply : Nat → Nat}
    (hfree : Parser.ofRules rules { options with limit := none } ctx executor extractor evaluator = .ok free)
    (hkind : options.kind = .bottomUp) (hnoise : Score.lt Score.zero options.noise = false)
    (hs : StrictMono options.supply) (hs' : StrictMono supply) (limit : Nat) :
    ∃ limited,
      Parser.ofRules rules { options with limit := some limit, supply } ctx executor extractor evaluator = .ok limited ∧
      ∀ (weights : Weights α) (ex : Example) (learning : Bool) (r : ParseResult α),
        free.parse weights ex learning = .ok r →
          ∃ r', limited.parse weights ex learning = .ok r' ∧
            r.Truncates (max limit (terminals ex).length) r' := by
  obtain ⟨unaries, coarse, hsort, hcoarse, rfl⟩ := (ofRules_bottomUp_eq_ok_iff (by exact hkind)).mp hfree
  refine ⟨_, (ofRules_bottomUp_eq_ok_iff (by exact hkind)).mpr ⟨unaries, coarse, hsort, hcoarse, rfl⟩, ?_⟩
  intro weights ex learning r hr
  exact exists_parse_withLimit hkind rfl hnoise hs hs' hr limit

/-- The sum of two terms takes fourteen derivations, the first ten of them tokens and phrases. With a limit of twelve
there are twelve. -/
theorem parse_limit_sample : ∃ (free limited : Parser Float) (r r' : ParseResult Float),
    Parser.ofRules sampleRules .standard {} .matching = .ok free ∧
      Parser.ofRules sampleRules { ParserOptions.standard with limit := some 12, supply := fun i => 3 * i } {}
        .matching = .ok limited ∧
      free.parse Weights.new sampleText false = .ok r ∧ r.arena.size = 14 ∧
      limited.parse Weights.new sampleText false = .ok r' ∧ r'.arena.size = 12 ∧ r.Truncates 12 r' := by
  obtain ⟨free, p, hfree, hp, hsize, -, -⟩ := exists_of_census
    (show census sampleRules (.standard : ParserOptions Float) .new sampleText = some (14, 1, true) by decide +kernel)
  have htriple : StrictMono fun i : Nat => 3 * i := fun i j h => by
    show 3 * i < 3 * j
    omega
  have hnone : Parser.ofRules sampleRules { ParserOptions.standard with limit := none } {} .matching = .ok free := hfree
  obtain ⟨limited, hlimited, hparse⟩ := parse_limit hnone rfl (by decide +kernel) strictMono_id htriple 12
  have hr : free.parse Weights.new sampleText false = .ok (free.conclude sampleText false p) :=
    bind_eq_ok.mpr ⟨p, hp, rfl⟩
  obtain ⟨r', hr', htruncates⟩ := hparse Weights.new sampleText false _ hr
  have hseeds : max 12 (terminals sampleText).length = 12 := by decide
  rw [hseeds] at htruncates
  have hlength := (size_conclude free sampleText false p).trans hsize
  refine ⟨free, limited, _, r', hfree, hlimited, hr, hlength, hr', ?_, htruncates⟩
  rw [htruncates.size, hlength]
  decide

end Parser

end Parlance
