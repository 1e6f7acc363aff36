import Parlance.Parse.BestFirst
import Parlance.Parse.BottomUp
import Parlance.Proofs.Numbering
import Parlance.Proofs.RealParse

/-!
# `Proofs.SearchNumbering` — both searches go by the order of numbers only

A search that is given other numbers in the same order fails where it failed before and finds what it found before,
renumbered. Each of its steps does so, and leaves a chart that lists nothing but what is in the arena.

## Contents
- **Starting.** The tokens and phrases.
- **Bottom up.** From a single rule to `BottomUp.mirrors_run`.
- **Agendas.** `Agenda.map`: an agenda looks at priorities, and not at its items.
- **Best first.** From waiting and combining to `BestFirst.mirrors_run`.
-/

namespace Parlance

open Progress

variable {α : Type} {f : Nat → Nat}

/-! ## Starting -/

namespace Progress

/-- Before anything is found the chart lists nothing. -/
theorem inRange_startWithTerminals (task : Task α) : (startWithTerminals task).InRange := by
  rintro first last cat i ⟨l, hl, -⟩
  have hempty : (startWithTerminals task).chart.cellAt first last = .empty := Chart.cellAt_new _ _ first last
  rw [Chart.entries_eq, hempty] at hl
  cases hl

variable [Score α]

/-- Tokens and phrases are the same derivations with other numbers on them. -/
theorem terminalDerivations_renumber (task : Task α) :
    terminalDerivations (task.renumber f) = (terminalDerivations task).map (Derivation.renumber f) := by
  unfold terminalDerivations
  rw [List.map_map]
  rfl

omit [Score α] in
theorem startWithTerminals_renumber (task : Task α) :
    startWithTerminals (task.renumber f) = (startWithTerminals task).renumber f := by
  show _ = ({ startWithTerminals task with arena := ⟨#[].map (Derivation.renumber f)⟩ } : Progress α)
  rw [Array.map_empty]
  rfl

end Progress

/-! ## Bottom up -/

namespace BottomUp

variable [Score α] {task : Task α} {p : Progress α}

/-- The results of one rule are taken one by one, until one is an error or no more derivations are allowed. -/
theorem mirrors_addResults (task : Task α) (a : Application) (results : List (Except SemanticError Candidate))
    (h : p.InRange) :
    Mirrors (Progress.renumber f) InRange (addResults task a results p)
      (addResults (task.renumber f) a results (p.renumber f)) := by
  induction results generalizing p with
  | nil => exact .ok h
  | cons result rest ih =>
    cases result with
    | error cause =>
      rw [addResults, addResults, failure_renumber]
      exact .error _
    | ok candidate =>
      rw [addResults, addResults, make_renumber]
      -- a derivation is made, scored and added, and each time the progress is what it was, renumbered
      have hmade : (p.make task a candidate).2.InRange := h
      generalize p.make task a candidate = made at hmade
      dsimp only
      rw [featurize_renumber]
      have hscored := hmade.featurize task made.1
      generalize made.2.featurize task made.1 = scored at hscored
      dsimp only
      rw [addToChart_renumber]
      have hadded := hscored.addToChart task scored.1
      generalize scored.2.addToChart task scored.1 = added at hadded
      show Mirrors _ _ _ (if added.limitReached task = true then _ else _)
      split
      · exact .ok hadded
      · exact ih hadded

theorem mirrors_applyAll (task : Task α) (l : List Application) (h : p.InRange) :
    Mirrors (Progress.renumber f) InRange (applyAll task p l) (applyAll (task.renumber f) (p.renumber f) l) := by
  apply Mirrors.foldlM _ l h
  intro p a h
  unfold apply
  rw [results_renumber]
  show Mirrors _ _ _ (if p.limitReached task = true then _ else _)
  split
  · exact .ok h
  · exact mirrors_addResults task a _ h

omit [Score α] in
/-- The ways to cover a span do not depend on numbers. -/
theorem coverings_renumber (task : Task α) (chart : Chart α) (first last i : Nat) (trie : Trie) (children : List Nat) :
    coverings (task.renumber f) chart first last i trie children =
      coverings task chart first last i trie children := by
  have htext : (task.renumber f).ex = task.ex := rfl
  exact coverings_congr htext rfl chart first last i trie children

/-- The progress and the categories that were cut, renumbered. -/
def renumberState (f : Nat → Nat) (state : Progress α × List String) : Progress α × List String :=
  (state.1.renumber f, state.2)

/-- To cut a cell leaves the arena as large as it was and lists nothing new. -/
theorem inRange_pruneOnce {state : Progress α × List String} (h : state.1.InRange) (first last : Nat) (cat : String) :
    (pruneOnce first last state cat).1.InRange := by
  unfold pruneOnce
  dsimp only
  split
  · exact h
  · apply h.mono
    · exact (Arena.size_eq_of_shapes (Arena.shapes_prune _ _ _ _ _)).ge
    · intro _ _ _ _ hi
      exact hi.of_prune

/-- The derivations that a cut keeps are the same ones: it goes by their scores and, for equal scores, by the order of
their numbers. -/
theorem pruneOnce_renumber (hf : StrictMono f) {state : Progress α × List String} (h : state.1.InRange)
    (first last : Nat) (cat : String) :
    pruneOnce first last (renumberState f state) cat = renumberState f (pruneOnce first last state cat) := by
  obtain ⟨p, pruned⟩ := state
  unfold pruneOnce
  show (if pruned.contains cat = true then _ else _) = _
  dsimp only
  split
  · rfl
  · have hprune : (p.renumber f).chart.prune (p.renumber f).arena first last cat =
        ((p.chart.prune p.arena first last cat).1, (p.chart.prune p.arena first last cat).2.renumber f) :=
      Chart.prune_renumber hf h.get
    show (({ p.renumber f with
        chart := ((p.renumber f).chart.prune (p.renumber f).arena first last cat).1
        arena := ((p.renumber f).chart.prune (p.renumber f).arena first last cat).2 } : Progress α), cat :: pruned) = _
    rw [hprune]
    rfl

/-- The cell of the symbol that a unary rule rewrites is cut first, and then the rule is applied. -/
theorem mirrors_applyUnary (hf : StrictMono f) (task : Task α) (first last : Nat) {state : Progress α × List String}
    (h : state.1.InRange) (rule : Rule) :
    Mirrors (renumberState f) (fun state => state.1.InRange) (applyUnary task first last state rule)
      (applyUnary (task.renumber f) first last (renumberState f state) rule) := by
  unfold applyUnary
  show Mirrors _ _ _ (if (!task.canBuild rule first last) = true then _ else _)
  split
  · exact .ok h
  · dsimp only
    rw [pruneOnce_renumber hf h]
    have hpruned := inRange_pruneOnce h first last ((rule.rhs.head?).getD "")
    generalize pruneOnce first last state ((rule.rhs.head?).getD "") = pruned at hpruned
    apply Mirrors.bind (mirrors_applyAll task _ hpruned)
    intro p hp
    exact .ok hp

/-- **One span**: the ways to cover it, the unary rules, and the cells that are still to be cut. -/
theorem mirrors_buildSpan (hf : StrictMono f) (task : Task α) (trie : Trie) (unaries : List Rule) (h : p.InRange)
    (span : Nat × Nat) :
    Mirrors (Progress.renumber f) InRange (buildSpan task trie unaries p span)
      (buildSpan (task.renumber f) trie unaries (p.renumber f) span) := by
  obtain ⟨first, last⟩ := span
  unfold buildSpan
  dsimp only
  rw [coverings_renumber]
  apply Mirrors.bind (mirrors_applyAll task _ h)
  intro p hp
  apply Mirrors.bind (mirrors_applyAll task _ hp)
  intro p hp
  have hunaries : Mirrors (renumberState f) (fun state => state.1.InRange)
      (unaries.foldlM (applyUnary task first last) (p, []))
      (unaries.foldlM (applyUnary (task.renumber f) first last) (renumberState f (p, []))) :=
    Mirrors.foldlM (fun state rule hstate => mirrors_applyUnary hf task first last hstate rule) unaries hp
  apply hunaries.bind
  intro state hstate
  -- the cells that are left are cut one after the other
  have hrest : (state.1.chart.cats first last).foldl (pruneOnce first last) (renumberState f state) =
        renumberState f ((state.1.chart.cats first last).foldl (pruneOnce first last) state) ∧
      ((state.1.chart.cats first last).foldl (pruneOnce first last) state).1.InRange := by
    apply foldl_hom_of (P := fun state => state.1.InRange) (renumberState f) _ _ hstate
    intro state cat hstate
    exact ⟨pruneOnce_renumber hf hstate first last cat, inRange_pruneOnce hstate first last cat⟩
  obtain ⟨heq, hdone⟩ := hrest
  have hresult : ((state.1.chart.cats first last).foldl (pruneOnce first last) (renumberState f state)).1 =
      ((state.1.chart.cats first last).foldl (pruneOnce first last) state).1.renumber f := congrArg Prod.fst heq
  show Mirrors _ _ (.ok ((state.1.chart.cats first last).foldl (pruneOnce first last) state).1)
    (.ok ((state.1.chart.cats first last).foldl (pruneOnce first last) (renumberState f state)).1)
  rw [hresult]
  exact .ok hdone

/-- The search starts with the same tokens and phrases, renumbered. -/
theorem seed_renumber (task : Task α) :
    seed (task.renumber f) = (seed task).renumber f ∧ (seed task).InRange := by
  have hseed : ∀ task : Task α, seed task = (terminalDerivations task).foldl
      (fun p d => (p.featurize task d).2.addToChart task (p.featurize task d).1) (startWithTerminals task) :=
    fun _ => rfl
  rw [hseed, hseed, terminalDerivations_renumber, startWithTerminals_renumber, List.foldl_map]
  apply foldl_hom_of (Progress.renumber f) _ _ (inRange_startWithTerminals task)
  intro p d hp
  rw [featurize_renumber, addToChart_renumber]
  exact ⟨rfl, (hp.featurize task d).addToChart task _⟩

/-- **The search from short spans to long ones** with other numbers in the same order. -/
theorem mirrors_run (hf : StrictMono f) (task : Task α) (trie : Trie) (unaries : List Rule) :
    Mirrors (Progress.renumber f) InRange (run task trie unaries) (run (task.renumber f) trie unaries) := by
  obtain ⟨heq, hseed⟩ := seed_renumber (f := f) task
  unfold run
  rw [heq]
  exact Mirrors.foldlM (fun p span hp => mirrors_buildSpan hf task trie unaries hp span) _ hseed

end BottomUp

/-! ## Agendas -/

section Agendas

variable {β γ : Type} {g : β → γ}

/-- The agenda with a function applied to its items. -/
def ListAgenda.map (g : β → γ) (agenda : ListAgenda β α) : ListAgenda γ α := ⟨agenda.items.map (Prod.map g id)⟩

/-- The entry with a function applied to its item. -/
def QueueEntry.map (g : β → γ) (e : QueueEntry β α) : QueueEntry γ α := { e with item := g e.item }

/-- The queue with a function applied to its items. -/
def QueueAgenda.map (g : β → γ) (agenda : QueueAgenda β α) : QueueAgenda γ α :=
  ⟨agenda.heap.map (QueueEntry.map g), agenda.seq⟩

/-- The agenda with a function applied to its items. -/
def Agenda.map (g : β → γ) : Agenda β α → Agenda γ α
  | list agenda => list (agenda.map g)
  | queue agenda => queue (agenda.map g)

/-- An item that was taken out and the agenda without it, under a function. -/
def Agenda.mapTaken (g : β → γ) (taken : β × Agenda β α) : γ × Agenda γ α := (g taken.1, taken.2.map g)

namespace ListAgenda

/-- The last item takes the place of one that is removed, whatever the items are. -/
theorem remove?_map (agenda : ListAgenda β α) (i : Nat) :
    (agenda.map g).remove? i = (agenda.remove? i).map (Prod.map g (ListAgenda.map g)) := by
  unfold remove? map
  dsimp only
  rw [List.getElem?_map, List.getLast?_map]
  cases agenda.items[i]? with
  | none => rfl
  | some item =>
    cases agenda.items.getLast? with
    | none => rfl
    | some last => simp [List.map_dropLast, List.map_set]

theorem get?_map (agenda : ListAgenda β α) (i : Nat) : (agenda.map g).get? i = (agenda.get? i).map g := by
  unfold get? map
  dsimp only
  rw [List.getElem?_map, Option.map_map, Option.map_map]
  rfl

variable [Score α]

theorem bestFrom_map (items : List (β × α)) (i : Nat) (best : Option (Nat × α)) :
    bestFrom i best (items.map (Prod.map g id)) = bestFrom i best items := by
  induction items generalizing i best with
  | nil => rfl
  | cons item rest ih =>
    cases best with
    | none => exact ih _ _
    | some top => exact ih _ _

theorem pop?_map (agenda : ListAgenda β α) :
    (agenda.map g).pop? = agenda.pop?.map (Prod.map g (ListAgenda.map g)) := by
  unfold pop?
  have hbest : bestFrom 0 none (agenda.map g).items = bestFrom 0 none agenda.items := bestFrom_map _ _ _
  rw [hbest]
  cases bestFrom 0 none agenda.items with
  | none => rfl
  | some best => exact remove?_map agenda best.1

theorem insertAbove_map (item : β × α) (items : List (β × α)) :
    insertAbove (Prod.map g id item) (items.map (Prod.map g id)) = (insertAbove item items).map (Prod.map g id) := by
  induction items with
  | nil => rfl
  | cons other rest ih =>
    rw [List.map_cons, insertAbove, insertAbove]
    show (if Score.lt other.2 item.2 = true then _ else _) = _
    split
    · rw [ih]
      rfl
    · rfl

/-- The order into which a list of items is brought depends on priorities alone. -/
theorem sort_map (agenda : ListAgenda β α) : (agenda.map g).sort = agenda.sort.map g := by
  have hfold : agenda.items.foldl (fun sorted item => insertAbove (Prod.map g id item) sorted)
        (([] : List (β × α)).map (Prod.map g id)) =
      (agenda.items.foldl (fun sorted item => insertAbove item sorted) []).map (Prod.map g id) :=
    List.foldl_hom (List.map (Prod.map g id)) fun sorted item => insertAbove_map item sorted
  unfold sort map
  dsimp only
  rw [List.map_reverse, ← hfold, List.foldl_map, List.map_nil]

end ListAgenda

/-- Which entry is a greatest one does not depend on the items. -/
theorem QueueEntry.takeGreatest_map [Score α] (e : QueueEntry β α) (rest : List (QueueEntry β α)) :
    (e.map g).takeGreatest (rest.map (QueueEntry.map g)) =
      ((e.takeGreatest rest).1.map g, (e.takeGreatest rest).2.map (QueueEntry.map g)) := by
  induction rest generalizing e with
  | nil => rfl
  | cons other rest ih =>
    rw [List.map_cons, takeGreatest, takeGreatest, ih other]
    show (if e.order (other.takeGreatest rest).1 = .lt then _ else _) = _
    split <;> rfl

namespace Agenda

theorem size_map (agenda : Agenda β α) : (agenda.map g).size = agenda.size := by
  cases agenda <;> exact List.length_map _

theorem get?_map (agenda : Agenda β α) (i : Nat) : (agenda.map g).get? i = (agenda.get? i).map g := by
  cases agenda with
  | list agenda => exact agenda.get?_map i
  | queue agenda => rfl

theorem remove?_map (agenda : Agenda β α) (i : Nat) :
    (agenda.map g).remove? i = (agenda.remove? i).map (mapTaken g) := by
  cases agenda with
  | list agenda =>
    unfold remove? map
    dsimp only
    rw [ListAgenda.remove?_map]
    cases agenda.remove? i <;> rfl
  | queue agenda => rfl

variable [Score α]

omit [Score α] in
theorem add_map (agenda : Agenda β α) (item : β) (priority : α) :
    (agenda.map g).add (g item) priority = (agenda.add item priority).map g := by
  cases agenda with
  | list agenda =>
    show list ⟨agenda.items.map (Prod.map g id) ++ [(g item, priority)]⟩ =
      list ⟨(agenda.items ++ [(item, priority)]).map (Prod.map g id)⟩
    rw [List.map_append]
    rfl
  | queue agenda => rfl

theorem sort_map (agenda : Agenda β α) : (agenda.map g).sort = agenda.sort.map g := by
  cases agenda with
  | list agenda => exact congrArg list agenda.sort_map
  | queue agenda => rfl

/-- **What an agenda gives out** is found by its priority, in either kind of agenda. -/
theorem pop?_map (agenda : Agenda β α) : (agenda.map g).pop? = agenda.pop?.map (mapTaken g) := by
  cases agenda with
  | list agenda =>
    unfold pop? map
    dsimp only
    rw [ListAgenda.pop?_map]
    cases agenda.pop? <;> rfl
  | queue agenda =>
    obtain ⟨heap, seq⟩ := agenda
    cases heap with
    | nil => rfl
    | cons e rest =>
      have htake := QueueEntry.takeGreatest_map (g := g) e rest
      show some (_, queue ⟨_, seq⟩) = some (_, queue ⟨_, seq⟩)
      rw [htake]
      rfl

end Agenda

end Agendas

/-! ## Best first -/

namespace Arena

variable [Score α]

/-- **Scoring a tree anew** does not look at numbers. -/
theorem rescore_renumber (w : Weights α) (i : Nat) (arena : Arena α) :
    (arena.renumber f).rescore w i = ((arena.rescore w i).1.renumber f, (arena.rescore w i).2) := by
  induction i using Nat.strongRecOn generalizing arena with
  | ind i ih =>
    have hall : ∀ (children : List Nat) (arena : Arena α) (total : α),
        rescoreAll (arena.renumber f) w i total children =
          ((rescoreAll arena w i total children).1.renumber f, (rescoreAll arena w i total children).2) := by
      intro children
      induction children with
      | nil =>
        intro arena total
        rw [rescoreAll, rescoreAll]
      | cons c rest ihr =>
        intro arena total
        rw [rescoreAll, rescoreAll]
        split
        case isTrue hc =>
          rw [ih c hc]
          exact ihr _ _
        case isFalse => exact ihr _ _
    have hfeatures := read_renumber (f := f) Derivation.features (fun _ => rfl) arena i
    have hchildren := read_renumber (f := f) Derivation.children (fun _ => rfl) arena i
    rw [rescore, rescore]
    dsimp only
    rw [hfeatures, hchildren, hall]
    refine Prod.ext ?_ rfl
    apply modify_renumber
    intro d
    rfl

end Arena

namespace BestFirst

variable [Score α] {task : Task α} {p : Progress α} {s : Search α}

/-- What waits, with another number on the next derivation. -/
def Pending.renumber (f : Nat → Nat) (item : Pending α) : Pending α := { item with next := item.next.renumber f }

/-- The search with other numbers on all derivations, those that wait included. -/
def Search.renumber (f : Nat → Nat) (s : Search α) : Search α :=
  { s with progress := s.progress.renumber f, agenda := s.agenda.map (Pending.renumber f) }

/-- All that the chart of the search lists is in its arena. -/
def Search.InRange (s : Search α) : Prop := s.progress.InRange

/-! ### Waiting -/

/-- The priority of what is going to wait is made of its score and of how many items have waited so far. -/
theorem enqueue_renumber (s : Search α) (item : Pending α) :
    enqueue (s.renumber f) (item.renumber f) = (enqueue s item).renumber f := by
  have hadd := Agenda.add_map (g := Pending.renumber f) s.agenda item
    (item.next.score - Score.ofNat s.pushed * delay)
  unfold enqueue
  show (if Score.eq item.next.score Score.negInf = true then s.renumber f else
    { s.renumber f with
      agenda := if (s.pushed + 1) % sortInterval = 0 then
          ((s.agenda.map (Pending.renumber f)).add (item.renumber f)
            (item.next.score - Score.ofNat s.pushed * delay)).sort
        else (s.agenda.map (Pending.renumber f)).add (item.renumber f)
          (item.next.score - Score.ofNat s.pushed * delay)
      pushed := s.pushed + 1 }) = _
  rw [hadd]
  dsimp only
  split
  · rfl
  · split
    · rw [Agenda.sort_map]
      rfl
    · rfl

/-- What starts to wait is not in the arena, so it leaves the progress as it is. -/
theorem progress_enqueue (s : Search α) (item : Pending α) : (enqueue s item).progress = s.progress := by
  unfold enqueue
  dsimp only
  split <;> rfl

theorem pushDerivation_renumber (task : Task α) (s : Search α) (a : Application) (d : Derivation α)
    (rest : Stream Candidate) :
    pushDerivation (task.renumber f) (s.renumber f) a (d.renumber f) rest =
      (pushDerivation task s a d rest).renumber f := by
  have hscored : (s.renumber f).progress.featurize (task.renumber f) (d.renumber f) = _ :=
    featurize_renumber s.progress task d
  unfold pushDerivation
  rw [hscored]
  exact enqueue_renumber { s with progress := (s.progress.featurize task d).2 }
    { application := a, next := (s.progress.featurize task d).1, rest }

theorem Search.InRange.pushDerivation (h : s.InRange) (task : Task α) (a : Application) (d : Derivation α)
    (rest : Stream Candidate) : (pushDerivation task s a d rest).InRange := by
  unfold Search.InRange BestFirst.pushDerivation
  rw [progress_enqueue]
  exact Progress.InRange.featurize h task d

/-- A candidate is made into a derivation, which then waits. -/
theorem pushDerivation_make_renumber (task : Task α) (s : Search α) (a : Application) (candidate : Candidate)
    (rest : Stream Candidate) :
    pushDerivation (task.renumber f)
        { s.renumber f with progress := ((s.progress.renumber f).make (task.renumber f) a candidate).2 } a
        ((s.progress.renumber f).make (task.renumber f) a candidate).1 rest =
      (pushDerivation task { s with progress := (s.progress.make task a candidate).2 } a
        (s.progress.make task a candidate).1 rest).renumber f := by
  rw [make_renumber]
  exact pushDerivation_renumber task { s with progress := (s.progress.make task a candidate).2 } a
    (s.progress.make task a candidate).1 rest

/-- All results of a rule are made to wait at once, up to one that is an error. -/
theorem mirrors_pushEach (task : Task α) (a : Application) (results : List (Except SemanticError Candidate))
    (h : s.InRange) :
    Mirrors (Search.renumber f) Search.InRange (pushEach task a results s)
      (pushEach (task.renumber f) a results (s.renumber f)) := by
  induction results generalizing s with
  | nil => exact .ok h
  | cons result rest ih =>
    cases result with
    | error cause =>
      have hfailure : (s.renumber f).progress.failure a cause = s.progress.failure a cause :=
        failure_renumber s.progress a cause
      rw [pushEach, pushEach, hfailure]
      exact .error _
    | ok candidate =>
      have hmade : Search.InRange { s with progress := (s.progress.make task a candidate).2 } := h
      have hrest := ih (hmade.pushDerivation task a (s.progress.make task a candidate).1 .empty)
      rw [← pushDerivation_make_renumber] at hrest
      exact hrest

theorem mirrors_pushNext (task : Task α) (a : Application) (results : Stream Candidate) (h : s.InRange) :
    Mirrors (Search.renumber f) Search.InRange (pushNext task s a results)
      (pushNext (task.renumber f) (s.renumber f) a results) := by
  unfold pushNext
  split
  case h_1 => exact .ok h
  case h_2 cause _ _ =>
    have hfailure : (s.renumber f).progress.failure a cause = s.progress.failure a cause :=
      failure_renumber s.progress a cause
    rw [hfailure]
    exact .error _
  case h_3 candidate rest _ =>
    have hmade : Search.InRange { s with progress := (s.progress.make task a candidate).2 } := h
    have hpushed := Mirrors.ok (ε := ParseError) (g := Search.renumber f)
      (hmade.pushDerivation task a (s.progress.make task a candidate).1 rest)
    rw [← pushDerivation_make_renumber] at hpushed
    exact hpushed

theorem mirrors_push (options : Options α) (task : Task α) (a : Application) (results : Stream Candidate)
    (h : s.InRange) :
    Mirrors (Search.renumber f) Search.InRange (push options task s a results)
      (push options (task.renumber f) (s.renumber f) a results) := by
  unfold push
  split
  · exact mirrors_pushEach task a _ h
  · exact mirrors_pushNext task a results h

/-- **An application of a rule** has the same results to wait. -/
theorem mirrors_pushApplication (options : Options α) (task : Task α) (a : Application) (h : s.InRange) :
    Mirrors (Search.renumber f) Search.InRange (pushApplication options task s a)
      (pushApplication options (task.renumber f) (s.renumber f) a) := by
  have hresults : (s.renumber f).progress.results (task.renumber f) a = s.progress.results task a :=
    results_renumber s.progress task a
  unfold pushApplication
  rw [hresults]
  exact mirrors_push options task a _ h

/-- What was taken from the agenda, renumbered with the search that is left. -/
def renumberTaken (f : Nat → Nat) (taken : Pending α × Search α) : Pending α × Search α :=
  (taken.1.renumber f, taken.2.renumber f)

/-- **What is taken next** is the same item with another number, the best one or the one that is drawn. -/
theorem pop?_renumber (options : Options α) (s : Search α) :
    pop? options (s.renumber f) = (pop? options s).map (renumberTaken f) := by
  unfold pop?
  split
  case h_1 =>
    have hpop : (s.renumber f).agenda.pop? = _ := Agenda.pop?_map (g := Pending.renumber f) s.agenda
    rw [hpop, Option.map_map, Option.map_map]
    rfl
  case h_2 draws _ =>
    -- the scores that wait are the same, and so is the place that is drawn
    have hscores : ((List.range (s.renumber f).agenda.size).filterMap fun i =>
        ((s.renumber f).agenda.get? i).map fun item => item.next.score) =
        (List.range s.agenda.size).filterMap fun i => (s.agenda.get? i).map fun item => item.next.score := by
      have hsize : (s.renumber f).agenda.size = s.agenda.size := Agenda.size_map s.agenda
      rw [hsize]
      congr 1
      funext i
      have hget : (s.renumber f).agenda.get? i = _ := Agenda.get?_map (g := Pending.renumber f) s.agenda i
      rw [hget, Option.map_map]
      rfl
    dsimp only
    rw [hscores]
    have hremove : ∀ place, (s.renumber f).agenda.remove? place = _ :=
      fun place => Agenda.remove?_map (g := Pending.renumber f) s.agenda place
    rw [hremove, Option.map_map, Option.map_map]
    rfl

theorem progress_of_pop? {options : Options α} {taken : Pending α × Search α} (h : pop? options s = some taken) :
    taken.2.progress = s.progress := by
  unfold pop? at h
  split at h
  · obtain ⟨_, _, rfl⟩ := Option.map_eq_some_iff.mp h
    rfl
  · obtain ⟨_, _, rfl⟩ := Option.map_eq_some_iff.mp h
    rfl

/-! ### Combining -/

/-- A derivation is combined with its neighbours by its category and its span. -/
theorem combinations_renumber (index : SiblingIndex) (task : Task α) (p : Progress α) (i : Nat) :
    combinations index (task.renumber f) (p.renumber f) i = combinations index task p i := by
  have hcat : ((p.renumber f).arena.get i).cat = (p.arena.get i).cat :=
    Arena.read_renumber Derivation.cat (fun _ => rfl) p.arena i
  have hfirst : ((p.renumber f).arena.get i).first = (p.arena.get i).first :=
    Arena.read_renumber Derivation.first (fun _ => rfl) p.arena i
  have hlast : ((p.renumber f).arena.get i).last = (p.arena.get i).last :=
    Arena.read_renumber Derivation.last (fun _ => rfl) p.arena i
  have hright : rightward index (task.renumber f) (p.renumber f) i = rightward index task p i := by
    unfold rightward
    dsimp only
    rw [hcat, hfirst, hlast]
    rfl
  have hleft : leftward index (task.renumber f) (p.renumber f) i = leftward index task p i := by
    unfold leftward
    dsimp only
    rw [hcat, hfirst, hlast]
    rfl
  unfold combinations
  dsimp only
  rw [hright, hleft, hcat, hfirst, hlast]
  rfl

/-! ### Searching -/

/-- What became of a derivation, and the progress renumbered. -/
def renumberAdded (f : Nat → Nat) (added : Option Nat × Progress α) : Option Nat × Progress α :=
  (added.1, added.2.renumber f)

/-- **Adding to a cell with a bound**: whether there is room for a derivation, and where it is sorted in, does not
depend on its number as such. -/
theorem addToBoundedChart_renumber (hf : StrictMono f) (h : p.InRange) (d : Derivation α) :
    (p.renumber f).addToBoundedChart (d.renumber f) = renumberAdded f (p.addToBoundedChart d) ∧
      (p.addToBoundedChart d).2.InRange := by
  unfold addToBoundedChart
  show (if p.chart.beam.size ≤ (p.chart.get d.first d.last d.cat).length then _ else _) = _ ∧ _
  split
  case isTrue hfull =>
    rw [if_pos (show p.count.chart.beam.size ≤ (p.count.chart.get d.first d.last d.cat).length from hfull)]
    exact ⟨rfl, h⟩
  case isFalse hfull =>
    rw [if_neg (show ¬ p.count.chart.beam.size ≤ (p.count.chart.get d.first d.last d.cat).length from hfull)]
    have hcount : p.count.InRange := h
    have hinserted := hcount.insert d
    have hinsert : (p.renumber f).count.insert (d.renumber f) = (p.count.insert d).renumber f :=
      insert_renumber p.count d
    have hsort : ((p.count.insert d).renumber f).chart.sortCell ((p.count.insert d).renumber f).arena d.first d.last
        d.cat = (p.count.insert d).chart.sortCell (p.count.insert d).arena d.first d.last d.cat :=
      congrArg ((p.count.insert d).chart.setCell d.first d.last d.cat) (Arena.sort_renumber hf hinserted.get)
    constructor
    · dsimp only
      rw [hinsert]
      show (some (p.arena.renumber f).size, ({ (p.count.insert d).renumber f with
        chart := ((p.count.insert d).renumber f).chart.sortCell ((p.count.insert d).renumber f).arena d.first d.last
          d.cat } : Progress α)) = _
      rw [hsort, Arena.size_renumber]
      rfl
    · apply hinserted.mono
      · exact Nat.le_refl _
      · intro _ _ _ _ hi
        exact hi.of_sortCell

/-- **One step**: what was taken is added and combined with its neighbours, and what is left of its rule waits. -/
theorem mirrors_step (hf : StrictMono f) (options : Options α) (index : SiblingIndex) (task : Task α)
    (item : Pending α) (h : s.InRange) :
    Mirrors (Search.renumber f) Search.InRange (step options index task item s)
      (step options index (task.renumber f) (item.renumber f) (s.renumber f)) := by
  obtain ⟨hadd, hadded⟩ := addToBoundedChart_renumber hf h item.next
  have hadd' : (s.renumber f).progress.addToBoundedChart (item.renumber f).next = _ := hadd
  unfold step
  rw [hadd']
  generalize s.progress.addToBoundedChart item.next = added at hadded
  obtain ⟨number, progress⟩ := added
  dsimp only [renumberAdded]
  -- the other results of the rule wait again, whether this one was added or not
  have hs : Search.InRange { s with progress } := hadded
  have hpush : ∀ s : Search α, s.InRange → Mirrors (Search.renumber f) Search.InRange
      (push options task s item.application item.rest)
      (push options (task.renumber f) (s.renumber f) item.application item.rest) :=
    fun s hs => mirrors_push options task item.application item.rest hs
  cases number with
  | none => exact hpush _ hs
  | some i =>
    dsimp only
    rw [combinations_renumber]
    exact (Mirrors.foldlM (fun s a hs => mirrors_pushApplication options task a hs) _ hs).bind hpush

/-- **The search goes on** for as many steps, and ends for the same reason. -/
theorem mirrors_search (hf : StrictMono f) (options : Options α) (index : SiblingIndex) (task : Task α) (fuel : Nat)
    (h : s.InRange) :
    Mirrors (Search.renumber f) Search.InRange (search options index task fuel s)
      (search options index (task.renumber f) fuel (s.renumber f)) := by
  induction fuel generalizing s with
  | zero => exact .error _
  | succ fuel ih =>
    have hcontinues : continues (task.renumber f) (s.renumber f) = continues task s := by
      have hsize : (s.renumber f).agenda.size = s.agenda.size := Agenda.size_map s.agenda
      unfold continues
      rw [hsize]
      rfl
    rw [search, search, hcontinues]
    split
    case isTrue => exact .ok h
    case isFalse =>
      rw [pop?_renumber]
      cases hpop : pop? options s with
      | none => exact .ok h
      | some taken =>
        -- taking from the agenda leaves the progress as it is
        have htaken : taken.2.InRange := by
          unfold Search.InRange
          rw [progress_of_pop? hpop]
          exact h
        apply Mirrors.bind (mirrors_step hf options index task taken.1 htaken)
        intro s hs
        show Mirrors _ _ (if s.progress.limitReached task = true then _ else _)
          (if s.progress.limitReached task = true then _ else _)
        split
        · exact .ok hs
        · exact ih hs

/-- The tokens and phrases wait first, and then what the rules make that rewrite to tokens. -/
theorem mirrors_seed (options : Options α) (index : SiblingIndex) (task : Task α) :
    Mirrors (Search.renumber f) Search.InRange (seed options index task)
      (seed options index (task.renumber f)) := by
  have hstart : start options (task.renumber f) = (start options task).renumber f := by
    unfold start
    rw [startWithTerminals_renumber]
    cases options.sample <;> rfl
  have hin : (start options task).InRange := inRange_startWithTerminals task
  -- the terminals wait, each of them renumbered
  have hterminals : ∀ a : Application,
      (terminalDerivations task).foldl (fun s d => pushDerivation (task.renumber f) s a (d.renumber f) .empty)
          ((start options task).renumber f) =
          ((terminalDerivations task).foldl (fun s d => pushDerivation task s a d .empty)
            (start options task)).renumber f ∧
        ((terminalDerivations task).foldl (fun s d => pushDerivation task s a d .empty)
          (start options task)).InRange := by
    intro a
    apply foldl_hom_of (P := Search.InRange) (Search.renumber f) _ _ hin
    intro s d hs
    exact ⟨pushDerivation_renumber task s a d .empty, hs.pushDerivation task a d .empty⟩
  obtain ⟨heq, hseeded⟩ := hterminals { rule := .null, first := 0, last := 0, children := [] }
  unfold seed
  dsimp only
  rw [terminalDerivations_renumber, hstart, List.foldl_map, heq]
  exact Mirrors.foldlM (fun s a hs => mirrors_pushApplication options task a hs) _ hseeded

/-- **The last sorting**: the whole parses get the same scores anew, and so the same order. -/
theorem rerank_renumber (hf : StrictMono f) (task : Task α) (h : p.InRange) :
    rerank (task.renumber f) (p.renumber f) = (rerank task p).renumber f := by
  have hscores : ∀ arena : Arena α,
      p.roots.foldl (fun arena i => (arena.rescore task.weights i).1) (arena.renumber f) =
        (p.roots.foldl (fun arena i => (arena.rescore task.weights i).1) arena).renumber f := by
    intro arena
    apply List.foldl_hom (Arena.renumber f)
    intro arena i
    rw [Arena.rescore_renumber]
  have hsize : (p.roots.foldl (fun arena i => (arena.rescore task.weights i).1) p.arena).size = p.arena.size := by
    apply Arena.size_eq_of_shapes
    apply Arena.shapes_foldl
    exact fun arena i => Arena.shapes_rescore task.weights i arena
  unfold rerank
  show ({ p.renumber f with
    arena := p.roots.foldl (fun arena i => (arena.rescore task.weights i).1) (p.arena.renumber f)
    chart := p.chart.sortCell (p.roots.foldl (fun arena i => (arena.rescore task.weights i).1) (p.arena.renumber f))
      0 task.length rootCat } : Progress α) = _
  rw [hscores]
  unfold Chart.sortCell
  rw [Arena.sort_renumber hf fun i hi => hsize ▸ h.get i hi]
  rfl

/-- **The search that takes the best derivations first** with other numbers in the same order. -/
theorem mirrors_run (hf : StrictMono f) (options : Options α) (index : SiblingIndex) (task : Task α) (fuel : Nat) :
    Mirrors (Progress.renumber f) (fun _ => True) (run options index task fuel)
      (run options index (task.renumber f) fuel) := by
  unfold run
  apply Mirrors.bind (mirrors_seed options index task)
  intro s hs
  apply Mirrors.bind (mirrors_search hf options index task fuel hs)
  intro s hs
  have hrerank : rerank (task.renumber f) (s.renumber f).progress = _ := rerank_renumber hf task hs
  show Mirrors _ _ _ (.ok (rerank (task.renumber f) (s.renumber f).progress))
  rw [hrerank]
  exact .ok trivial

end BestFirst

end Parlance
