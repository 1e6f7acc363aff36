import Parlance.Proofs.Agenda
import Parlance.Proofs.Moments

/-!
# `Proofs.SearchInvariant` — what a search for the best derivations keeps

Between two steps of a search, derivations wait: each item of the agenda has the next derivation of its rule, made and
scored already, and the results that come after it. So what is true of a search is said about the parse so far, about
the derivations that wait, and about the rules that have results left. If all of this is true to begin with, and each
part of a step keeps it, it is true in every state that the search goes through, whether it succeeds or not.

## Contents
- **Facts.** `Facts`, and searches that meet them: `Search.Meets`.
- **Keeping.** `Facts.Kept`, what has to be shown of each part of a step.
- **Steps.** From putting on one item to whole searches.
- **States.** `states`, `Facts.Kept.meets` and `exists_state_of_mem_moments`.
-/

namespace Parlance.BestFirst

open Progress

variable {α : Type} [Score α]

/-! ## Facts -/

/-- **Facts about a search**: about its parse, about derivations that wait to be added, and about rules that wait with
their later results. -/
structure Facts (α : Type) where
  parse : Progress α → Prop
  waiting : Arena α → Derivation α → Prop
  applied : Arena α → Application → Prop

/-- The facts are true of an item. A rule without results left need not be known. -/
structure Pending.Meets (F : Facts α) (arena : Arena α) (item : Pending α) : Prop where
  next : F.waiting arena item.next
  rest : item.rest.items = [] ∨ F.applied arena item.application

/-- **The facts are true of a search.** -/
structure Search.Meets (F : Facts α) (s : Search α) : Prop where
  parse : F.parse s.progress
  items : ∀ item ∈ s.agenda.contents, item.Meets F s.progress.arena

/-- A later state in which nothing has been added to the chart yet. -/
structure Stays (F : Facts α) (s t : Search α) : Prop where
  meets : t.Meets F
  arena : t.progress.arena = s.progress.arena

/-! ## Keeping -/

/-- **What each part of a step has to keep.** -/
structure Facts.Kept (F : Facts α) (index : SiblingIndex) (task : Task α) : Prop where
  start : F.parse (startWithTerminals task)
  /-- Counts have no part in the facts. -/
  count : ∀ {p q : Progress α}, q.arena = p.arena → q.chart.cells = p.chart.cells → F.parse p → F.parse q
  terminal : ∀ d ∈ terminalDerivations task, ∀ p, F.parse p → F.waiting p.arena (p.rated task d)
  literal : ∀ a ∈ literalApplications index task, ∀ arena, F.applied arena a
  make : ∀ {p a}, F.parse p → F.applied p.arena a → ∀ candidate,
    F.waiting p.arena (p.rated task (p.make task a candidate).1)
  add : ∀ {p d}, F.parse p → F.waiting p.arena d → F.parse (p.addToBoundedChart d).2
  combine : ∀ {p d i q}, F.parse p → F.waiting p.arena d → p.addToBoundedChart d = (some i, q) →
    ∀ a ∈ combinations index task q i, F.applied q.arena a
  waits : ∀ {arena d} e, F.waiting arena d → F.waiting (arena.push e) d
  applies : ∀ {arena a} e, F.applied arena a → F.applied (arena.push e) a

section Steps

variable {options : Options α} {index : SiblingIndex} {task : Task α} {F : Facts α} {s t : Search α} {a : Application}
  {d : Derivation α} {p : Progress α}

/-- Adding a derivation puts it into the arena, or leaves the arena as it is. -/
theorem arena_addToBoundedChart (p : Progress α) (d : Derivation α) :
    (p.addToBoundedChart d).2.arena = p.arena ∨ (p.addToBoundedChart d).2.arena = p.arena.push d := by
  unfold addToBoundedChart
  dsimp only
  split
  · exact .inl rfl
  · exact .inr rfl

/-- What waits goes on waiting when something is added. -/
theorem Pending.Meets.add {item : Pending α} (hF : F.Kept index task) (h : item.Meets F p.arena) (d : Derivation α) :
    item.Meets F (p.addToBoundedChart d).2.arena := by
  rcases arena_addToBoundedChart p d with he | he
  · rw [he]
    exact h
  · rw [he]
    exact ⟨hF.waits d h.next, h.rest.imp_right (hF.applies d)⟩

/-! ## Steps -/

omit [Score α] in
theorem Stays.refl (h : s.Meets F) : Stays F s s := ⟨h, rfl⟩

omit [Score α] in
theorem Stays.trans {u : Search α} (h : Stays F s t) (h' : Stays F t u) : Stays F s u :=
  ⟨h'.meets, h'.arena.trans h.arena⟩

/-- Putting an item on the agenda. -/
theorem stays_enqueue (h : s.Meets F) {item : Pending α} (hi : item.Meets F s.progress.arena) :
    Stays F s (enqueue s item) := by
  unfold enqueue
  dsimp only
  split
  case isTrue => exact .refl h
  case isFalse =>
    refine ⟨⟨h.parse, fun other hother => ?_⟩, rfl⟩
    have hmem : other ∈ item ::ₘ s.agenda.contents := by
      dsimp only at hother
      split at hother
      · rwa [Agenda.contents_sort, Agenda.contents_add] at hother
      · rwa [Agenda.contents_add] at hother
    rcases Multiset.mem_cons.mp hmem with rfl | hmem
    · exact hi
    · exact h.items other hmem

/-- Putting a derivation on the agenda, with the results after it. -/
theorem stays_pushDerivation (hF : F.Kept index task) (h : s.Meets F) (rest : Stream Candidate)
    (hd : F.waiting s.progress.arena (s.progress.rated task d))
    (hrest : rest.items = [] ∨ F.applied s.progress.arena a) : Stays F s (pushDerivation task s a d rest) := by
  obtain ⟨harena, hcells⟩ : (s.progress.featurize task d).2.arena = s.progress.arena ∧
      (s.progress.featurize task d).2.chart.cells = s.progress.chart.cells := by
    unfold featurize
    split
    · exact ⟨rfl, rfl⟩
    · exact ⟨rfl, rfl⟩
  have hrated : Search.Meets F { s with progress := (s.progress.featurize task d).2 } := by
    refine ⟨hF.count harena hcells h.parse, fun item hi => ?_⟩
    rw [harena]
    exact h.items item hi
  have hitem : Pending.Meets F (s.progress.featurize task d).2.arena ⟨a, s.progress.rated task d, rest⟩ := by
    rw [harena]
    exact ⟨hd, hrest⟩
  obtain ⟨hmeets, he⟩ := stays_enqueue hrated hitem
  exact ⟨hmeets, he.trans harena⟩

/-- Making the next derivation of a rule and putting it on the agenda. -/
theorem stays_make (hF : F.Kept index task) (h : s.Meets F) (ha : F.applied s.progress.arena a) (candidate : Candidate)
    (rest : Stream Candidate) :
    Stays F s (pushDerivation task { s with progress := (s.progress.make task a candidate).2 } a
      (s.progress.make task a candidate).1 rest) := by
  have hmade : Search.Meets F { s with progress := (s.progress.make task a candidate).2 } :=
    ⟨hF.count (p := s.progress) rfl rfl h.parse, h.items⟩
  have hrated : Progress.rated (s.progress.make task a candidate).2 task (s.progress.make task a candidate).1 =
      s.progress.rated task (s.progress.make task a candidate).1 :=
    rated_of_arena (p := s.progress) (q := (s.progress.make task a candidate).2) rfl _
  obtain ⟨hmeets, he⟩ := stays_pushDerivation hF hmade rest (hrated ▸ hF.make h.parse ha candidate) (.inr ha)
  exact ⟨hmeets, he⟩

theorem stays_pushEach (hF : F.Kept index task) (items : List (Except SemanticError Candidate)) (h : s.Meets F)
    (ha : items = [] ∨ F.applied s.progress.arena a) (ht : pushEach task a items s = .ok t) : Stays F s t := by
  induction items generalizing s with
  | nil =>
    obtain rfl := Except.ok.inj ht
    exact .refl h
  | cons item rest ih =>
    have happlied := ha.resolve_left (List.cons_ne_nil _ _)
    cases item with
    | error e => cases ht
    | ok candidate =>
      have hfirst := stays_make hF h happlied candidate .empty
      exact hfirst.trans (ih hfirst.meets (.inr (by rw [hfirst.arena]; exact happlied)) ht)

/-- **Putting a rule with its results on the agenda.** -/
theorem stays_push (hF : F.Kept index task) {results : Stream Candidate} (h : s.Meets F)
    (ha : results.items = [] ∨ F.applied s.progress.arena a) (ht : push options task s a results = .ok t) :
    Stays F s t := by
  unfold push at ht
  split at ht
  case isTrue => exact stays_pushEach hF _ h ha ht
  case isFalse =>
    unfold pushNext Stream.next? at ht
    cases hitems : results.items with
    | nil =>
      rw [hitems] at ht
      obtain rfl := Except.ok.inj ht
      exact .refl h
    | cons item rest =>
      rw [hitems] at ht
      have happlied := ha.resolve_left (by rw [hitems]; exact List.cons_ne_nil _ _)
      cases item with
      | error e => cases ht
      | ok candidate =>
        obtain rfl := Except.ok.inj ht
        exact stays_make hF h happlied candidate _

/-- **Applying rules and putting them on the agenda.** -/
theorem stays_pushMoments (hF : F.Kept index task) {l : List Application} (h : s.Meets F)
    (hl : ∀ a ∈ l, F.applied s.progress.arena a) : ∀ t ∈ pushMoments options task l s, Stays F s t := by
  refine forall_mem_foldMoments (.refl h) ?_ fun a _ u v hv => ?_
  case refine_2 => exact List.mem_cons_of_mem _ (mem_andThen.mpr ⟨v, hv, List.mem_singleton_self _⟩)
  intro a ha u hu t ht
  rcases List.mem_cons.mp ht with rfl | ht
  · exact hu
  · obtain ⟨v, hv, ht⟩ := mem_andThen.mp ht
    obtain rfl := List.mem_singleton.mp ht
    exact hu.trans (stays_push hF hu.meets (.inr (by rw [hu.arena]; exact hl a ha)) hv)

/-- What is taken off was waiting, and nothing else has changed. -/
theorem of_pop {item : Pending α} (h : pop? options s = some (item, t)) :
    t.progress = s.progress ∧ item ∈ s.agenda.contents ∧ ∀ other ∈ t.agenda.contents, other ∈ s.agenda.contents := by
  unfold pop? at h
  split at h
  case h_1 =>
    obtain ⟨⟨item', agenda⟩, hpop, he⟩ := Option.map_eq_some_iff.mp h
    obtain ⟨rfl, rfl⟩ := Prod.mk.inj he
    exact ⟨rfl, Agenda.mem_of_pop hpop⟩
  case h_2 =>
    obtain ⟨⟨item', agenda⟩, hremove, he⟩ := Option.map_eq_some_iff.mp h
    obtain ⟨rfl, rfl⟩ := Prod.mk.inj he
    exact ⟨rfl, Agenda.mem_of_remove hremove⟩

/-- The later results of an item wait again. -/
theorem meets_again (hF : F.Kept index task) {item : Pending α} (h : s.Meets F) (hi : item.Meets F s.progress.arena) :
    ∀ t ∈ atOnce (push options task · item.application item.rest) s, t.Meets F := by
  intro t ht
  rcases List.mem_cons.mp ht with rfl | ht
  · exact h
  · obtain ⟨u, hu, ht⟩ := mem_andThen.mp ht
    obtain rfl := List.mem_singleton.mp ht
    exact (stays_push hF h hi.rest hu).meets

/-- **A step.** -/
theorem meets_stepMoments (hF : F.Kept index task) {item : Pending α} (h : s.Meets F)
    (hi : item.Meets F s.progress.arena) : ∀ t ∈ stepMoments options index task item s, t.Meets F := by
  intro t ht
  have hparse := hF.add h.parse hi.next
  have hitems : ∀ other : Pending α, other.Meets F s.progress.arena → _ := fun other ho => ho.add hF item.next
  unfold stepMoments at ht
  cases hadd : s.progress.addToBoundedChart item.next with
  | mk added progress =>
    rw [hadd] at hparse hitems ht
    have hadded : Search.Meets F { s with progress } := ⟨hparse, fun other ho => hitems other (h.items other ho)⟩
    rcases List.mem_cons.mp ht with rfl | ht
    · exact h
    cases added with
    | none => exact meets_again hF hadded (hitems item hi) t ht
    | some i =>
      have hcombined : ∀ t ∈ pushMoments options task (combinations index task progress i) { s with progress },
          Stays F { s with progress } t := stays_pushMoments hF hadded (hF.combine h.parse hi.next hadd)
      rcases List.mem_append.mp ht with ht | ht
      · exact (hcombined t ht).meets
      · obtain ⟨u, hu, ht⟩ := mem_andThen.mp ht
        obtain ⟨hmade, harena⟩ := hcombined u (mem_foldMoments hu)
        exact meets_again hF hmade (by rw [harena]; exact hitems item hi) t ht

/-- **Steps, as many as there are.** -/
theorem meets_searchMoments (hF : F.Kept index task) {fuel : Nat} (h : s.Meets F) :
    ∀ t ∈ searchMoments options index task fuel s, t.Meets F := by
  induction fuel generalizing s with
  | zero =>
    intro t ht
    rw [List.mem_singleton.mp ht]
    exact h
  | succ fuel ih =>
    intro t ht
    rcases List.mem_cons.mp ht with rfl | ht
    · exact h
    split at ht
    case isTrue => cases ht
    case isFalse =>
      split at ht
      case h_1 => cases ht
      case h_2 item u hpop =>
        obtain ⟨hprogress, hitem, hothers⟩ := of_pop hpop
        have hu : u.Meets F := by
          refine ⟨hprogress ▸ h.parse, fun other hother => ?_⟩
          rw [hprogress]
          exact h.items other (hothers other hother)
        have hstep : ∀ t ∈ stepMoments options index task item u, t.Meets F :=
          meets_stepMoments hF hu (by rw [hprogress]; exact h.items item hitem)
        rcases List.mem_append.mp ht with ht | ht
        · exact hstep t ht
        · obtain ⟨v, hv, ht⟩ := mem_andThen.mp ht
          have hmade := hstep v (mem_stepMoments hv)
          split at ht
          case isTrue =>
            rw [List.mem_singleton.mp ht]
            exact hmade
          case isFalse => exact ih hmade t ht

omit [Score α] in
theorem meets_start (hF : F.parse (startWithTerminals task)) (options : Options α) : (start options task).Meets F := by
  refine ⟨hF, fun item hi => ?_⟩
  unfold start at hi
  dsimp only at hi
  split at hi
  · cases hi
  · cases hi

theorem meets_seedMoments (hF : F.Kept index task) : ∀ t ∈ seedMoments options index task, t.Meets F := by
  have hterminals : ∀ t ∈ (terminalDerivations task).scanl
      (fun s d => pushDerivation task s ⟨.null, 0, 0, []⟩ d .empty) (start options task), Search.Meets F t :=
    forall_mem_scanl (P := Search.Meets F) (meets_start hF.start options) fun d hd s h =>
      (stays_pushDerivation hF h .empty (hF.terminal d hd _ h.parse) (.inl rfl)).meets
  intro t ht
  rcases List.mem_append.mp ht with ht | ht
  · exact hterminals t ht
  · have hready := hterminals _ (foldl_mem_scanl _ _ _)
    exact (stays_pushMoments hF hready (fun a ha => hF.literal a ha _) t ht).meets

theorem mem_seedMoments (h : seed options index task = .ok s) : s ∈ seedMoments options index task := by
  have hlast : id s ∈ pushMoments options task (literalApplications index task) _ := mem_foldMoments h
  exact List.mem_append_right _ hlast

end Steps

/-! ## States -/

section States

variable (options : Options α) (index : SiblingIndex) (task : Task α)

/-- **The states of a search** of at most `fuel` steps, up to the failure if there is one. -/
def states (fuel : Nat) : List (Search α) :=
  seedMoments options index task ++ andThen (seed options index task) (searchMoments options index task fuel)

variable {options index task}

/-- **What each part of a step keeps** is true in every state. -/
theorem Facts.Kept.meets {F : Facts α} (hF : F.Kept index task) {fuel : Nat} :
    ∀ s ∈ states options index task fuel, s.Meets F := by
  intro s hs
  have hseed : ∀ s ∈ seedMoments options index task, s.Meets F := meets_seedMoments hF
  rcases List.mem_append.mp hs with hs | hs
  · exact hseed s hs
  · obtain ⟨t, ht, hs⟩ := mem_andThen.mp hs
    exact meets_searchMoments hF (hseed t (mem_seedMoments ht)) s hs

/-- **A moment of a search** is the parse of a state, or that with its roots scored anew. -/
theorem exists_state_of_mem_moments {fuel : Nat} {q : Progress α} (hq : q ∈ moments options index task fuel) :
    ∃ s ∈ states options index task fuel, q = s.progress ∨ q = rerank task s.progress := by
  rcases List.mem_append.mp hq with hq | hq
  · obtain ⟨s, hs, rfl⟩ := List.mem_map.mp hq
    exact ⟨s, hs, .inl rfl⟩
  · obtain ⟨p, hp, hq⟩ := mem_andThen.mp hq
    obtain rfl := List.mem_singleton.mp hq
    obtain ⟨s, hs, hp⟩ := bind_eq_ok.mp hp
    obtain ⟨t, ht, hp⟩ := bind_eq_ok.mp hp
    obtain rfl := Except.ok.inj hp
    exact ⟨t, List.mem_append_right _ (mem_andThen.mpr ⟨s, hs, mem_searchMoments ht⟩), .inr rfl⟩

end States

end Parlance.BestFirst
