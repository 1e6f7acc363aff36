import Mathlib.Data.List.Forall2

/-!
# `Proofs.Fold` — invariants of folds

A fold keeps an invariant that may speak of the part of the list that is behind it. The parts of a
computation that did not fail did not fail either, and one that failed did so in one of its parts.
-/

namespace Parlance

variable {ε σ β γ : Type}

/-- A computation of two parts that succeeds succeeds in both. -/
theorem bind_eq_ok {x : Except ε β} {f : β → Except ε γ} {c : γ} :
    (x >>= f) = .ok c ↔ ∃ b, x = .ok b ∧ f b = .ok c := by
  cases x with
  | error e => simp [bind, Except.bind]
  | ok b => simp [bind, Except.bind]

/-- A computation of two parts that fails does so in one of them. -/
theorem bind_eq_error {x : Except ε β} {f : β → Except ε γ} {e : ε} :
    (x >>= f) = .error e ↔ x = .error e ∨ ∃ b, x = .ok b ∧ f b = .error e := by
  cases x with
  | error e => simp [bind, Except.bind]
  | ok b => simp [bind, Except.bind]

/-- A result that is worked on further is there before and after. -/
theorem map_eq_ok {x : Except ε β} {f : β → γ} {c : γ} : x.map f = .ok c ↔ ∃ b, x = .ok b ∧ f b = c := by
  cases x with
  | error e => simp [Except.map]
  | ok b => simp [Except.map]

/-- A computation that does not fail has a result. -/
theorem exists_eq_ok {x : Except ε β} (h : x.toOption.isSome = true) : ∃ b, x = .ok b := by
  cases x with
  | error e => cases h
  | ok b => exact ⟨b, rfl⟩

/-- Where no step fails, each one has a result. -/
theorem forall₂_of_mapM {f : σ → Except ε β} {l : List σ} {results : List β} (h : l.mapM f = .ok results) :
    List.Forall₂ (fun s b => f s = .ok b) l results := by
  induction l generalizing results with
  | nil =>
    obtain rfl := Except.ok.inj h
    exact .nil
  | cons s l ih =>
    rw [List.mapM_cons, bind_eq_ok] at h
    obtain ⟨b, hb, h⟩ := h
    obtain ⟨rest, hrest, h⟩ := bind_eq_ok.mp h
    obtain rfl := Except.ok.inj h
    exact .cons hb (ih hrest)

/-- There are results for all steps if and only if each step has one. -/
theorem mapM_eq_some_iff {f : σ → Option β} {l : List σ} {results : List β} :
    l.mapM f = some results ↔ List.Forall₂ (fun s b => f s = some b) l results := by
  induction l generalizing results with
  | nil => simp [eq_comm]
  | cons s l ih =>
    simp only [List.mapM_cons, Option.bind_eq_bind, Option.bind_eq_some_iff, Option.pure_def, Option.some.injEq,
      ih, List.forall₂_cons_left_iff]
    grind

/-- What holds of the second of each pair holds of all results. -/
theorem forall_of_forall₂ {R : σ → β → Prop} {P : β → Prop} {l : List σ} {results : List β}
    (h : List.Forall₂ (fun s b => R s b ∧ P b) l results) : ∀ b ∈ results, P b :=
  ((List.forall₂_and_left _ _).mp (h.flip.imp fun _ _ hb => hb.symm)).1

/-- Where no step fails, each result is that of a step. -/
theorem exists_of_mem_mapM {f : σ → Except ε β} {l : List σ} {results : List β} (h : l.mapM f = .ok results)
    {b : β} (hb : b ∈ results) : ∃ s ∈ l, f s = .ok b := by
  have hall := forall₂_of_mapM h
  clear h
  induction hall with
  | nil => cases hb
  | cons hs _ ih =>
    rcases List.mem_cons.mp hb with rfl | hb
    · exact ⟨_, List.mem_cons_self, hs⟩
    · obtain ⟨s, hmem, he⟩ := ih hb
      exact ⟨s, List.mem_cons_of_mem _ hmem, he⟩

/-- What every step of a fold leaves alone, the fold leaves alone. -/
theorem eq_of_foldlM_eq_ok {step : σ → β → Except ε σ} {read : σ → γ}
    (hstep : ∀ s b t, step s b = .ok t → read t = read s) {l : List β} {s t : σ} (h : l.foldlM step s = .ok t) :
    read t = read s := by
  induction l generalizing s with
  | nil =>
    rw [List.foldlM_nil] at h
    rw [Except.ok.inj h]
  | cons b l ih =>
    rw [List.foldlM_cons] at h
    obtain ⟨u, hu, h⟩ := bind_eq_ok.mp h
    exact (ih h).trans (hstep s b u hu)

/-- **A fold fails at one of its items**, and up to there it does not. -/
theorem exists_of_foldlM_eq_error {f : σ → β → Except ε σ} {l : List β} {s : σ} {e : ε}
    (h : l.foldlM f s = .error e) :
    ∃ pre x post t, l = pre ++ x :: post ∧ pre.foldlM f s = .ok t ∧ f t x = .error e := by
  induction l generalizing s with
  | nil => cases h
  | cons x l ih =>
    rw [List.foldlM_cons] at h
    rcases bind_eq_error.mp h with hx | ⟨t, hx, h⟩
    · exact ⟨[], x, l, s, rfl, rfl, hx⟩
    · obtain ⟨pre, y, post, u, rfl, hpre, hy⟩ := ih h
      refine ⟨x :: pre, y, post, u, rfl, ?_, hy⟩
      rw [List.foldlM_cons, hx]
      exact hpre

/-- **Invariant of a fold.** `P done s` holds of the items behind and the state they led to. -/
theorem foldl_induct {f : σ → β → σ} {P : List β → σ → Prop} (l : List β) (s : σ) (h0 : P [] s)
    (hstep : ∀ pre x post s, l = pre ++ x :: post → P pre s → P (pre ++ [x]) (f s x)) :
    P l (l.foldl f s) := by
  suffices h : ∀ post pre s, l = pre ++ post → P pre s → P l (post.foldl f s) from h l [] s rfl h0
  intro post
  induction post with
  | nil =>
    intro pre s hl hp
    rw [List.append_nil] at hl
    exact hl ▸ hp
  | cons x post ih =>
    intro pre s hl hp
    exact ih (pre ++ [x]) (f s x) (by rw [hl, List.append_assoc]; rfl) (hstep pre x post s hl hp)

/-- **Invariant of a fold that may fail**, where it does not. -/
theorem foldlM_induct {f : σ → β → Except ε σ} {P : List β → σ → Prop} {l : List β} {s t : σ}
    (h0 : P [] s)
    (hstep : ∀ pre x post s s', l = pre ++ x :: post → P pre s → f s x = .ok s' → P (pre ++ [x]) s')
    (h : l.foldlM f s = .ok t) : P l t := by
  suffices hs : ∀ post pre s, l = pre ++ post → P pre s → post.foldlM f s = .ok t → P l t from
    hs l [] s rfl h0 h
  intro post
  induction post with
  | nil =>
    intro pre s hl hp ht
    rw [List.append_nil] at hl
    rw [List.foldlM_nil] at ht
    rw [← Except.ok.inj ht]
    exact hl ▸ hp
  | cons x post ih =>
    intro pre s hl hp ht
    rw [List.foldlM_cons, bind_eq_ok] at ht
    obtain ⟨s', hx, hpost⟩ := ht
    exact ih (pre ++ [x]) s' (by rw [hl, List.append_assoc]; rfl) (hstep pre x post s s' hl hp hx)
      hpost

/-- A fold under a map, where each step commutes with the map from any state that has a property, and keeps it. -/
theorem foldl_hom_of {τ : Type} {P : σ → Prop} (g : σ → τ) {f : σ → β → σ} {f' : τ → β → τ}
    (hstep : ∀ s x, P s → f' (g s) x = g (f s x) ∧ P (f s x)) (l : List β) {s : σ} (hs : P s) :
    l.foldl f' (g s) = g (l.foldl f s) ∧ P (l.foldl f s) := by
  induction l generalizing s with
  | nil => exact ⟨rfl, hs⟩
  | cons x rest ih =>
    obtain ⟨heq, hx⟩ := hstep s x hs
    rw [List.foldl_cons, List.foldl_cons, heq]
    exact ih hx

/-- **Two folds that may fail, in lockstep**: where the first one succeeds the second one does, and what relates
the states goes on to relate them. A step may use what the first fold comes to in the end. -/
theorem foldlM_lockstep_rest {τ ε' : Type} {f : σ → β → Except ε σ} {g : τ → β → Except ε' τ}
    {R : List β → σ → τ → Prop} {l : List β} {s t : σ} {s' : τ} (h0 : R [] s s')
    (hstep : ∀ pre x post s s' u, l = pre ++ x :: post → R pre s s' → f s x = .ok u → post.foldlM f u = .ok t →
      ∃ u', g s' x = .ok u' ∧ R (pre ++ [x]) u u')
    (h : l.foldlM f s = .ok t) : ∃ t', l.foldlM g s' = .ok t' ∧ R l t t' := by
  suffices hs : ∀ post pre s s', l = pre ++ post → R pre s s' → post.foldlM f s = .ok t →
      ∃ t', post.foldlM g s' = .ok t' ∧ R l t t' from hs l [] s s' rfl h0 h
  intro post
  induction post with
  | nil =>
    intro pre s s' hl hr ht
    rw [List.append_nil] at hl
    rw [List.foldlM_nil] at ht
    rw [← Except.ok.inj ht]
    exact ⟨s', rfl, hl ▸ hr⟩
  | cons x post ih =>
    intro pre s s' hl hr ht
    rw [List.foldlM_cons, bind_eq_ok] at ht
    obtain ⟨t₁, hx, hpost⟩ := ht
    obtain ⟨t₁', hx', hr'⟩ := hstep pre x post s s' t₁ hl hr hx hpost
    obtain ⟨t', hpost', hlast⟩ := ih (pre ++ [x]) t₁ t₁' (by rw [hl, List.append_assoc]; rfl) hr' hpost
    refine ⟨t', ?_, hlast⟩
    rw [List.foldlM_cons, bind_eq_ok]
    exact ⟨t₁', hx', hpost'⟩

/-- Folds in lockstep whose steps do not look ahead. -/
theorem foldlM_lockstep {τ ε' : Type} {f : σ → β → Except ε σ} {g : τ → β → Except ε' τ}
    {R : List β → σ → τ → Prop} {l : List β} {s t : σ} {s' : τ} (h0 : R [] s s')
    (hstep : ∀ pre x post s s' t, l = pre ++ x :: post → R pre s s' → f s x = .ok t →
      ∃ t', g s' x = .ok t' ∧ R (pre ++ [x]) t t')
    (h : l.foldlM f s = .ok t) : ∃ t', l.foldlM g s' = .ok t' ∧ R l t t' :=
  foldlM_lockstep_rest h0 (fun pre x post s s' u hl hr hx _ => hstep pre x post s s' u hl hr hx) h

end Parlance
