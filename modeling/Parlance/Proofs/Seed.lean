import Parlance.Proofs.SpanStep

/-!
# `Proofs.Seed` — the tokens and phrases of a text

A parse begins with the derivations of the tokens and phrases. They lie within the text, belong to the categories
that every parse knows, and take no children.
-/

namespace Parlance

open Progress

variable {α : Type} [Score α] {task : Task α}

theorem isCat_of_mem_builtinCats : ∀ c ∈ builtinCats, isCat c = true := by
  decide

/-- **A token or a phrase** lies within the text, is not empty, and has a category that every parse knows. -/
theorem mem_terminals {ex : Example} {t : Terminal} (h : t ∈ terminals ex) :
    t.first < t.last ∧ t.last ≤ ex.length ∧ t.cat ∈ builtinCats := by
  rcases List.mem_append.mp h with h | h
  · obtain ⟨i, hi, h⟩ := List.mem_flatMap.mp h
    rw [List.mem_range] at hi
    simp only [List.mem_cons, List.not_mem_nil, or_false] at h
    rcases h with rfl | rfl
    · exact ⟨Nat.lt_succ_self i, hi, by simp [builtinCats]⟩
    · exact ⟨Nat.lt_succ_self i, hi, by simp [builtinCats]⟩
  · obtain ⟨⟨first, last⟩, hs, h⟩ := List.mem_flatMap.mp h
    obtain ⟨hf, hl⟩ := mem_spansByStart.mp hs
    simp only [List.mem_cons, List.not_mem_nil, or_false] at h
    rcases h with rfl | rfl
    · exact ⟨hf, hl, by simp [builtinCats]⟩
    · exact ⟨hf, hl, by simp [builtinCats]⟩

/-- What the parse begins with are tokens and phrases only. -/
theorem exists_terminal {d : Derivation α} (h : d ∈ terminalDerivations task) :
    ∃ t ∈ terminals task.ex, ∃ n, d = .terminal t.cat t.first t.last t.text t.canonical n := by
  obtain ⟨⟨t, i⟩, ht, rfl⟩ := List.mem_map.mp h
  exact ⟨t, List.fst_mem_of_mem_zipIdx ht, _, rfl⟩

theorem children_of_mem_terminals {d : Derivation α} (h : d ∈ terminalDerivations task) :
    d.children = [] := by
  obtain ⟨t, -, n, rfl⟩ := exists_terminal h
  rfl

/-- The derivations of the tokens and phrases, scored. -/
def ratedTerminals (task : Task α) : List (Derivation α) :=
  (terminalDerivations task).map ((start task).rated task)

/-- Scoring them changes neither their spans nor their categories. -/
theorem mem_ratedTerminals {d : Derivation α} (h : d ∈ ratedTerminals task) :
    d.first < d.last ∧ d.last ≤ task.length ∧ isCat d.cat = true ∧ d.children = [] := by
  obtain ⟨e, he, rfl⟩ := List.mem_map.mp h
  obtain ⟨t, ht, n, rfl⟩ := exists_terminal he
  obtain ⟨features, score, hr⟩ := rated_eq task (start task)
    (.terminal t.cat t.first t.last t.text t.canonical n)
  obtain ⟨hf, hl, hc⟩ := mem_terminals ht
  rw [hr]
  exact ⟨hf, hl, isCat_of_mem_builtinCats _ hc, rfl⟩

theorem hasErrorValue_ratedTerminals {d : Derivation α} (h : d ∈ ratedTerminals task) :
    d.hasErrorValue = false := by
  obtain ⟨e, he, rfl⟩ := List.mem_map.mp h
  obtain ⟨t, -, n, rfl⟩ := exists_terminal he
  obtain ⟨features, score, hr⟩ := rated_eq task (start task)
    (.terminal t.cat t.first t.last t.text t.canonical n)
  rw [hr]
  rfl

omit [Score α] in
/-- Before the tokens and phrases are added there is nothing that could be wrong. -/
theorem sound_start (task : Task α) : (startWithTerminals task).Sound task where
  distinct f l := by
    show ((Chart.new task.length task.beam).cellAt f l).Distinct
    rw [Chart.cellAt_new]
    exact Table.distinct_empty
  bounded f l c i hi := by
    have hn : (startWithTerminals task).chart.get f l c = [] := by
      show (Chart.new task.length task.beam).get f l c = []
      rw [Chart.get_eq, Chart.cellAt_new]
      rfl
    rw [hn] at hi
    cases hi
  nodup f l c := by
    have hn : (startWithTerminals task).chart.get f l c = [] := by
      show (Chart.new task.length task.beam).get f l c = []
      rw [Chart.get_eq, Chart.cellAt_new]
      rfl
    rw [hn]
    exact List.nodup_nil
  hasSpan f l hf hl := Chart.hasSpan_new task.beam (by omega) hl
  cats f l c hc := by
    have hn : (startWithTerminals task).chart.cats f l = [] := by
      show (Chart.new task.length task.beam).cats f l = []
      rw [Chart.cats_eq, Chart.cellAt_new]
      rfl
    rw [hn] at hc
    cases hc
  beam := rfl
  length := rfl

/-- **The parse that has the tokens and phrases** has them and nothing else. -/
theorem grown_seed (task : Task α) :
    Grown (startWithTerminals task) (ratedTerminals task) (BottomUp.seed task) ∧
      (BottomUp.seed task).made = (terminals task.ex).length := by
  have h := foldl_induct
    (P := fun pre (p : Progress α) =>
      Grown (startWithTerminals task) (pre.map ((start task).rated task)) p ∧
        p.made = (terminals task.ex).length)
    (terminalDerivations task) (startWithTerminals task)
    (f := fun p d => (p.featurize task d).2.addToChart task (p.featurize task d).1)
    ⟨.refl _, rfl⟩ (by
      intro pre d post p hl ⟨hg, hm⟩
      have hd : d ∈ terminalDerivations task := hl ▸ by simp
      have hc := children_of_mem_terminals hd
      have hmem : (start task).rated task d ∈ ratedTerminals task := List.mem_map_of_mem hd
      have hr : (p.featurize task d).1 = (start task).rated task d :=
        rated_congr (p := start task) hg.isPrefix (by rw [hc]; simp)
      obtain ⟨hf, hfm⟩ := grown_featurize task p d
      obtain ⟨hfirst, hlast, -, -⟩ := mem_ratedTerminals hmem
      obtain ⟨ha, ham⟩ := grown_addToChart task (p.featurize task d).2 ((start task).rated task d) (by
        rw [hf.hasSpan, hg.hasSpan]
        exact (sound_start task).hasSpan _ _ hfirst hlast)
      rw [hasErrorValue_ratedTerminals hmem, Bool.and_false, Bool.not_false, if_pos rfl] at ha
      rw [hr, List.map_append, List.map_singleton]
      exact ⟨(hg.trans hf).trans ha |> fun h => by simpa using h, ham.trans (hfm.trans hm)⟩)
  exact h

/-- **The start of a parse** is sound. -/
theorem sound_seed (task : Task α) : (BottomUp.seed task).Sound task :=
  (sound_start task).grown (grown_seed task).1 fun _ hd => (mem_ratedTerminals hd).2.2.1

end Parlance
