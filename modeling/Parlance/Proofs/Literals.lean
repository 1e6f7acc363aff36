import Parlance.Parse.BestFirst
import Parlance.Proofs.Addition
import Parlance.Proofs.CoarseFill
import Parlance.Proofs.Siblings

/-!
# `Proofs.Literals` — rules that rewrite to tokens only

Before there are any trees, the only rules that can be applied are those that rewrite to tokens. An index files
these rules under their phrase, with a blank between two symbols; it finds the rules that spell a span, because no
token is empty or has a blank in it.

## Contents
- **Spelling.** `Spells`, and `ways_zero`: what there is to apply without trees.
- **Phrases.** `intercalate_inj`, and `spells_iff`.
- **Rules.** `map_over_literalApplications`.
-/

namespace Parlance

/-! ## Spelling -/

/-- **Whether symbols are the tokens** from a position up to another one. -/
def Spells (isToken : Nat → String → Bool) (last : Nat) : List String → Nat → Prop
  | [], i => i = last
  | symbol :: rest, i => (i < last ∧ isToken i symbol) ∧ Spells isToken last rest (i + 1)

instance decidableSpells (isToken : Nat → String → Bool) (last : Nat) :
    (symbols : List String) → (i : Nat) → Decidable (Spells isToken last symbols i)
  | [], i => decEq i last
  | symbol :: rest, i =>
    haveI := decidableSpells isToken last rest (i + 1)
    inferInstanceAs (Decidable ((i < last ∧ isToken i symbol) ∧ Spells isToken last rest (i + 1)))

/-- Without parts, tokens are all there is to cover. -/
theorem ways_zero {δ : Type} (isToken : Nat → String → Bool) (last : Nat) (symbols : List String) (i : Nat) :
    ways isToken (fun _ _ _ => (0 : Multiset δ)) last symbols i =
      if Spells isToken last symbols i then {[]} else 0 := by
  induction symbols generalizing i with
  | nil => rfl
  | cons symbol rest ih =>
    simp only [ways, Multiset.zero_bind, Multiset.bind_zero, add_zero, ih, Spells]
    by_cases h : i < last ∧ isToken i symbol = true
    · simp only [h, and_self, if_true, true_and]
    · simp only [h, if_false, false_and]

/-! ## Phrases -/

variable {α : Type} {task : Task α}

/-- Symbols that are the tokens of a span are no categories. -/
theorem spells_iff_tokens {first last : Nat} (hf : first ≤ last) (hl : last ≤ task.length) (symbols : List String) :
    Spells task.isLiteral last symbols first ↔
      symbols = (task.ex.info.tokens.take last).drop first ∧ ∀ s ∈ symbols, isCat s = false := by
  have hl : last ≤ task.ex.info.tokens.length := hl
  -- along the symbols, each of which takes the first token of the span
  induction symbols generalizing first with
  | nil =>
    rw [Spells, eq_comm (a := ([] : List String)), List.drop_eq_nil_iff, List.length_take]
    simp only [List.not_mem_nil, false_implies, implies_true, and_true]
    omega
  | cons symbol rest ih =>
    rw [Spells]
    by_cases hlt : first < last
    · have hfirst : first < (task.ex.info.tokens.take last).length := by
        rw [List.length_take]
        omega
      have hrest := ih (show first + 1 ≤ last from hlt)
      rw [List.drop_eq_getElem_cons hfirst, List.cons.injEq, List.getElem_take]
      have htoken : task.ex.token first = task.ex.info.tokens[first] := by
        unfold Example.token
        rw [List.getElem?_eq_getElem (by omega)]
        rfl
      have hliteral : task.isLiteral first symbol = true ↔
          isCat symbol = false ∧ symbol = task.ex.info.tokens[first] := by
        unfold Task.isLiteral
        rw [htoken, Bool.and_eq_true, Bool.not_eq_true', beq_iff_eq, eq_comm (a := symbol)]
      rw [hliteral]
      simp only [hrest, hlt, true_and, List.forall_mem_cons]
      constructor
      · rintro ⟨⟨hc, hsymbol⟩, hrest, hcs⟩
        exact ⟨⟨hsymbol, hrest⟩, hc, hcs⟩
      · rintro ⟨⟨hsymbol, hrest⟩, hc, hcs⟩
        exact ⟨⟨hc, hsymbol⟩, hrest, hcs⟩
    · -- no token is left for the symbol
      have hnil : (task.ex.info.tokens.take last).drop first = [] := by
        rw [List.drop_eq_nil_iff, List.length_take]
        omega
      rw [hnil]
      simp [hlt]

/-- A phrase of texts without blanks, cut at its blanks. -/
theorem splitOn_intercalate {l : List String} (hl : ∀ s ∈ l, ' ' ∉ s.toList) (hne : l ≠ []) :
    (" ".intercalate l).toList.splitOn ' ' = l.map String.toList := by
  rw [String.toList_intercalate]
  exact List.splitOn_intercalate ' ' (List.forall_mem_map.mpr hl) (by simpa using hne)

/-- An empty phrase is that of no texts, or of one empty text. -/
theorem intercalate_eq_empty {l : List String} (h : " ".intercalate l = "") : l = [] ∨ l = [""] := by
  have hlist := congrArg String.toList h
  rw [String.toList_intercalate] at hlist
  match l with
  | [] => exact .inl rfl
  | [s] => exact .inr (by simpa using hlist)
  | s :: t :: rest => simp at hlist

/-- **Texts without blanks are known by their phrase**, unless one empty text is taken for none. -/
theorem intercalate_inj {l l' : List String} (hl : ∀ s ∈ l, ' ' ∉ s.toList) (hl' : ∀ s ∈ l', ' ' ∉ s.toList)
    (hne : l' ≠ []) (hempty : l' = [""] → l ≠ []) : " ".intercalate l = " ".intercalate l' ↔ l = l' := by
  refine ⟨fun h => ?_, congrArg _⟩
  have hlne : l ≠ [] := by
    rintro rfl
    rcases intercalate_eq_empty h.symm with hnil | hone
    · exact hne hnil
    · exact hempty hone rfl
  -- splitting a phrase at the blanks gives the texts back
  have hlist := congrArg (fun s : String => s.toList.splitOn ' ') h
  simp only [splitOn_intercalate hl hlne, splitOn_intercalate hl' hne] at hlist
  exact List.map_injective_iff.mpr (fun _ _ he => String.toList_inj.mp he) hlist

/-- **A rule spells a span** if it rewrites to tokens only and its phrase is that of the span. -/
theorem spells_iff {first last : Nat} (hf : first < last) (hl : last ≤ task.length) {symbols : List String}
    (hsymbols : ∀ s ∈ symbols, ' ' ∉ s.toList)
    (htokens : ∀ s ∈ task.ex.info.tokens, ' ' ∉ s.toList ∧ s ≠ "") :
    Spells task.isLiteral last symbols first ↔
      " ".intercalate symbols = task.ex.info.phrase first last ∧ ∀ s ∈ symbols, isCat s = false := by
  have hne : (task.ex.info.tokens.take last).drop first ≠ [] := by
    have hl : last ≤ task.ex.info.tokens.length := hl
    rw [Ne, List.drop_eq_nil_iff, List.length_take]
    omega
  have htokens' : ∀ s ∈ (task.ex.info.tokens.take last).drop first, ' ' ∉ s.toList ∧ s ≠ "" := fun s hs =>
    htokens s (List.mem_of_mem_take (List.mem_of_mem_drop hs))
  rw [spells_iff_tokens (Nat.le_of_lt hf) hl]
  refine and_congr_left' (intercalate_inj hsymbols (fun s hs => (htokens' s hs).1) hne fun hone => ?_).symm
  exact absurd rfl ( htokens' "" (hone ▸ List.mem_singleton_self _)).2

/-! ## Rules -/

variable [Score α]

/-- Rules applied to lists of children, as rules over trees. -/
theorem map_over_applications (arena : Arena α) (rules : List Rule) (first last : Nat) (children : List (List Nat)) :
    ((BestFirst.applications task rules first last children).map (·.over arena) : Multiset (Composition α)) =
      (rules : Multiset Rule).bind fun r =>
        if task.canBuild r first last then
          (children : Multiset (List Nat)).map fun w => ⟨r, first, last, w.map arena.unfold⟩
        else 0 := by
  have hfilter : (rules.filter fun r => task.canBuild r first last : Multiset Rule) =
      (rules : Multiset Rule).filter fun r => task.canBuild r first last = true := by
    rw [Multiset.filter_coe]
    simp only [Bool.decide_eq_true]
  unfold BestFirst.applications
  rw [List.map_flatMap, ← Multiset.coe_bind, hfilter, Multiset.bind_filter]
  refine Multiset.bind_congr fun r _ => ?_
  split
  · rw [List.map_map, Multiset.map_coe]
    rfl
  · rfl

/-- The spans of a text. -/
theorem overSpans_eq_bind {δ : Type} (n : Nat) (f : Nat → Nat → Multiset δ) :
    overSpans n f = (spansByStart n : Multiset (Nat × Nat)).bind fun span => f span.1 span.2 := by
  unfold overSpans spansByStart
  rw [← Multiset.coe_bind, Multiset.bind_assoc]
  refine Multiset.bind_congr fun first _ => ?_
  rw [← bind_range_shift, ← Multiset.map_coe, Multiset.bind_map]
  rfl

/-- **The rules that are applied before there are trees** are those that spell a span. -/
theorem map_over_literalApplications (arena : Arena α) {index : SiblingIndex} {rules : List Rule}
    (hindex : index.Indexes rules) (hsymbols : ∀ r ∈ rules, ∀ s ∈ r.rhs, ' ' ∉ s.toList)
    (htokens : ∀ s ∈ task.ex.info.tokens, ' ' ∉ s.toList ∧ s ≠ "") :
    ((BestFirst.literalApplications index task).map (·.over arena) : Multiset (Composition α)) =
      compositions task rules 0 := by
  have hspell : ∀ i j, i < j → j ≤ task.length →
      ((BestFirst.applications task (index.literalRules (task.ex.info.phrase i j)) i j [[]]).map (·.over arena) :
        Multiset (Composition α)) = (rules : Multiset Rule).bind (applicable task 0 i j) := by
    intro i j hij hj
    have hrules : index.literalRules (task.ex.info.phrase i j) = rules.filter fun r =>
      r.isLexical ∧ " ".intercalate r.rhs = task.ex.info.phrase i j := hindex.literal _
    have hlexical : ∀ r : Rule, r.isLexical = true ↔ ∀ s ∈ r.rhs, isCat s = false := fun r => by
      unfold Rule.isLexical
      simp only [List.all_eq_true, Bool.not_eq_true']
    have hnone : ∀ i j s, among (0 : Multiset (DerivationTree α)) i j s = 0 := fun i j s => by
      unfold among
      rw [Multiset.filter_zero, ite_self]
    have hways : ∀ symbols, ways task.isLiteral (among (0 : Multiset (DerivationTree α))) j symbols i =
        if Spells task.isLiteral j symbols i then {[]} else 0 := fun symbols => by
      rw [← ways_zero]
      exact congrArg (fun parts => ways task.isLiteral parts j symbols i)
        (funext fun i => funext fun j => funext fun s => hnone i j s)
    rw [map_over_applications, hrules, ← Multiset.filter_coe, Multiset.bind_filter]
    refine Multiset.bind_congr fun r hr => ?_
    have hs := spells_iff hij hj (hsymbols r (Multiset.mem_coe.mp hr)) htokens
    rw [← hlexical, and_comm] at hs
    unfold applicable
    rw [hways, ← if_congr hs rfl rfl]
    by_cases hspells : Spells task.isLiteral j r.rhs i
    · rw [if_pos hspells, if_pos hspells]
      rfl
    · rw [if_neg hspells, if_neg hspells, Multiset.map_zero, ite_self]
  unfold compositions BestFirst.literalApplications
  rw [List.map_flatMap, ← Multiset.coe_bind, overSpans_eq_bind]
  refine Multiset.bind_congr fun span hspan => ?_
  obtain ⟨hf, hl⟩ := mem_spansByStart.mp (Multiset.mem_coe.mp hspan)
  exact hspell span.1 span.2 hf hl

end Parlance
