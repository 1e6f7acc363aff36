import Mathlib.Data.Set.Function
import Parlance.Grammar.Basic

/-!
# `Proofs.Expansion` — expanding a category through rules

A rule that was brought to two symbols is spread over several rules with fresh categories. To expand a category
is to rewrite it by one of these rules, and to go on with the fresh categories of the right-hand side until none is
left. Rules are told apart by their places, so that two rules that say the same give two expansions.

## Contents
- **Expansions.** `Expansion`, `yield`, `Expands`.
- **Choices.** `IsChoice`, which symbols to leave out, and `kept`.
- **Slots.** `Realizes`: the expansions of something are the choices of the slots that it stands for.
-/

namespace Parlance

/-! ## Expansions -/

/-- A symbol that stays as it is, or the place of the rule that rewrites it with what becomes of its parts. -/
inductive Expansion where
  | symbol (name : String)
  | rewrite (place : Nat) (parts : List Expansion)

namespace Expansion

mutual
/-- The symbols of an expansion from left to right. -/
def yield : Expansion → List String
  | symbol name => [name]
  | rewrite _ parts => yieldAll parts
/-- The symbols of several expansions from left to right. -/
def yieldAll : List Expansion → List String
  | [] => []
  | part :: rest => part.yield ++ yieldAll rest
end

theorem yieldAll_append (l l' : List Expansion) : yieldAll (l ++ l') = yieldAll l ++ yieldAll l' := by
  induction l with
  | nil => rfl
  | cons part rest ih => rw [List.cons_append, yieldAll, yieldAll, ih, List.append_assoc]

end Expansion

mutual
/-- **The expansions of a category**: one of its rules, and expansions of the symbols of that. -/
inductive Expands (rules : List Rule) (fresh : String → Prop) : String → Expansion → Prop
  | rewrite {place : Nat} {r : Rule} {parts : List Expansion} :
      rules[place]? = some r → ExpandsAll rules fresh r.rhs parts →
        Expands rules fresh r.lhs (.rewrite place parts)
/-- The expansions of symbols, of which fresh categories have to be expanded and others stay. -/
inductive ExpandsAll (rules : List Rule) (fresh : String → Prop) : List String → List Expansion → Prop
  | nil : ExpandsAll rules fresh [] []
  | expand {s : String} {t : Expansion} {rest : List String} {parts : List Expansion} :
      fresh s → Expands rules fresh s t → ExpandsAll rules fresh rest parts →
        ExpandsAll rules fresh (s :: rest) (t :: parts)
  | stay {s : String} {rest : List String} {parts : List Expansion} :
      ¬ fresh s → ExpandsAll rules fresh rest parts →
        ExpandsAll rules fresh (s :: rest) (.symbol s :: parts)
end

/-- What a symbol of a right-hand side becomes. -/
def Becomes (rules : List Rule) (fresh : String → Prop) (s : String) (t : Expansion) : Prop :=
  (fresh s ∧ Expands rules fresh s t) ∨ (¬ fresh s ∧ t = .symbol s)

variable {rules : List Rule} {fresh : String → Prop}

theorem expands_iff {s : String} {t : Expansion} :
    Expands rules fresh s t ↔
      ∃ place r parts, rules[place]? = some r ∧ r.lhs = s ∧ t = .rewrite place parts ∧
        ExpandsAll rules fresh r.rhs parts := by
  constructor
  · rintro ⟨hr, hparts⟩
    exact ⟨_, _, _, hr, rfl, rfl, hparts⟩
  · rintro ⟨place, r, parts, hr, rfl, rfl, hparts⟩
    exact .rewrite hr hparts

theorem expandsAll_nil_iff {parts : List Expansion} :
    ExpandsAll rules fresh [] parts ↔ parts = [] := by
  constructor
  · rintro ⟨⟩
    rfl
  · rintro rfl
    exact .nil

theorem expandsAll_cons_iff {s : String} {rest : List String} {parts : List Expansion} :
    ExpandsAll rules fresh (s :: rest) parts ↔
      ∃ t ts, parts = t :: ts ∧ Becomes rules fresh s t ∧ ExpandsAll rules fresh rest ts := by
  constructor
  · intro h
    cases h with
    | expand hs ht hrest => exact ⟨_, _, rfl, Or.inl ⟨hs, ht⟩, hrest⟩
    | stay hs hrest => exact ⟨_, _, rfl, Or.inr ⟨hs, rfl⟩, hrest⟩
  · rintro ⟨t, ts, rfl, ⟨hs, ht⟩ | ⟨hs, rfl⟩, hrest⟩
    · exact .expand hs ht hrest
    · exact .stay hs hrest

theorem becomes_of_not_fresh {s : String} (hs : ¬ fresh s) {t : Expansion} :
    Becomes rules fresh s t ↔ t = .symbol s :=
  ⟨fun h => h.elim (fun h => absurd h.1 hs) And.right, fun h => Or.inr ⟨hs, h⟩⟩

theorem becomes_of_fresh {s : String} (hs : fresh s) {t : Expansion} :
    Becomes rules fresh s t ↔ Expands rules fresh s t :=
  ⟨fun h => h.elim And.right fun h => absurd hs h.1, fun h => Or.inl ⟨hs, h⟩⟩

/-! ## Choices -/

/-- **Which symbols are there**: all but some of the optional ones. -/
def IsChoice : List Bool → List Bool → Prop
  | [], [] => True
  | optional :: optionals, present :: choice => (optional = true ∨ present = true) ∧ IsChoice optionals choice
  | _, _ => False

/-- The symbols that are there. -/
def kept : List String → List Bool → List String
  | s :: rest, present :: choice => (if present then [s] else []) ++ kept rest choice
  | _, _ => []

theorem IsChoice.length_eq {optionals choice : List Bool} (h : IsChoice optionals choice) :
    choice.length = optionals.length := by
  induction optionals generalizing choice with
  | nil =>
    cases choice with
    | nil => rfl
    | cons => cases h
  | cons o os ih =>
    cases choice with
    | nil => cases h
    | cons b bs => rw [List.length_cons, List.length_cons, ih h.2]

/-- A choice for one more symbol at the end. -/
theorem isChoice_concat {optionals choice : List Bool} {o : Bool} :
    IsChoice (optionals ++ [o]) choice ↔
      ∃ c b, choice = c ++ [b] ∧ IsChoice optionals c ∧ (o = true ∨ b = true) := by
  induction optionals generalizing choice with
  | nil =>
    constructor
    · intro h
      match choice, h with
      | [b], h => exact ⟨[], b, rfl, trivial, h.1⟩
    · rintro ⟨c, b, rfl, hc, hb⟩
      cases c with
      | nil => exact ⟨hb, trivial⟩
      | cons => cases hc
  | cons o' os ih =>
    constructor
    · intro h
      match choice, h with
      | b' :: bs, h =>
        obtain ⟨c, b, rfl, hc, hb⟩ := ih.mp h.2
        exact ⟨b' :: c, b, rfl, ⟨h.1, hc⟩, hb⟩
    · rintro ⟨c, b, rfl, hc, hb⟩
      cases c with
      | nil => cases hc
      | cons b' bs => exact ⟨hc.1, ih.mpr ⟨bs, b, rfl, hc.2, hb⟩⟩

theorem kept_concat {symbols : List String} {c : List Bool} (h : c.length = symbols.length) (s : String)
    (b : Bool) : kept (symbols ++ [s]) (c ++ [b]) = kept symbols c ++ if b then [s] else [] := by
  induction symbols generalizing c with
  | nil =>
    obtain rfl := List.length_eq_zero_iff.mp h
    simp [kept]
  | cons s' rest ih =>
    match c, h with
    | b' :: bs, h =>
      rw [List.cons_append, List.cons_append, kept, kept, ih (by simpa using h), List.append_assoc]

/-- If every symbol is optional, nothing has to be there. -/
theorem isChoice_none {optionals : List Bool} (h : ∀ o ∈ optionals, o = true) :
    IsChoice optionals (optionals.map fun _ => false) := by
  induction optionals with
  | nil => trivial
  | cons o os ih =>
    exact ⟨Or.inl (h o List.mem_cons_self), ih fun o' ho' => h o' (List.mem_cons_of_mem _ ho')⟩

/-- If nothing is there, every symbol is optional. -/
theorem IsChoice.all_optional {optionals choice : List Bool} (h : IsChoice optionals choice)
    (hn : true ∉ choice) : ∀ o ∈ optionals, o = true := by
  induction optionals generalizing choice with
  | nil => simp
  | cons o os ih =>
    match choice, h with
    | b :: bs, h =>
      rw [List.mem_cons, not_or] at hn
      intro o' ho'
      rcases List.mem_cons.mp ho' with rfl | ho'
      · exact h.1.resolve_right fun hb => hn.1 hb.symm
      · exact ih h.2 hn.2 o' ho'

/-- Nothing being there is one choice. -/
theorem eq_of_not_mem {c c' : List Bool} (hlen : c.length = c'.length) (hc : true ∉ c)
    (hc' : true ∉ c') : c = c' := by
  have h : ∀ {l : List Bool}, true ∉ l → l = List.replicate l.length false := fun {l} hl =>
    List.eq_replicate_iff.mpr ⟨rfl, fun b hb => by
      cases b with
      | false => rfl
      | true => exact absurd hb hl⟩
  rw [h hc, h hc', hlen]

theorem kept_of_not_mem {symbols : List String} {c : List Bool} (h : true ∉ c) : kept symbols c = [] := by
  induction symbols generalizing c with
  | nil => cases c <;> rfl
  | cons s rest ih =>
    cases c with
    | nil => rfl
    | cons b bs =>
      rw [List.mem_cons, not_or] at h
      have hb : b = false := by simpa using Ne.symm h.1
      rw [kept, hb, ih h.2]
      rfl

/-! ## Slots -/

/-- The choices for slots that leave something there. -/
def choicesOf (slots : List Slot) : Set (List Bool) :=
  { c | IsChoice (slots.map Slot.optional) c ∧ true ∈ c }

/-- **Expansions stand for slots** if they correspond to the choices for them, and each of them yields the
symbols that are there. -/
structure Realizes (trees : Set Expansion) (slots : List Slot) (f : List Bool → Expansion) : Prop where
  bijOn : Set.BijOn f (choicesOf slots) trees
  yield : ∀ c ∈ choicesOf slots, (f c).yield = kept (slots.map Slot.symbol) c

/-- A symbol that is not fresh stands for its own slot. -/
theorem realizes_symbol {slot : Slot} (h : ¬ fresh slot.symbol) :
    Realizes { t | Becomes rules fresh slot.symbol t } [slot] fun _ => .symbol slot.symbol where
  bijOn := by
    have hone : ∀ c, c ∈ choicesOf [slot] ↔ c = [true] := fun c => by
      constructor
      · rintro ⟨hc, ht⟩
        match c, hc with
        | [b], _ => simpa using ht
      · rintro rfl
        exact ⟨⟨Or.inr rfl, trivial⟩, List.mem_cons_self⟩
    refine ⟨fun c _ => (becomes_of_not_fresh h).mpr rfl, fun c hc c' hc' _ => ?_, fun t ht => ?_⟩
    · rw [(hone c).mp hc, (hone c').mp hc']
    · exact ⟨[true], (hone _).mpr rfl, ((becomes_of_not_fresh h).mp ht).symm⟩
  yield c hc := by
    obtain ⟨hc, ht⟩ := hc
    match c, hc with
    | [b], _ =>
      have hb : b = true := by simpa using Eq.symm (List.mem_singleton.mp ht)
      rw [hb]
      rfl

end Parlance
