import Mathlib
import Parlance.Proofs.Expansion
import Parlance.Proofs.Fold

/-!
# `Proofs.Binarize` — bringing rules to two symbols keeps what they derive

The rules that stand for a rule with optional symbols expand its left-hand side in one way for each way to leave
optional symbols out, and each expansion yields the symbols that are there. The proof follows the cascade: a slot
that stands for a pair is realized by the choices for the two members, and the rules of the next pair extend these
by one more symbol. A function that carries its first argument gives two cascades, the first of which realizes the
first slot of the second.

## Contents
- **Fresh categories** are told apart by their numbers, and are no symbols of a user.
- **Pairs.** `presencePairs`, and what the rules of a pair realize.
- **Cascades.** What a cascade emits, and what it realizes.
- **Rules.** `binarize_eq_error_iff` and `realizes_binarize`.
- **Grammars.** `Grammar.addEach`, and the whole statement about a sequence of additions.
-/

namespace Parlance

/-! ## Fresh categories -/

theorem freshCat_injective {m n : Nat} (h : freshCat m = freshCat n) : m = n := by
  have h' : "$Intermediate" ++ Nat.repr m = "$Intermediate" ++ Nat.repr n := h
  have h'' : Nat.repr m = Nat.repr n := String.append_right_inj _ |>.mp h'
  exact Nat.repr_injective h''

/-- Whether a symbol looks like a fresh category. -/
def IsReserved (symbol : String) : Prop := "$Intermediate".toList <+: symbol.toList

instance (symbol : String) : Decidable (IsReserved symbol) :=
  inferInstanceAs (Decidable ("$Intermediate".toList <+: symbol.toList))

theorem isReserved_freshCat (n : Nat) : IsReserved (freshCat n) :=
  ⟨(Nat.repr n).toList, (String.toList_append).symm⟩

/-! ## Pairs -/

/-- Which members of a pair are there, in each way to leave optional ones out but not both. -/
def presencePairs : Bool → Bool → List (Bool × Bool)
  | false, false => [(true, true)]
  | false, true => [(true, false), (true, true)]
  | true, false => [(false, true), (true, true)]
  | true, true => [(false, true), (true, false), (true, true)]

theorem nodup_presencePairs (o₁ o₂ : Bool) : (presencePairs o₁ o₂).Nodup := by
  cases o₁ <;> cases o₂ <;> decide

theorem mem_presencePairs {o₁ o₂ l r : Bool} :
    (l, r) ∈ presencePairs o₁ o₂ ↔
      (o₁ = true ∨ l = true) ∧ (o₂ = true ∨ r = true) ∧ (l = true ∨ r = true) := by
  cases o₁ <;> cases o₂ <;> cases l <;> cases r <;> decide

/-- The symbols of a pair that are there. -/
def Slot.shownPair (left right : Slot) (present : Bool × Bool) : List String :=
  left.shown present.1 ++ right.shown present.2

theorem pairRules_eq (rule : Rule) (lhs : String) (left right : Slot) :
    rule.pairRules lhs left right =
      (presencePairs left.optional right.optional).map fun present =>
        rule.derive lhs (left.shownPair right present) (pairFn rule.sem left right present.1) := by
  unfold Rule.pairRules Slot.presences
  cases left.optional <;> cases right.optional <;> rfl

variable {rules : List Rule} {fresh : String → Prop}

/-- **The expansions of a pair**: one of its rules with what becomes of the members that are there. -/
theorem expands_pair_iff {pre post : List Rule} {rule : Rule} {lhs : String} {left right : Slot}
    (hrules : rules = pre ++ rule.pairRules lhs left right ++ post)
    (hother : ∀ r ∈ pre ++ post, r.lhs ≠ lhs) {t : Expansion} :
    Expands rules fresh lhs t ↔
      ∃ present ∈ presencePairs left.optional right.optional, ∃ parts,
        t = .rewrite (pre.length + (presencePairs left.optional right.optional).idxOf present) parts ∧
          ExpandsAll rules fresh (left.shownPair right present) parts := by
  rw [pairRules_eq] at hrules
  rw [expands_iff]
  constructor
  · rintro ⟨place, r, parts, hr, hlhs, rfl, hparts⟩
    have hge : pre.length ≤ place := by
      by_contra hlt
      rw [hrules, List.append_assoc, List.getElem?_append_left (by omega)] at hr
      exact hother r (List.mem_append_left _ (List.mem_of_getElem? hr)) hlhs
    obtain ⟨k, rfl⟩ := Nat.exists_eq_add_of_le hge
    rw [hrules, List.append_assoc, List.getElem?_append_right (by omega), Nat.add_sub_cancel_left] at hr
    have hlt : k < (presencePairs left.optional right.optional).length := by
      by_contra hge
      rw [List.getElem?_append_right (by rw [List.length_map]; omega)] at hr
      exact hother r (List.mem_append_right _ (List.mem_of_getElem? hr)) hlhs
    rw [List.getElem?_append_left (by rwa [List.length_map]), List.getElem?_map,
      List.getElem?_eq_getElem hlt, Option.map_some, Option.some.injEq] at hr
    subst hr
    refine ⟨_, List.getElem_mem hlt, parts, ?_, hparts⟩
    rw [(nodup_presencePairs _ _).idxOf_getElem]
  · rintro ⟨present, hmem, parts, rfl, hparts⟩
    have hlt := List.idxOf_lt_length_of_mem hmem
    refine ⟨_, rule.derive lhs (left.shownPair right present) (pairFn rule.sem left right present.1),
      parts, ?_, rfl, rfl, hparts⟩
    rw [hrules, List.append_assoc, List.getElem?_append_right (Nat.le_add_right _ _),
      Nat.add_sub_cancel_left, List.getElem?_append_left (by rwa [List.length_map]), List.getElem?_map,
      List.getElem?_eq_getElem hlt, List.getElem_idxOf hlt, Option.map_some]

/-- What becomes of the members of a pair that are there. -/
theorem expandsAll_shownPair_iff {left right : Slot} (hr : ¬ fresh right.symbol) {l b : Bool}
    {parts : List Expansion} :
    ExpandsAll rules fresh (left.shownPair right (l, b)) parts ↔
      ∃ ts, parts = ts ++ (if b then [.symbol right.symbol] else []) ∧
        if l then ∃ t, ts = [t] ∧ Becomes rules fresh left.symbol t else ts = [] := by
  have hright : ∀ parts, ExpandsAll rules fresh (right.shown b) parts ↔
      parts = if b then [.symbol right.symbol] else [] := fun parts => by
    cases b with
    | false => exact expandsAll_nil_iff
    | true =>
      show ExpandsAll rules fresh [right.symbol] parts ↔ _
      simp only [expandsAll_cons_iff, expandsAll_nil_iff, becomes_of_not_fresh hr, if_true]
      constructor
      · rintro ⟨t, ts, rfl, rfl, rfl⟩
        rfl
      · rintro rfl
        exact ⟨_, _, rfl, rfl, rfl⟩
  cases l with
  | false =>
    show ExpandsAll rules fresh (right.shown b) parts ↔ _
    rw [hright]
    constructor
    · rintro rfl
      exact ⟨[], rfl, rfl⟩
    · rintro ⟨ts, rfl, rfl⟩
      rfl
  | true =>
    show ExpandsAll rules fresh (left.symbol :: right.shown b) parts ↔ _
    rw [expandsAll_cons_iff]
    constructor
    · rintro ⟨t, ts, rfl, ht, hts⟩
      exact ⟨[t], by rw [(hright ts).mp hts]; rfl, t, rfl, ht⟩
    · rintro ⟨ts, rfl, t, rfl, ht⟩
      exact ⟨t, _, rfl, ht, (hright _).mpr rfl⟩

/-- The expansion of a pair for a choice, given what the left member becomes in each. -/
def pairTree (place : Nat) (left right : Slot) (f : List Bool → Expansion) (c : List Bool) :
    Expansion :=
  let present := (c.dropLast.contains true, c.getLastD false)
  .rewrite (place + (presencePairs left.optional right.optional).idxOf present)
    ((if present.1 then [f c.dropLast] else []) ++
      if present.2 then [.symbol right.symbol] else [])

theorem pairTree_concat (place : Nat) (left right : Slot) (f : List Bool → Expansion) (c : List Bool)
    (b : Bool) :
    pairTree place left right f (c ++ [b]) =
      .rewrite (place + (presencePairs left.optional right.optional).idxOf (c.contains true, b))
        ((if c.contains true then [f c] else []) ++ if b then [.symbol right.symbol] else []) := by
  unfold pairTree
  rw [List.dropLast_concat, List.getLastD_concat]

/-- The choices for slots and one more. -/
theorem mem_choicesOf_concat {slots : List Slot} {slot : Slot} {c : List Bool} :
    c ∈ choicesOf (slots ++ [slot]) ↔
      ∃ c' b, c = c' ++ [b] ∧ IsChoice (slots.map Slot.optional) c' ∧
        (slot.optional = true ∨ b = true) ∧ (true ∈ c' ∨ b = true) := by
  have hmem : c ∈ choicesOf (slots ++ [slot]) ↔
      IsChoice ((slots ++ [slot]).map Slot.optional) c ∧ true ∈ c := Iff.rfl
  rw [hmem, List.map_append, List.map_singleton, isChoice_concat]
  constructor
  · rintro ⟨⟨c', b, rfl, hc, hb⟩, ht⟩
    refine ⟨c', b, rfl, hc, hb, ?_⟩
    rw [List.mem_append, List.mem_singleton] at ht
    exact ht.imp id Eq.symm
  · rintro ⟨c', b, rfl, hc, hb, ht⟩
    refine ⟨⟨c', b, rfl, hc, hb⟩, ?_⟩
    rw [List.mem_append, List.mem_singleton]
    exact ht.imp id Eq.symm

/-- A choice leaves some way for the members of a pair to be there: the left one is if any of its slots is. -/
theorem mem_presencePairs_of_isChoice {left right : Slot} {slots : List Slot} {c : List Bool} {b : Bool}
    (hopt : left.optional = true ↔ ∀ slot ∈ slots, slot.optional = true)
    (hc : IsChoice (slots.map Slot.optional) c) (hb : right.optional = true ∨ b = true)
    (ht : true ∈ c ∨ b = true) :
    (c.contains true, b) ∈ presencePairs left.optional right.optional := by
  refine mem_presencePairs.mpr ⟨?_, hb, by simpa using ht⟩
  by_cases hm : true ∈ c
  · exact Or.inr (by simpa using hm)
  · exact Or.inl (hopt.mpr fun slot hslot => hc.all_optional hm _ (List.mem_map_of_mem hslot))

/-- Different choices have different expansions of a pair, if those that leave something of the left member have
different ones of that. -/
theorem injOn_pairTree {left right : Slot} {slots : List Slot} {f : List Bool → Expansion} (place : Nat)
    (hopt : left.optional = true ↔ ∀ slot ∈ slots, slot.optional = true) (hinj : Set.InjOn f (choicesOf slots)) :
    Set.InjOn (pairTree place left right f) (choicesOf (slots ++ [right])) := by
  intro c₁ hc₁ c₂ hc₂ he
  obtain ⟨c, b, rfl, hc, hb, ht⟩ := mem_choicesOf_concat.mp hc₁
  obtain ⟨c', b', rfl, hc', hb', ht'⟩ := mem_choicesOf_concat.mp hc₂
  rw [pairTree_concat, pairTree_concat] at he
  injection he with hplace hparts
  have hpair : (c.contains true, b) = (c'.contains true, b') :=
    (List.idxOf_inj (mem_presencePairs_of_isChoice hopt hc hb ht)).mp (by omega)
  injection hpair with hcontains hlast
  subst hlast
  rw [hcontains] at hparts
  have hsame : true ∈ c ↔ true ∈ c' := by
    rw [← List.contains_iff_mem, ← List.contains_iff_mem, hcontains]
  by_cases hm : true ∈ c'
  · have hf : f c = f c' := by
      rw [show c'.contains true = true by simpa using hm] at hparts
      exact (List.cons.inj (List.append_cancel_right hparts)).1
    rw [hinj ⟨hc, hsame.mpr hm⟩ ⟨hc', hm⟩ hf]
  · have hlen : c.length = c'.length := by rw [hc.length_eq, hc'.length_eq]
    rw [eq_of_not_mem hlen (fun h => hm (hsame.mp h)) hm]

/-- The symbols of a pair are those of its left member and the right one, as far as they are there. -/
theorem yield_pairTree {left right : Slot} {slots : List Slot} {f : List Bool → Expansion} (place : Nat)
    (hyield : ∀ c ∈ choicesOf slots, (f c).yield = kept (slots.map Slot.symbol) c) {c : List Bool}
    (hc : c ∈ choicesOf (slots ++ [right])) :
    (pairTree place left right f c).yield = kept ((slots ++ [right]).map Slot.symbol) c := by
  obtain ⟨c, b, rfl, hc, hb, ht⟩ := mem_choicesOf_concat.mp hc
  have hlen : c.length = (slots.map Slot.symbol).length := by
    rw [hc.length_eq, List.length_map, List.length_map]
  rw [pairTree_concat, Expansion.yield, Expansion.yieldAll_append, List.map_append, List.map_singleton,
    kept_concat hlen]
  congr 1
  · by_cases hm : true ∈ c
    · rw [if_pos (by simpa using hm), ← hyield c ⟨hc, hm⟩, Expansion.yieldAll, Expansion.yieldAll,
        List.append_nil]
    · rw [if_neg (by simpa using hm), kept_of_not_mem hm]
      rfl
  · cases b <;> rfl

/-- **A pair realizes its members.** If the left member realizes some slots, and is optional if all of them are,
the rules of the pair realize them and the right member. -/
theorem Realizes.pair {pre post : List Rule} {rule : Rule} {lhs : String} {left right : Slot}
    {slots : List Slot} {f : List Bool → Expansion}
    (hleft : Realizes { t | Becomes rules fresh left.symbol t } slots f)
    (hopt : left.optional = true ↔ ∀ slot ∈ slots, slot.optional = true)
    (hright : ¬ fresh right.symbol)
    (hrules : rules = pre ++ rule.pairRules lhs left right ++ post)
    (hother : ∀ r ∈ pre ++ post, r.lhs ≠ lhs) :
    Realizes { t | Expands rules fresh lhs t } (slots ++ [right])
      (pairTree pre.length left right f) where
  bijOn := by
    refine ⟨?_, injOn_pairTree _ hopt hleft.bijOn.injOn, ?_⟩
    · intro c hc
      obtain ⟨c, b, rfl, hc, hb, ht⟩ := mem_choicesOf_concat.mp hc
      show Expands rules fresh lhs _
      rw [pairTree_concat, expands_pair_iff hrules hother]
      refine ⟨_, mem_presencePairs_of_isChoice hopt hc hb ht, _, rfl, (expandsAll_shownPair_iff hright).mpr ⟨_, rfl, ?_⟩⟩
      by_cases hm : true ∈ c
      · rw [if_pos (by simpa using hm), if_pos (by simpa using hm)]
        exact ⟨f c, rfl, hleft.bijOn.mapsTo ⟨hc, hm⟩⟩
      · rw [if_neg (by simpa using hm), if_neg (by simpa using hm)]
    · rintro t ht
      obtain ⟨⟨l, b⟩, hmem, parts, rfl, hparts⟩ := (expands_pair_iff hrules hother).mp ht
      obtain ⟨hl, hb, hlb⟩ := mem_presencePairs.mp hmem
      obtain ⟨ts, rfl, hts⟩ := (expandsAll_shownPair_iff hright).mp hparts
      cases l with
      | true =>
        obtain ⟨t', rfl, ht'⟩ := hts
        obtain ⟨c, ⟨hc, hm⟩, rfl⟩ := hleft.bijOn.surjOn ht'
        refine ⟨c ++ [b], mem_choicesOf_concat.mpr ⟨c, b, rfl, hc, hb, Or.inl hm⟩, ?_⟩
        rw [pairTree_concat, show c.contains true = true by simpa using hm]
        rfl
      | false =>
        -- the left member is left out, and so all of its slots are
        obtain rfl : ts = [] := hts
        have hall := hopt.mp (by simpa using hl)
        have hc : IsChoice (slots.map Slot.optional) ((slots.map Slot.optional).map fun _ => false) :=
          isChoice_none fun o ho => by
            obtain ⟨slot, hslot, rfl⟩ := List.mem_map.mp ho
            exact hall slot hslot
        refine ⟨_ ++ [b], mem_choicesOf_concat.mpr ⟨_, b, rfl, hc, hb, Or.inr (by simpa using hlb)⟩, ?_⟩
        rw [pairTree_concat, show List.contains ((slots.map Slot.optional).map fun _ => false) true = false by
          simp]
        rfl
  yield _ hc := yield_pairTree _ hleft.yield hc

/-- **A rule of one symbol** realizes what its symbol realizes. -/
theorem Realizes.single {pre post : List Rule} {r : Rule} {symbol : String} {slots : List Slot}
    {f : List Bool → Expansion} (h : Realizes { t | Becomes rules fresh symbol t } slots f)
    (hrhs : r.rhs = [symbol]) (hrules : rules = pre ++ r :: post)
    (hother : ∀ r' ∈ pre ++ post, r'.lhs ≠ r.lhs) :
    Realizes { t | Expands rules fresh r.lhs t } slots fun c => .rewrite pre.length [f c] where
  bijOn := by
    have hiff : ∀ t, Expands rules fresh r.lhs t ↔
        ∃ t', t = .rewrite pre.length [t'] ∧ Becomes rules fresh symbol t' := fun t => by
      rw [expands_iff]
      constructor
      · rintro ⟨place, r', parts, hr, hlhs, rfl, hparts⟩
        have hplace : place = pre.length := by
          rcases Nat.lt_trichotomy place pre.length with hlt | heq | hgt
          · rw [hrules, List.getElem?_append_left hlt] at hr
            exact absurd hlhs (hother r' (List.mem_append_left _ (List.mem_of_getElem? hr)))
          · exact heq
          · rw [hrules, List.getElem?_append_right (Nat.le_of_lt hgt),
              show place - pre.length = (place - pre.length - 1) + 1 by omega,
              List.getElem?_cons_succ] at hr
            exact absurd hlhs (hother r' (List.mem_append_right _ (List.mem_of_getElem? hr)))
        rw [hplace, hrules, List.getElem?_append_right (Nat.le_refl _), Nat.sub_self,
          List.getElem?_cons_zero, Option.some.injEq] at hr
        rw [← hr, hrhs, expandsAll_cons_iff] at hparts
        obtain ⟨t', ts, rfl, ht', hts⟩ := hparts
        rw [expandsAll_nil_iff.mp hts]
        exact ⟨t', by rw [hplace], ht'⟩
      · rintro ⟨t', rfl, ht'⟩
        refine ⟨pre.length, r, [t'], ?_, rfl, rfl, ?_⟩
        · rw [hrules, List.getElem?_append_right (Nat.le_refl _), Nat.sub_self, List.getElem?_cons_zero]
        · rw [hrhs]
          exact expandsAll_cons_iff.mpr ⟨t', [], rfl, ht', .nil⟩
    refine ⟨?_, ?_, ?_⟩
    · intro c hc
      exact (hiff _).mpr ⟨f c, rfl, h.bijOn.mapsTo hc⟩
    · intro c hc c' hc' he
      injection he with _ hparts
      exact h.bijOn.injOn hc hc' (List.cons.inj hparts).1
    · intro t ht
      obtain ⟨t', rfl, ht'⟩ := (hiff t).mp ht
      obtain ⟨c, hc, rfl⟩ := h.bijOn.surjOn ht'
      exact ⟨c, hc, rfl⟩
  yield c hc := by
    rw [Expansion.yield, Expansion.yieldAll, Expansion.yieldAll, List.append_nil]
    exact h.yield c hc

/-! ## Cascades -/

namespace Rule

/-- Whether a category is one of the fresh ones with numbers from `n + 1` up to `m`. -/
def IsFreshBetween (n m : Nat) (symbol : String) : Prop := ∃ k, n < k ∧ k ≤ m ∧ symbol = freshCat k

theorem IsFreshBetween.mono {n m n' m' : Nat} {symbol : String} (h : IsFreshBetween n m symbol)
    (hn : n' ≤ n) (hm : m ≤ m') : IsFreshBetween n' m' symbol := by
  obtain ⟨k, h1, h2, rfl⟩ := h
  exact ⟨k, by omega, by omega, rfl⟩

/-- Fresh categories with different numbers are different. -/
theorem IsFreshBetween.disjoint {n m n' m' : Nat} {symbol : String} (h : IsFreshBetween n m symbol)
    (h' : IsFreshBetween n' m' symbol) (hm : m ≤ n') : False := by
  obtain ⟨k, h1, h2, rfl⟩ := h
  obtain ⟨k', h1', h2', he⟩ := h'
  have := freshCat_injective he
  omega

/-- **What a list of rules may make**: one category, and fresh ones with certain numbers; each rule has one or
two symbols. -/
structure Emits (lhs : String) (n m : Nat) (l : List Rule) : Prop where
  le : n ≤ m
  lhs : ∀ r ∈ l, r.lhs = lhs ∨ IsFreshBetween n m r.lhs
  rhs : ∀ r ∈ l, r.rhs.length = 1 ∨ r.rhs.length = 2

/-- The category that is handed out next. -/
theorem isFreshBetween_next {n m : Nat} (h : n + 1 ≤ m) : IsFreshBetween n m (freshCat (n + 1)) :=
  ⟨n + 1, Nat.lt_succ_self n, h, rfl⟩

/-- **Rules that are apart** from others make none of the categories that those make. -/
def Apart (lhs : String) (n m : Nat) (l : List Rule) : Prop :=
  ∀ r ∈ l, r.lhs ≠ lhs ∧ ¬ IsFreshBetween n m r.lhs

theorem apart_append {lhs : String} {n m : Nat} {l l' : List Rule} :
    Apart lhs n m (l ++ l') ↔ Apart lhs n m l ∧ Apart lhs n m l' := List.forall_mem_append

/-- What is apart from all categories is apart from those with higher numbers. -/
theorem Apart.higher {lhs : String} {n k m : Nat} {l : List Rule} (h : Apart lhs n m l) (hk : n ≤ k) :
    Apart lhs k m l := fun r hr =>
  ⟨(h r hr).1, fun hs => (h r hr).2 (hs.mono hk (Nat.le_refl m))⟩

/-- What is apart from all categories is apart from those with lower numbers. -/
theorem Apart.lower {lhs : String} {n k m : Nat} {l : List Rule} (h : Apart lhs n m l) (hn : n + 1 ≤ k)
    (hk : k ≤ m) : Apart (freshCat (n + 1)) (n + 1) k l := fun r hr =>
  ⟨fun he => (h r hr).2 (he ▸ isFreshBetween_next (Nat.le_trans hn hk)),
    fun hs => (h r hr).2 (hs.mono (Nat.le_succ n) hk)⟩

section Chain

/-! Rules for the category that is handed out next, and then rules that may take it. -/

variable {lhs : String} {n k m : Nat} {l l' : List Rule}

theorem Emits.chain (h : Emits (freshCat (n + 1)) (n + 1) k l) (h' : Emits lhs k m l') :
    Emits lhs n m (l ++ l') where
  le := Nat.le_trans (Nat.le_of_succ_le h.le) h'.le
  lhs r hr := by
    rcases List.mem_append.mp hr with hr | hr
    · rcases h.lhs r hr with he | hs
      · exact Or.inr (he ▸ isFreshBetween_next (Nat.le_trans h.le h'.le))
      · exact Or.inr (hs.mono (Nat.le_succ n) h'.le)
    · exact (h'.lhs r hr).imp id fun hs => hs.mono (Nat.le_of_succ_le h.le) (Nat.le_refl m)
  rhs r hr := (List.mem_append.mp hr).elim (h.rhs r) (h'.rhs r)

/-- The later rules are apart from the earlier ones. -/
theorem Emits.apart_lower (h : Emits (freshCat (n + 1)) (n + 1) k l) (h' : Emits lhs k m l')
    (hlhs : ¬ IsFreshBetween n m lhs) : Apart (freshCat (n + 1)) (n + 1) k l' := fun r hr => by
  rcases h'.lhs r hr with he | hs
  · rw [he]
    exact ⟨fun hn => hlhs (hn ▸ isFreshBetween_next (Nat.le_trans h.le h'.le)),
      fun hs => hlhs (hs.mono (Nat.le_succ n) h'.le)⟩
  · exact ⟨fun hn => (isFreshBetween_next h.le).disjoint (hn ▸ hs) (Nat.le_refl k),
      fun hs' => hs'.disjoint hs (Nat.le_refl k)⟩

/-- The earlier rules are apart from the later ones. -/
theorem Emits.apart_higher (h : Emits (freshCat (n + 1)) (n + 1) k l) (h' : Emits lhs k m l')
    (hlhs : ¬ IsFreshBetween n m lhs) : Apart lhs k m l := fun r hr => by
  have hs : IsFreshBetween n k r.lhs := by
    rcases h.lhs r hr with he | hs
    · exact he ▸ isFreshBetween_next h.le
    · exact hs.mono (Nat.le_succ n) (Nat.le_refl k)
  exact ⟨fun he => hlhs (he ▸ hs.mono (Nat.le_refl n) h'.le), fun hs' => hs.disjoint hs' (Nat.le_refl k)⟩

end Chain

theorem emits_pairRules (rule : Rule) (lhs : String) (left right : Slot) (n : Nat) :
    Emits lhs n n (rule.pairRules lhs left right) := by
  rw [pairRules_eq]
  refine ⟨Nat.le_refl n, fun r hr => ?_, fun r hr => ?_⟩
  · obtain ⟨present, -, rfl⟩ := List.mem_map.mp hr
    exact Or.inl rfl
  · obtain ⟨⟨l, b⟩, hmem, rfl⟩ := List.mem_map.mp hr
    obtain ⟨-, -, hlb⟩ := mem_presencePairs.mp hmem
    show (left.shown l ++ right.shown b).length = 1 ∨ (left.shown l ++ right.shown b).length = 2
    cases l with
    | true =>
      cases b with
      | true => exact Or.inr rfl
      | false => exact Or.inl rfl
    | false =>
      obtain rfl : b = true := hlb.resolve_left (by simp)
      exact Or.inl rfl

/-- **The last pair** makes the category of the rule itself, if the function was applied. -/
theorem pairUp_last (rule : Rule) {left right : Slot} {applied : Bool}
    (happ : (applied || (left.required && right.required)) = true) (n : Nat) :
    rule.pairUp left applied n [right] = (rule.pairRules rule.lhs left right, n) := by
  simp [pairUp, happ]

/-- **Every other pair** makes the category that is handed out next, which stands for it in the next pair. -/
theorem pairUp_step (rule : Rule) {left right : Slot} {applied : Bool} {rest : List Slot}
    (hmore : ¬ (rest = [] ∧ (applied || (left.required && right.required)) = true)) (n : Nat) :
    rule.pairUp left applied n (right :: rest) =
      (rule.pairRules (freshCat (n + 1)) left right ++
        (rule.pairUp (.join (freshCat (n + 1)) left right) (applied || (left.required && right.required)) (n + 1)
          rest).1,
        (rule.pairUp (.join (freshCat (n + 1)) left right) (applied || (left.required && right.required)) (n + 1)
          rest).2) := by
  have hend : (rest.isEmpty && (applied || (left.required && right.required))) = false := by
    rwa [← Bool.not_eq_true, Bool.and_eq_true, List.isEmpty_iff]
  rw [pairUp]
  simp only [hend, Bool.false_eq_true, if_false]

theorem emits_pairUp (rule : Rule) (left : Slot) (applied : Bool) (n : Nat) (rest : List Slot) :
    Emits rule.lhs n (rule.pairUp left applied n rest).2 (rule.pairUp left applied n rest).1 := by
  induction rest generalizing left applied n with
  | nil =>
    unfold pairUp
    refine ⟨Nat.le_refl n, fun r hr => ?_, fun r hr => ?_⟩
    all_goals
      cases applied with
      | true => cases hr
      | false => exact Or.inl (List.mem_singleton.mp hr ▸ rfl)
  | cons right rest ih =>
    by_cases hlast : rest = [] ∧ (applied || (left.required && right.required)) = true
    · obtain ⟨rfl, happ⟩ := hlast
      rw [pairUp_last rule happ]
      exact emits_pairRules rule _ left right n
    · rw [pairUp_step rule hlast]
      exact (emits_pairRules rule _ left right (n + 1)).chain (ih _ _ _)

/-- The slot of a pair is optional if both members are, and these are if all their slots are. -/
theorem join_optional_iff {cat : String} {left right : Slot} {slots : List Slot}
    (h : left.optional = true ↔ ∀ slot ∈ slots, slot.optional = true) :
    (Slot.join cat left right).optional = true ↔ ∀ slot ∈ slots ++ [right], slot.optional = true := by
  rw [List.forall_mem_append, List.forall_mem_singleton, ← h]
  exact Bool.and_eq_true_iff

/-- **A cascade realizes all its slots**, given that its left-most slot realizes some. The induction is on the
slots to the right; what is paired so far is realized by the rules before. -/
theorem realizes_pairUp {rule : Rule} {left : Slot} {applied : Bool} {n : Nat} {rest slots : List Slot}
    {f : List Bool → Expansion} {pre post : List Rule}
    (hfresh : ∀ s, IsFreshBetween n (rule.pairUp left applied n rest).2 s → fresh s)
    (hlhs : ¬ IsFreshBetween n (rule.pairUp left applied n rest).2 rule.lhs)
    (hleft : Realizes { t | Becomes rules fresh left.symbol t } slots f)
    (hopt : left.optional = true ↔ ∀ slot ∈ slots, slot.optional = true)
    (hrest : ∀ slot ∈ rest, ¬ fresh slot.symbol)
    (hrules : rules = pre ++ (rule.pairUp left applied n rest).1 ++ post)
    (hother : Apart rule.lhs n (rule.pairUp left applied n rest).2 (pre ++ post))
    (happlied : ¬ (rest = [] ∧ applied = true)) :
    ∃ f', Realizes { t | Expands rules fresh rule.lhs t } (slots ++ rest) f' := by
  induction rest generalizing left applied n slots f pre with
  | nil =>
    obtain rfl : applied = false := by simpa using happlied
    have hrules' : rules = pre ++ rule.derive rule.lhs [left.symbol] rule.sem :: post := by
      rw [hrules]
      unfold pairUp
      simp
    rw [List.append_nil]
    exact ⟨_, hleft.single (r := rule.derive rule.lhs [left.symbol] rule.sem) rfl hrules'
      fun r hr => (hother r hr).1⟩
  | cons right rest ih =>
    have hright : ¬ fresh right.symbol := hrest right List.mem_cons_self
    by_cases hlast : rest = [] ∧ (applied || (left.required && right.required)) = true
    · -- the last pair makes the category of the rule itself
      obtain ⟨rfl, happ⟩ := hlast
      rw [pairUp_last rule happ] at hrules
      exact ⟨_, hleft.pair hopt hright hrules fun r hr => (hother r hr).1⟩
    · rw [pairUp_step rule hlast] at hfresh hlhs hrules hother
      dsimp only at hfresh hlhs hrules hother
      have hpairs := emits_pairRules rule (freshCat (n + 1)) left right (n + 1)
      have hlater := emits_pairUp rule (.join (freshCat (n + 1)) left right)
        (applied || (left.required && right.required)) (n + 1) rest
      obtain ⟨hpre, hpost⟩ := apart_append.mp hother
      rw [← List.append_assoc] at hrules
      have hpair := hleft.pair hopt hright (hrules.trans (List.append_assoc _ _ _)) fun r hr =>
        (apart_append.mpr ⟨hpre.lower (Nat.le_refl _) hlater.le,
          apart_append.mpr ⟨hpairs.apart_lower hlater hlhs, hpost.lower (Nat.le_refl _) hlater.le⟩⟩ r hr).1
      have hset : { t | Expands rules fresh (freshCat (n + 1)) t } =
          { t | Becomes rules fresh (freshCat (n + 1)) t } :=
        Set.ext fun t => (becomes_of_fresh (hfresh _ (isFreshBetween_next hlater.le))).symm
      rw [hset] at hpair
      rw [List.append_cons]
      refine ih (fun s hs => hfresh s (hs.mono (Nat.le_succ n) (Nat.le_refl _)))
        (fun hs => hlhs (hs.mono (Nat.le_succ n) (Nat.le_refl _))) hpair (join_optional_iff hopt)
        (fun slot hs => hrest slot (List.mem_cons_of_mem _ hs)) hrules ?_ hlast
      rw [apart_append, apart_append]
      exact ⟨⟨hpre.higher (Nat.le_succ n), hpairs.apart_higher hlater hlhs⟩, hpost.higher (Nat.le_succ n)⟩

theorem emits_cascade (rule : Rule) {slots : List Slot} (hne : slots ≠ [])
    (hrhs : rule.rhs = slots.map Slot.symbol) (n : Nat) :
    Emits rule.lhs n (rule.cascade slots n).2 (rule.cascade slots n).1 := by
  match slots, hne with
  | first :: second :: rest, _ => exact emits_pairUp rule first false n (second :: rest)
  | [first], _ =>
    refine ⟨Nat.le_refl n, ?_, ?_⟩
    · intro r hr
      rw [List.mem_singleton.mp hr]
      exact Or.inl rfl
    · intro r hr
      rw [List.mem_singleton.mp hr, hrhs]
      exact Or.inl rfl

/-- **The cascade of a rule** realizes its slots, the first of which may stand for several. -/
theorem realizes_cascade (rule : Rule) (pre post : List Rule) {first : Slot} {n : Nat}
    {rest slots : List Slot} {f : List Bool → Expansion}
    (hrhs : rule.rhs = (first :: rest).map Slot.symbol)
    (hfresh : ∀ s, IsFreshBetween n (rule.cascade (first :: rest) n).2 s → fresh s)
    (hlhs : ¬ IsFreshBetween n (rule.cascade (first :: rest) n).2 rule.lhs)
    (hfirst : Realizes { t | Becomes rules fresh first.symbol t } slots f)
    (hopt : first.optional = true ↔ ∀ slot ∈ slots, slot.optional = true)
    (hrest : ∀ slot ∈ rest, ¬ fresh slot.symbol)
    (hrules : rules = pre ++ (rule.cascade (first :: rest) n).1 ++ post)
    (hother : Apart rule.lhs n (rule.cascade (first :: rest) n).2 (pre ++ post)) :
    ∃ f', Realizes { t | Expands rules fresh rule.lhs t } (slots ++ rest) f' := by
  cases rest with
  | cons second rest =>
    exact realizes_pairUp hfresh hlhs hfirst hopt hrest hrules hother (by simp)
  | nil =>
    have hrules' : rules = pre ++ rule :: post := by
      rw [hrules]
      show pre ++ [rule] ++ post = _
      simp
    rw [List.append_nil]
    exact ⟨_, hfirst.single hrhs hrules' fun r hr => (hother r hr).1⟩

/-! ## Rules -/

/-- The arguments of a function that carries the first one are found among the slots. -/
theorem splitArguments?_eq_some {slots before after : List Slot} {first : Slot}
    (h : splitArguments? slots = some (before, first, after)) :
    slots = before ++ first :: after ∧ first.required = true := by
  unfold splitArguments? at h
  rw [List.span_eq_takeWhile_dropWhile] at h
  have happ := List.takeWhile_append_dropWhile (p := fun slot : Slot => !slot.required) (l := slots)
  split at h
  · rename_i before' first' after' heq
    injection heq with h1 h2
    split at h
    · injection h with h
      injection h with hb hfa
      injection hfa with hf ha
      subst hb hf ha
      rw [h1, h2] at happ
      refine ⟨happ.symm, ?_⟩
      have hhead := List.head?_dropWhile_not (fun slot : Slot => !slot.required) slots
      rw [h2] at hhead
      simpa using hhead
    · cases h
  · cases h

/-- A slot of a right-hand side that is required is not optional. -/
theorem optional_of_required {symbols : List String} {optionals : List Bool} {slot : Slot}
    (hmem : slot ∈ List.zipWith Slot.ofSymbol symbols optionals) (h : slot.required = true) :
    slot.optional = false := by
  obtain ⟨i, hi⟩ := List.mem_iff_getElem?.mp hmem
  rw [List.getElem?_zipWith] at hi
  cases hs : symbols[i]? with
  | none => rw [hs] at hi; cases hi
  | some s =>
    cases ho : optionals[i]? with
    | none => rw [hs, ho] at hi; cases hi
    | some o =>
      rw [hs, ho] at hi
      injection hi with hi
      subst hi
      have h' : (isCat s && !o) = true := h
      rw [Bool.and_eq_true] at h'
      show o = false
      simpa using h'.2

/-- The slots of a right-hand side with its markers. -/
def slotsOf (rule : Rule) (optionals : List Bool) : List Slot := List.zipWith Slot.ofSymbol rule.rhs optionals

theorem map_symbol_slotsOf {rule : Rule} {optionals : List Bool}
    (h : optionals.length = rule.rhs.length) : (rule.slotsOf optionals).map Slot.symbol = rule.rhs := by
  unfold slotsOf
  rw [List.map_zipWith]
  show List.zipWith (fun s _ => s) rule.rhs optionals = rule.rhs
  rw [← List.map_uncurry_zip_eq_zipWith]
  exact List.map_fst_zip (Nat.le_of_eq h.symm)

theorem map_optional_slotsOf {rule : Rule} {optionals : List Bool}
    (h : optionals.length = rule.rhs.length) : (rule.slotsOf optionals).map Slot.optional = optionals := by
  unfold slotsOf
  rw [List.map_zipWith]
  show List.zipWith (fun _ o => o) rule.rhs optionals = optionals
  rw [← List.map_uncurry_zip_eq_zipWith]
  exact List.map_snd_zip (Nat.le_of_eq h)

/-- The rule that a function which carries its first argument has for the symbols up to the first argument. -/
def innerRule (rule : Rule) (before : List Slot) (first : Slot) (n : Nat) : Rule :=
  rule.derive (freshCat (n + 1)) ((before ++ [first]).map Slot.symbol) rule.sem

/-- The rule for the result of that with the symbols after it. -/
def outerRule (rule : Rule) (after : List Slot) (n : Nat) : Rule :=
  rule.derive rule.lhs ((Slot.ofSymbol (freshCat (n + 1)) false :: after).map Slot.symbol)
    JoinFn.forwardBetaReduce.toFn

/-- The cascades of both rules. -/
def splitCascades (rule : Rule) (before : List Slot) (first : Slot) (after : List Slot) (n : Nat) :
    List Rule × Nat :=
  let inner := (rule.innerRule before first n).cascade (before ++ [first]) (n + 1)
  let outer := (rule.outerRule after n).cascade (Slot.ofSymbol (freshCat (n + 1)) false :: after) inner.2
  (inner.1 ++ outer.1, outer.2)

/-- **What the rules of a rule are**: one cascade, or two of them. -/
theorem binarize_eq_ok {rule : Rule} {optionals : List Bool} {n : Nat} {result : List Rule × Nat}
    (h : rule.binarize optionals n = .ok result) :
    optionals.length = rule.rhs.length ∧ (∃ slot ∈ rule.slotsOf optionals, slot.optional = false) ∧
      (result = rule.cascade (rule.slotsOf optionals) n ∨
        ∃ before first after, rule.slotsOf optionals = before ++ first :: after ∧
          first.optional = false ∧ result = rule.splitCascades before first after n) := by
  unfold binarize at h
  split at h
  · cases h
  · rename_i hlen
    refine ⟨Classical.not_not.mp hlen, ?_⟩
    dsimp only at h
    split at h
    · rename_i before first after heq
      split at heq
      · obtain ⟨hslots, hreq⟩ := splitArguments?_eq_some heq
        have hopt : first.optional = false :=
          optional_of_required (by rw [hslots]; exact List.mem_append_right _ List.mem_cons_self) hreq
        exact ⟨⟨first, by unfold slotsOf; rw [hslots]; simp, hopt⟩,
          Or.inr ⟨before, first, after, hslots, hopt, (Except.ok.inj h).symm⟩⟩
      · cases heq
    · split at h
      · cases h
      · rename_i hall
        refine ⟨?_, Or.inl (Except.ok.inj h).symm⟩
        simpa [slotsOf] using hall

/-- **A rule is refused** iff its markers do not match or leave nothing that has to be there. -/
theorem binarize_eq_error_iff {rule : Rule} {optionals : List Bool} {n : Nat} :
    (∃ e, rule.binarize optionals n = .error e) ↔
      optionals.length ≠ rule.rhs.length ∨ ∀ o ∈ optionals, o = true := by
  constructor
  · rintro ⟨e, he⟩
    by_contra hn
    rw [not_or, Classical.not_not] at hn
    obtain ⟨hlen, hall⟩ := hn
    unfold binarize at he
    rw [if_neg (by simpa using hlen)] at he
    dsimp only at he
    split at he
    · cases he
    · split at he
      · rename_i hopt
        refine hall fun o ho => ?_
        rw [← map_optional_slotsOf hlen] at ho
        obtain ⟨slot, hslot, rfl⟩ := List.mem_map.mp ho
        exact List.all_eq_true.mp hopt slot hslot
      · cases he
  · intro h
    cases hb : rule.binarize optionals n with
    | error e => exact ⟨e, rfl⟩
    | ok result =>
      obtain ⟨hlen, ⟨slot, hslot, hopt⟩, -⟩ := binarize_eq_ok hb
      rcases h with h | h
      · exact absurd hlen h
      · have hm : slot.optional ∈ optionals := by
          rw [← map_optional_slotsOf hlen]
          exact List.mem_map_of_mem hslot
        rw [h _ hm] at hopt
        cases hopt

theorem isReserved_of_isFreshBetween {n m : Nat} {symbol : String} (h : IsFreshBetween n m symbol) :
    IsReserved symbol := by
  obtain ⟨k, -, -, rfl⟩ := h
  exact isReserved_freshCat k

/-- The rules of the first cascade make the category that is handed out next. -/
theorem emits_innerRule (rule : Rule) (before : List Slot) (first : Slot) (n : Nat) :
    Emits (freshCat (n + 1)) (n + 1) ((rule.innerRule before first n).cascade (before ++ [first]) (n + 1)).2
      ((rule.innerRule before first n).cascade (before ++ [first]) (n + 1)).1 :=
  emits_cascade (rule.innerRule before first n) (by simp) rfl (n + 1)

/-- The rules of the second cascade make the category of the rule itself. -/
theorem emits_outerRule (rule : Rule) (after : List Slot) (n k : Nat) :
    Emits rule.lhs k
      ((rule.outerRule after n).cascade (Slot.ofSymbol (freshCat (n + 1)) false :: after) k).2
      ((rule.outerRule after n).cascade (Slot.ofSymbol (freshCat (n + 1)) false :: after) k).1 :=
  emits_cascade (rule.outerRule after n) (by simp) rfl k

theorem emits_splitCascades (rule : Rule) (before : List Slot) (first : Slot) (after : List Slot)
    (n : Nat) :
    Emits rule.lhs n (rule.splitCascades before first after n).2
      (rule.splitCascades before first after n).1 :=
  (emits_innerRule rule before first n).chain (emits_outerRule rule after n _)

/-- **Two cascades** realize all slots: the first one those up to the first argument, which it makes the first slot
of the second. -/
theorem realizes_splitCascades {rule : Rule} {before after : List Slot} {first : Slot} {n : Nat}
    (hlhs : ¬ IsReserved rule.lhs)
    (huser : ∀ slot ∈ before ++ first :: after, ¬ IsReserved slot.symbol)
    (hopt : first.optional = false) :
    ∃ f, Realizes { t | Expands (rule.splitCascades before first after n).1 IsReserved rule.lhs t }
      (before ++ first :: after) f := by
  have hinner := emits_innerRule rule before first n
  obtain ⟨head, tail, hslots⟩ : ∃ head tail, before ++ [first] = head :: tail :=
    List.exists_cons_of_ne_nil (by simp)
  rw [List.append_cons] at huser ⊢
  have hheads : ∀ slot ∈ head :: tail, ¬ IsReserved slot.symbol := fun slot hslot =>
    huser slot (List.mem_append_left _ (hslots ▸ hslot))
  unfold splitCascades
  dsimp only
  rw [hslots] at hinner ⊢
  set inner := (rule.innerRule before first n).cascade (head :: tail) (n + 1)
  have houter := emits_outerRule rule after n inner.2
  set joint := Slot.ofSymbol (freshCat (n + 1)) false
  set outer := (rule.outerRule after n).cascade (joint :: after) inner.2
  have hnot : ¬ IsFreshBetween n outer.2 rule.lhs := fun hs => hlhs (isReserved_of_isFreshBetween hs)
  -- the first cascade makes the category that stands for the slots up to the first argument
  obtain ⟨f, hf⟩ : ∃ f, Realizes { t | Expands (inner.1 ++ outer.1) IsReserved (freshCat (n + 1)) t }
      ([head] ++ tail) f :=
    realizes_cascade (rule.innerRule before first n) [] outer.1 (congrArg _ hslots)
      (fun s => isReserved_of_isFreshBetween)
      (fun h => (isFreshBetween_next (Nat.le_refl _)).disjoint h (Nat.le_refl _))
      (realizes_symbol (hheads head List.mem_cons_self)) (by simp)
      (fun slot hs => hheads slot (List.mem_cons_of_mem _ hs)) rfl (hinner.apart_lower houter hnot)
  have hset : { t | Expands (inner.1 ++ outer.1) IsReserved (freshCat (n + 1)) t } =
      { t | Becomes (inner.1 ++ outer.1) IsReserved joint.symbol t } :=
    Set.ext fun t => (becomes_of_fresh (isReserved_freshCat (n + 1))).symm
  rw [hset, List.singleton_append] at hf
  -- the second one takes it for its first slot
  refine realizes_cascade (rule.outerRule after n) inner.1 [] rfl
    (fun s => isReserved_of_isFreshBetween) (fun h => hlhs (isReserved_of_isFreshBetween h)) hf ?_
    (fun slot hs => huser slot (List.mem_append_right _ hs)) (List.append_nil _).symm
    (by
      rw [List.append_nil]
      exact hinner.apart_higher houter hnot)
  constructor
  · intro h
    cases h
  · intro h
    have hfirst := h first (hslots ▸ List.mem_append_right before List.mem_cons_self)
    rw [hopt] at hfirst
    cases hfirst

theorem slotsOf_ne_nil {rule : Rule} {optionals : List Bool}
    (h : ∃ slot ∈ rule.slotsOf optionals, slot.optional = false) : rule.slotsOf optionals ≠ [] := by
  obtain ⟨slot, hslot, -⟩ := h
  exact List.ne_nil_of_mem hslot

/-- What the rules of a rule make. -/
theorem emits_binarize {rule : Rule} {optionals : List Bool} {n : Nat} {result : List Rule × Nat}
    (h : rule.binarize optionals n = .ok result) : Emits rule.lhs n result.2 result.1 := by
  obtain ⟨hlen, hslot, rfl | ⟨before, first, after, hslots, -, rfl⟩⟩ := binarize_eq_ok h
  · exact emits_cascade rule (slotsOf_ne_nil hslot) (map_symbol_slotsOf hlen).symm n
  · exact emits_splitCascades rule before first after n

/-- **The rules of a rule** realize its slots. -/
theorem realizes_binarize {rule : Rule} {optionals : List Bool} {n : Nat} {result : List Rule × Nat}
    (h : rule.binarize optionals n = .ok result) (hlhs : ¬ IsReserved rule.lhs)
    (hrhs : ∀ s ∈ rule.rhs, ¬ IsReserved s) :
    ∃ f, Realizes { t | Expands result.1 IsReserved rule.lhs t } (rule.slotsOf optionals) f := by
  obtain ⟨hlen, hslot, hresult⟩ := binarize_eq_ok h
  have huser : ∀ slot ∈ rule.slotsOf optionals, ¬ IsReserved slot.symbol := fun slot hs =>
    hrhs _ (by
      rw [← map_symbol_slotsOf hlen]
      exact List.mem_map_of_mem hs)
  rcases hresult with rfl | ⟨before, first, after, hslots, hopt, rfl⟩
  · obtain ⟨head, tail, hslots⟩ := List.exists_cons_of_ne_nil (slotsOf_ne_nil hslot)
    rw [hslots] at huser ⊢
    exact realizes_cascade rule [] [] (n := n) (by rw [← hslots, map_symbol_slotsOf hlen])
      (fun s => isReserved_of_isFreshBetween) (fun h => hlhs (isReserved_of_isFreshBetween h))
      (realizes_symbol (huser head List.mem_cons_self)) (by simp)
      (fun slot hs => huser slot (List.mem_cons_of_mem _ hs)) (by simp) fun r hr => nomatch hr
  · rw [hslots] at huser ⊢
    exact realizes_splitCascades hlhs huser hopt

/-- If some symbol has to be there, every choice leaves something there. -/
theorem choicesOf_slotsOf {rule : Rule} {optionals : List Bool} (hlen : optionals.length = rule.rhs.length)
    (h : ∃ slot ∈ rule.slotsOf optionals, slot.optional = false) :
    choicesOf (rule.slotsOf optionals) = { c | IsChoice optionals c } := by
  unfold choicesOf
  obtain ⟨slot, hslot, hopt⟩ := h
  have hmem := List.mem_map_of_mem (f := Slot.optional) hslot
  rw [map_optional_slotsOf hlen, hopt] at hmem
  rw [map_optional_slotsOf hlen]
  ext c
  refine ⟨And.left, fun hc => ⟨hc, ?_⟩⟩
  by_contra hn
  cases hc.all_optional hn _ hmem

end Rule

/-! ## Grammars -/

/-- A rule to be added, with the markers of its optional symbols. -/
structure Addition where
  rule : Rule
  optionals : List Bool

namespace Grammar

/-- The grammar after additions one after another; those that are refused leave it as it is. -/
def addEach (grammar : Grammar) (additions : List Addition) : Grammar :=
  additions.foldl (fun g a => (g.addRule a.rule a.optionals).toOption.getD g) grammar

variable {grammar after : Grammar} {a : Addition}

/-- What an addition does to a grammar that brings rules to two symbols. -/
theorem addRule_eq_ok_iff (hbin : grammar.options.binarize = true) :
    grammar.addRule a.rule a.optionals = .ok after ↔
      ∃ result, a.rule.binarize a.optionals grammar.fresh = .ok result ∧
        after = { grammar with rules := grammar.rules ++ result.1, fresh := result.2 } := by
  unfold addRule
  rw [if_pos hbin, bind_eq_ok]
  constructor
  · rintro ⟨result, hr, hafter⟩
    exact ⟨result, hr, (Except.ok.inj hafter).symm⟩
  · rintro ⟨result, hr, rfl⟩
    exact ⟨result, hr, rfl⟩

theorem addRule_eq_error_iff (hbin : grammar.options.binarize = true) :
    (∃ e, grammar.addRule a.rule a.optionals = .error e) ↔
      ∃ e, a.rule.binarize a.optionals grammar.fresh = .error e := by
  unfold addRule
  rw [if_pos hbin]
  cases a.rule.binarize a.optionals grammar.fresh with
  | error e => exact ⟨fun _ => ⟨e, rfl⟩, fun _ => ⟨e, rfl⟩⟩
  | ok result => exact ⟨fun ⟨e, he⟩ => (nomatch he), fun ⟨e, he⟩ => (nomatch he)⟩

/-- **What later additions leave alone**: the rules so far, and the numbers of the fresh categories so far. -/
structure Extends (grammar later : Grammar) (added : List Rule) : Prop where
  binarize : later.options.binarize = true
  rules : later.rules = grammar.rules ++ added
  le : grammar.fresh ≤ later.fresh
  lhs : ∀ r ∈ added, IsReserved r.lhs → Rule.IsFreshBetween grammar.fresh later.fresh r.lhs

theorem Extends.refl (hbin : grammar.options.binarize = true) : grammar.Extends grammar [] where
  binarize := hbin
  rules := (List.append_nil _).symm
  le := Nat.le_refl _
  lhs _ hr := nomatch hr

theorem Extends.trans {g g' g'' : Grammar} {l l' : List Rule} (h : g.Extends g' l) (h' : g'.Extends g'' l') :
    g.Extends g'' (l ++ l') where
  binarize := h'.binarize
  rules := by rw [h'.rules, h.rules, List.append_assoc]
  le := Nat.le_trans h.le h'.le
  lhs r hr hres := by
    rcases List.mem_append.mp hr with hr | hr
    · exact (h.lhs r hr hres).mono (Nat.le_refl _) h'.le
    · exact (h'.lhs r hr hres).mono h.le (Nat.le_refl _)

/-- One addition extends the grammar by the rules of its rule. -/
theorem extends_addRule (hbin : grammar.options.binarize = true) (hlhs : ¬ IsReserved a.rule.lhs)
    (h : grammar.addRule a.rule a.optionals = .ok after) :
    ∃ emitted, grammar.Extends after emitted ∧ Rule.Emits a.rule.lhs grammar.fresh after.fresh emitted ∧
      a.rule.binarize a.optionals grammar.fresh = .ok (emitted, after.fresh) := by
  obtain ⟨result, hresult, rfl⟩ := (addRule_eq_ok_iff hbin).mp h
  have hemits := Rule.emits_binarize hresult
  refine ⟨result.1, ⟨hbin, rfl, hemits.le, fun r hr hres => ?_⟩, hemits, hresult⟩
  exact (hemits.lhs r hr).resolve_left fun he => hlhs (he ▸ hres)

/-- **Additions one after another extend a grammar.** -/
theorem extends_addEach (hbin : grammar.options.binarize = true) {additions : List Addition}
    (huser : ∀ a ∈ additions, ¬ IsReserved a.rule.lhs) :
    ∃ added, grammar.Extends (grammar.addEach additions) added := by
  induction additions generalizing grammar with
  | nil => exact ⟨[], .refl hbin⟩
  | cons a rest ih =>
    have hrest : ∀ a ∈ rest, ¬ IsReserved a.rule.lhs := fun b hb => huser b (List.mem_cons_of_mem _ hb)
    unfold addEach
    rw [List.foldl_cons]
    cases h : grammar.addRule a.rule a.optionals with
    | error e => exact ih hbin hrest
    | ok after =>
      obtain ⟨emitted, hext, -, -⟩ := extends_addRule hbin (huser a List.mem_cons_self) h
      obtain ⟨added, hadded⟩ := ih hext.binarize hrest
      exact ⟨emitted ++ added, hext.trans hadded⟩

/-- **Bringing rules to two symbols preserves the language with multiplicity.** In a sequence of additions, one is
refused iff its markers do not match or all of its symbols are optional. Otherwise the rules that it emits have one
or two symbols, no other addition makes its fresh categories, and the expansions of its left-hand side through the
emitted rules are in bijection with the choices of which optional symbols to leave out, each with the other symbols
for its yield. -/
theorem addEach_preserves_language (options : GrammarOptions) (registry : Registry)
    (hbin : options.binarize = true) (pre : List Addition) (a : Addition) (post : List Addition)
    (huser : ∀ b ∈ pre ++ a :: post, ∀ s ∈ b.rule.lhs :: b.rule.rhs, ¬ IsReserved s) :
    let before := (Grammar.new options registry).addEach pre
    ((∃ e, before.addRule a.rule a.optionals = .error e) ↔
      a.optionals.length ≠ a.rule.rhs.length ∨ ∀ o ∈ a.optionals, o = true) ∧
    ∀ after, before.addRule a.rule a.optionals = .ok after →
      ∃ emitted later,
        after.rules = before.rules ++ emitted ∧
        (after.addEach post).rules = before.rules ++ emitted ++ later ∧
        (∀ r ∈ emitted, r.rhs.length = 1 ∨ r.rhs.length = 2) ∧
        (∀ r ∈ emitted, r.lhs = a.rule.lhs ∨ Rule.IsFreshBetween before.fresh after.fresh r.lhs) ∧
        (∀ r ∈ before.rules ++ later, ¬ Rule.IsFreshBetween before.fresh after.fresh r.lhs) ∧
        ∃ f, Set.BijOn f { c | IsChoice a.optionals c } { t | Expands emitted IsReserved a.rule.lhs t } ∧
          ∀ c, IsChoice a.optionals c → (f c).yield = kept a.rule.rhs c := by
  intro before
  have hlhs : ∀ b ∈ pre ++ a :: post, ¬ IsReserved b.rule.lhs := fun b hb =>
    huser b hb _ List.mem_cons_self
  have hmem : a ∈ pre ++ a :: post := List.mem_append_right _ List.mem_cons_self
  obtain ⟨earlier, hbefore⟩ : ∃ earlier, (Grammar.new options registry).Extends before earlier :=
    extends_addEach hbin fun b hb => hlhs b (List.mem_append_left _ hb)
  refine ⟨(addRule_eq_error_iff hbefore.binarize).trans Rule.binarize_eq_error_iff, fun after h => ?_⟩
  obtain ⟨emitted, hext, hemits, hresult⟩ := extends_addRule hbefore.binarize (hlhs a hmem) h
  obtain ⟨later, hlater⟩ : ∃ later, after.Extends (after.addEach post) later :=
    extends_addEach hext.binarize fun b hb =>
      hlhs b (List.mem_append_right _ (List.mem_cons_of_mem _ hb))
  refine ⟨emitted, later, hext.rules, by rw [hlater.rules, hext.rules], hemits.rhs, hemits.lhs, ?_, ?_⟩
  · -- the other rules have fresh categories with smaller or with larger numbers
    intro r hr hfresh
    have hres := Rule.isReserved_of_isFreshBetween hfresh
    rcases List.mem_append.mp hr with hr | hr
    · rw [hbefore.rules] at hr
      exact (hbefore.lhs r hr hres).disjoint hfresh (Nat.le_refl _)
    · exact hfresh.disjoint (hlater.lhs r hr hres) (Nat.le_refl _)
  · obtain ⟨hlen, hslot, -⟩ := Rule.binarize_eq_ok hresult
    obtain ⟨f, hf⟩ := Rule.realizes_binarize hresult (hlhs a hmem)
      fun s hs => huser a hmem s (List.mem_cons_of_mem _ hs)
    have hchoices := Rule.choicesOf_slotsOf hlen hslot
    refine ⟨f, hchoices ▸ hf.bijOn, fun c hc => ?_⟩
    rw [hf.yield c (by rw [hchoices]; exact hc), Rule.map_symbol_slotsOf hlen]

/-- A rule with two arguments, some optional symbols, and a function that carries its first argument. -/
def sampleCall : Addition where
  rule :=
    { lhs := "$Call", rhs := ["call", "$Name", "now", "$Place"],
      sem := (JoinFn.applying (.lambda "x" (.var "x"))).toFn }
  optionals := [true, false, true, false]

/-- A rule of which the first symbol is optional. -/
def sampleName : Addition where
  rule := { lhs := "$Name", rhs := ["the", "$TOKEN", "there"], sem := (IdentityFn.mk).toFn }
  optionals := [true, false, false]

theorem addEach_preserves_language_sample :
    ∃ after emitted later,
      ((Grammar.new).addEach [sampleName]).addRule sampleCall.rule sampleCall.optionals = .ok after ∧
        (after.addEach [sampleName]).rules =
          ((Grammar.new).addEach [sampleName]).rules ++ emitted ++ later ∧
        ∃ f, Set.BijOn f { c | IsChoice sampleCall.optionals c }
            { t | Expands emitted IsReserved sampleCall.rule.lhs t } ∧
          ∀ c, IsChoice sampleCall.optionals c → (f c).yield = kept sampleCall.rule.rhs c := by
  obtain ⟨hrefused, hdone⟩ := addEach_preserves_language {} .standard rfl [sampleName] sampleCall [sampleName]
    (by decide +kernel)
  cases h : ((Grammar.new).addEach [sampleName]).addRule sampleCall.rule sampleCall.optionals with
  | error e => exact absurd (hrefused.mp ⟨e, h⟩) (by decide +kernel)
  | ok after =>
    obtain ⟨emitted, later, -, hlater, -, -, -, hf⟩ := hdone after h
    exact ⟨after, emitted, later, rfl, hlater, hf⟩

end Grammar

end Parlance
