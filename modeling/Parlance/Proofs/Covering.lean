import Mathlib.Data.Multiset.Bind
import Mathlib.Data.Multiset.Range
import Parlance.Parse.BottomUp
import Parlance.Proofs.Chart
import Parlance.Proofs.Trie

/-!
# `Proofs.Covering` — the ways to cover a span

A right-hand side covers a span if its symbols do so from left to right: a literal covers an equal token, a
category covers what one of its derivations spans. The walk through the trie finds the ways to do so for all
rules at once, each of them once.

## Contents
- **Ways.** `ways`, the ways to cover a span by a sequence of symbols, and what they depend on.
- **The walk.** `coverings_eq_bind`: the applications that `coverings` lists; `coverings_congr`: what they depend on.
- **One application.** `Way`, the steps that lead to an application that is listed.
-/

namespace Parlance

variable {δ ε : Type}

/-! ## Ways -/

/-- **The ways to cover the tokens from `i` up to `last` by symbols**, each as the list of the parts that
categories stand for. `isToken` tells whether a symbol stands for the token at a position, `parts` what a symbol
stands for over a span. -/
def ways (isToken : Nat → String → Bool) (parts : Nat → Nat → String → Multiset δ) (last : Nat) :
    List String → Nat → Multiset (List δ)
  | [], i => if i = last then {[]} else 0
  | symbol :: rest, i =>
    (if i < last ∧ isToken i symbol then ways isToken parts last rest (i + 1) else 0) +
      (Multiset.range (last - i)).bind fun k =>
        (parts i (i + k + 1) symbol).bind fun d =>
          (ways isToken parts last rest (i + k + 1)).map (d :: ·)

variable {isToken : Nat → String → Bool} {parts : Nat → Nat → String → Multiset δ} {last : Nat}

/-- There is no way to cover nothing by something. -/
theorem ways_cons_last (symbol : String) (rest : List String) :
    ways isToken parts last (symbol :: rest) last = 0 := by
  rw [ways, if_neg (fun h => Nat.lt_irrefl _ h.1), Nat.sub_self, Multiset.range_zero,
    Multiset.zero_bind, add_zero]

/-- Ways depend on the tokens and parts of the span for the symbols at hand. -/
theorem ways_congr {isToken' : Nat → String → Bool} {parts' : Nat → Nat → String → Multiset δ}
    {symbols : List String} {i : Nat}
    (ht : ∀ j, i ≤ j → j < last → ∀ s ∈ symbols, isToken j s = isToken' j s)
    (hp : ∀ j k, i ≤ j → j < k → k ≤ last → ∀ s ∈ symbols, parts j k s = parts' j k s) :
    ways isToken parts last symbols i = ways isToken' parts' last symbols i := by
  induction symbols generalizing i with
  | nil => rfl
  | cons symbol rest ih =>
    have hs : symbol ∈ symbol :: rest := List.mem_cons_self
    have hrest : ∀ {s}, s ∈ rest → s ∈ symbol :: rest := fun h => List.mem_cons_of_mem _ h
    rw [ways, ways]
    congr 1
    · by_cases hi : i < last
      · rw [ht i (Nat.le_refl i) hi symbol hs]
        rw [ih (fun j hj hl s h => ht j (by omega) hl s (hrest h))
          (fun j k hj hk hl s h => hp j k (by omega) hk hl s (hrest h))]
      · rw [if_neg fun h => hi h.1, if_neg fun h => hi h.1]
    · refine Multiset.bind_congr fun k hk => ?_
      rw [Multiset.mem_range] at hk
      rw [hp i (i + k + 1) (Nat.le_refl i) (by omega) (by omega) symbol hs]
      rw [ih (fun j hj hl s h => ht j (by omega) hl s (hrest h))
        (fun j k hj hk hl s h => hp j k (by omega) hk hl s (hrest h))]

/-- Ways by views of parts are views of ways by parts. -/
theorem ways_map (f : δ → ε) (symbols : List String) (i : Nat) :
    ways isToken (fun j k s => (parts j k s).map f) last symbols i =
      (ways isToken parts last symbols i).map (List.map f) := by
  induction symbols generalizing i with
  | nil =>
    rw [ways, ways]
    split <;> simp
  | cons symbol rest ih =>
    rw [ways, ways, Multiset.map_add, Multiset.map_bind]
    congr 1
    · split
      · exact ih _
      · rfl
    · refine Multiset.bind_congr fun k _ => ?_
      rw [Multiset.map_bind, Multiset.bind_map]
      refine Multiset.bind_congr fun d _ => ?_
      rw [ih, Multiset.map_map, Multiset.map_map]
      rfl

/-- A part of a way is a part of a span within the span that the way covers. -/
theorem mem_parts_of_mem_ways {symbols : List String} {i : Nat} {w : List δ} {d : δ}
    (hw : w ∈ ways isToken parts last symbols i) (hd : d ∈ w) :
    ∃ j k s, i ≤ j ∧ j < k ∧ k ≤ last ∧ s ∈ symbols ∧ d ∈ parts j k s := by
  induction symbols generalizing i w with
  | nil =>
    rw [ways] at hw
    split at hw
    · rw [Multiset.mem_singleton] at hw
      subst hw
      cases hd
    · cases hw
  | cons symbol rest ih =>
    rw [ways, Multiset.mem_add] at hw
    rcases hw with hw | hw
    · split at hw
      · obtain ⟨j, k, s, hj, hk, hl, hs, hm⟩ := ih hw hd
        exact ⟨j, k, s, by omega, hk, hl, List.mem_cons_of_mem _ hs, hm⟩
      · cases hw
    · obtain ⟨k, hk, hw⟩ := Multiset.mem_bind.mp hw
      obtain ⟨e, he, hw⟩ := Multiset.mem_bind.mp hw
      obtain ⟨w', hw', rfl⟩ := Multiset.mem_map.mp hw
      rw [Multiset.mem_range] at hk
      rcases List.mem_cons.mp hd with rfl | hd
      · exact ⟨i, i + k + 1, symbol, by omega, by omega, by omega, List.mem_cons_self, he⟩
      · obtain ⟨j, k', s, hj, hk', hl, hs, hm⟩ := ih hw' hd
        exact ⟨j, k', s, by omega, hk', hl, List.mem_cons_of_mem _ hs, hm⟩

/-- Of different items only one counts if the others add nothing. -/
theorem bind_ite_eq {κ : Type} [DecidableEq κ] {items : List κ} (hk : items.Nodup) (item : κ)
    (f : Multiset ε) :
    ((items : Multiset κ).bind fun k => if k = item then f else 0) = if item ∈ items then f else 0 := by
  induction items with
  | nil => rfl
  | cons k items ih =>
    rw [List.nodup_cons] at hk
    rw [← Multiset.cons_coe, Multiset.cons_bind, ih hk.2]
    by_cases h : k = item
    · subst h
      rw [if_pos rfl, if_neg hk.1, if_pos List.mem_cons_self, add_zero]
    · rw [if_neg h, zero_add]
      simp [Ne.symm h]

/-- One category covers a span by each of its derivations there. -/
theorem ways_singleton {s : String} {i : Nat} (hi : i < last) (ht : isToken i s = false) :
    ways isToken parts last [s] i = (parts i last s).map fun d => [d] := by
  have hstep : ∀ k, ((parts i (i + k + 1) s).bind fun d =>
        (ways isToken parts last [] (i + k + 1)).map (d :: ·)) =
      if k = last - i - 1 then (parts i last s).map fun d => [d] else 0 := fun k => by
    by_cases hk : i + k + 1 = last
    · rw [if_pos (by omega), hk, ways, if_pos rfl]
      simp only [Multiset.map_singleton, Multiset.bind_singleton]
    · rw [if_neg (by omega), ways, if_neg hk]
      simp
  have hmem : last - i - 1 ∈ List.range (last - i) := List.mem_range.mpr (by omega)
  rw [ways, if_neg (by simp [ht]), zero_add, Multiset.bind_congr fun k _ => hstep k]
  exact (bind_ite_eq List.nodup_range _ _).trans (if_pos hmem)

/-! ## The walk -/

namespace BottomUp

open Progress

variable {α : Type}

/-- What a symbol stands for over a part of a span that is not all of it. -/
def properParts (chart : Chart α) (first last i j : Nat) (symbol : String) : Multiset Nat :=
  if i = first ∧ j = last then 0 else chart.get i j symbol

/-- What a rule adds to a walk that came from its start to `path`, and to position `i`, by `children`. -/
def along (task : Task α) (chart : Chart α) (first last i : Nat) (path : List String)
    (children : List Nat) (r : NumberedRule) : Multiset Application :=
  if task.canBuild r.rule first last ∧ path <+: r.rule.rhs then
    (ways (fun i s => task.ex.token i == s) (properParts chart first last) last
      (r.rule.rhs.drop path.length) i).map
        fun w => { rule := r.rule, first, last, children := children ++ w }
  else 0

variable {task : Task α} {chart : Chart α} {first last i : Nat} {path : List String}
  {children : List Nat} {r : NumberedRule}

theorem along_eq_zero (h : ¬ path <+: r.rule.rhs) :
    along task chart first last i path children r = 0 :=
  if_neg fun hp => h hp.2

/-- What a rule adds goes by what is left of its right-hand side. -/
theorem along_of_eq {rest : List String} (h : r.rule.rhs = path ++ rest) :
    along task chart first last i path children r =
      if task.canBuild r.rule first last then
        (ways (fun i s => task.ex.token i == s) (properParts chart first last) last rest i).map
          fun w => { rule := r.rule, first, last, children := children ++ w }
      else 0 := by
  unfold along
  rw [h, List.drop_left]
  simp only [List.prefix_append, and_true]

/-- At the end of the span a rule adds something if its right-hand side ends there. -/
theorem along_last : along task chart first last last path children r =
    if task.canBuild r.rule first last ∧ r.rule.rhs = path then
      {{ rule := r.rule, first, last, children }} else 0 := by
  by_cases hp : path <+: r.rule.rhs
  · obtain ⟨rest, hr⟩ := hp
    rw [along_of_eq hr.symm, ← hr]
    cases rest with
    | nil =>
      simp [ways]
    | cons s rest =>
      rw [ways_cons_last]
      simp
  · have hne : r.rule.rhs ≠ path := fun h => hp (h ▸ List.prefix_rfl)
    rw [along_eq_zero hp, if_neg fun h => hne h.2]

theorem prefix_concat_iff {s x : String} {rest : List String} (h : r.rule.rhs = path ++ s :: rest) :
    path ++ [x] <+: r.rule.rhs ↔ x = s := by
  rw [h, List.prefix_append_right_inj, List.cons_prefix_cons]
  simp

/-- Of the derivations over a part of the span, a rule goes on with those of its next symbol. -/
theorem bind_cats_along {s : String} {rest : List String} (hd : chart.Distinct)
    (h : r.rule.rhs = path ++ s :: rest) (j : Nat) :
    ((chart.cats i j : Multiset String).bind fun cat =>
      (properParts chart first last i j cat).bind fun d =>
        along task chart first last j (path ++ [cat]) (children ++ [d]) r) =
    (properParts chart first last i j s).bind fun d =>
      along task chart first last j (path ++ [s]) (children ++ [d]) r := by
  have hcat : ∀ cat : String,
      ((properParts chart first last i j cat).bind fun d =>
        along task chart first last j (path ++ [cat]) (children ++ [d]) r) =
      if cat = s then
        (properParts chart first last i j s).bind fun d =>
          along task chart first last j (path ++ [s]) (children ++ [d]) r
      else 0 := fun cat => by
    split
    · rename_i he; rw [he]
    · rename_i he
      simp only [along_eq_zero fun hp => he ((prefix_concat_iff h).mp hp), Multiset.bind_zero]
  rw [Multiset.bind_congr fun cat _ => hcat cat, bind_ite_eq (hd.nodup_cats _ _)]
  split
  · rfl
  · rename_i hk
    unfold properParts
    rw [Chart.get_of_not_mem fun hm => hk (Chart.cats_eq chart _ _ ▸ hm)]
    simp

/-- **One step of a walk**: past the token, or past a derivation of some category. -/
theorem along_step (hd : chart.Distinct) (hi : i < last) :
    along task chart first last i path children r =
      along task chart first last (i + 1) (path ++ [task.ex.token i]) children r +
      (Multiset.range (last - i)).bind fun k =>
        (chart.cats i (i + k + 1) : Multiset String).bind fun cat =>
          (properParts chart first last i (i + k + 1) cat).bind fun d =>
            along task chart first last (i + k + 1) (path ++ [cat]) (children ++ [d]) r := by
  by_cases hp : path <+: r.rule.rhs
  · obtain ⟨rest, hr⟩ := hp
    cases rest with
    | nil =>
      have hn : ∀ s, ¬ path ++ [s] <+: r.rule.rhs := fun s hs => by
        have := hs.length_le
        rw [← hr, List.append_nil, List.length_append, List.length_singleton] at this
        omega
      rw [along_of_eq hr.symm]
      simp [along_eq_zero (hn _), ways, Nat.ne_of_lt hi]
    | cons s rest =>
      have heq : r.rule.rhs = (path ++ [s]) ++ rest := by rw [← hr]; simp
      have htok : along task chart first last (i + 1) (path ++ [task.ex.token i]) children r =
          if task.ex.token i = s then
            along task chart first last (i + 1) (path ++ [s]) children r else 0 := by
        split
        · rename_i h; rw [h]
        · rename_i h; exact along_eq_zero fun hp => h ((prefix_concat_iff hr.symm).mp hp)
      rw [Multiset.bind_congr fun k _ => bind_cats_along hd hr.symm (i + k + 1), htok,
        along_of_eq hr.symm]
      simp only [along_of_eq heq, ways]
      by_cases hb : task.canBuild r.rule first last
      · simp only [if_pos hb, Multiset.map_add, Multiset.map_bind, Multiset.map_map, hi, true_and,
          beq_iff_eq, List.append_assoc, List.singleton_append, Function.comp_def]
        congr 1
        split <;> rfl
      · simp [if_neg hb]
  · have hn : ∀ s, ¬ path ++ [s] <+: r.rule.rhs := fun s hs =>
      hp ((List.prefix_append path [s]).trans hs)
    simp [along_eq_zero hp, along_eq_zero (hn _)]

/-- Where the trie goes on with a symbol, some of its rules do; where it does not, none does. -/
theorem coe_next_eq {l : List NumberedRule} {trie : Trie} (h : Trie.Filed l path trie) (s : String)
    (f : Trie → List Application) (hf : ∀ next, trie.next? s = some next →
      (f next : Multiset Application) =
        (l : Multiset NumberedRule).bind (along task chart first last i (path ++ [s]) children)) :
    ((match trie.next? s with
      | some next => f next
      | none => [] : List Application) : Multiset Application) =
      (l : Multiset NumberedRule).bind (along task chart first last i (path ++ [s]) children) := by
  cases hx : trie.next? s with
  | some next => exact hf next hx
  | none =>
    rw [Multiset.bind_congr fun r hm => along_eq_zero (h.none_of_next hx (Multiset.mem_coe.mp hm))]
    simp

/-- **The walk through a trie** lists what each of its rules adds. -/
theorem coverings_eq_bind [Score α] (hc : task.coarse = none) (hd : chart.Distinct)
    {l : List NumberedRule} {trie : Trie} (h : Trie.Filed l path trie) (hi : i ≤ last) :
    (coverings task chart first last i trie children : Multiset Application) =
      (l : Multiset NumberedRule).bind (along task chart first last i path children) := by
  induction hn : last - i using Nat.strongRecOn generalizing i path trie children with
  | ind n ih =>
    have hall : ∀ cats, task.allowsAny cats first last = true := fun cats => by
      simp [Task.allowsAny, hc]
    rw [coverings, hall, if_neg (by simp)]
    by_cases hl : last ≤ i
    · obtain rfl : i = last := by omega
      rw [if_pos hl, endings]
      have hr : trie.rules = l.filter fun r => r.rule.rhs = path := by
        simpa using h.rules []
      rw [hr, List.filter_filter, Multiset.bind_congr fun r _ => along_last, ← Multiset.bind_filter,
        Multiset.bind_singleton, ← Multiset.map_coe, Multiset.filter_coe]
      simp only [Bool.decide_and, Bool.decide_eq_true]
    · have hlt : i < last := by omega
      rw [if_neg hl, Multiset.bind_congr fun r _ => along_step hd hlt, Multiset.bind_add,
        ← Multiset.coe_add]
      congr 1
      · exact coe_next_eq h _ _ fun next hx => ih _ (by omega) (h.next hx) (by omega) rfl
      · rw [← Multiset.coe_bind, Multiset.bind_bind]
        refine Multiset.bind_congr fun k hk => ?_
        have hk' : k < last - i := by simpa using hk
        by_cases hw : i = first ∧ i + k + 1 = last
        · simp only [if_pos hw, properParts]
          simp
        · -- the parts that the walk goes past, one category after the other
          simp only [if_neg hw, properParts]
          rw [Chart.entries_eq_map hd, List.flatMap_map, ← Multiset.coe_bind, Multiset.bind_bind]
          refine Multiset.bind_congr fun cat _ => ?_
          rw [Multiset.bind_bind]
          cases hx : trie.next? cat with
          | some next =>
            rw [← Multiset.coe_bind]
            exact Multiset.bind_congr fun d _ => ih _ (by omega) (h.next hx) (by omega) rfl
          | none =>
            have hnone : ∀ d, (l : Multiset NumberedRule).bind
                (along task chart first last (i + k + 1) (path ++ [cat]) (children ++ [d])) = 0 :=
              fun d => by
                rw [Multiset.bind_congr fun r hm =>
                  along_eq_zero (h.none_of_next hx (Multiset.mem_coe.mp hm)), Multiset.bind_zero]
            rw [Multiset.bind_congr fun d _ => hnone d, Multiset.bind_zero]
            rfl

/-- **The ways to cover a span depend on the text and on what can matter**, and on nothing else of a task. -/
theorem coverings_congr {other : Task α} (hex : other.ex = task.ex) (hcoarse : other.coarse = task.coarse)
    (chart : Chart α) (first last i : Nat) (trie : Trie) (children : List Nat) :
    coverings other chart first last i trie children = coverings task chart first last i trie children := by
  have hallows : ∀ cat, other.allows cat first last = task.allows cat first last := by
    intro cat
    unfold Task.allows
    rw [hcoarse]
  have hany : ∀ cats, other.allowsAny cats first last = task.allowsAny cats first last := by
    intro cats
    unfold Task.allowsAny
    simp only [hcoarse, hallows]
  have hendings : ∀ trie children,
      endings other first last trie children = endings task first last trie children := by
    intro trie children
    unfold endings Task.canBuild Task.length
    simp only [hex, hallows]
  induction hn : last - i using Nat.strongRecOn generalizing i trie children with
  | ind n ih =>
    -- a step over a token or over a derivation leaves less of the span to cover
    rw [coverings, coverings, hany, hendings, hex]
    split
    case isTrue => rfl
    case isFalse =>
      split
      case isTrue => rfl
      case isFalse hend =>
        congr 1
        · cases trie.next? (task.ex.token i) with
          | none => rfl
          | some next => exact ih (last - (i + 1)) (by omega) (i + 1) next children rfl
        · apply List.flatMap_congr
          intro k hk
          rw [List.mem_range] at hk
          dsimp only
          split
          case isTrue => rfl
          case isFalse =>
            apply List.flatMap_congr
            rintro ⟨cat, l⟩ -
            dsimp only
            cases trie.next? cat with
            | none => rfl
            | some next =>
              apply List.flatMap_congr
              intro d _
              exact ih (last - (i + k + 1)) (by omega) (i + k + 1) next (children ++ [d]) rfl

/-! ## One application -/

/-- **The way to an application**, from a position and a node on: past tokens, and past derivations of parts of the
span, to a rule that ends there. -/
inductive Way (task : Task α) (chart : Chart α) (first last : Nat) (a : Application) :
    Nat → Trie → List Nat → Prop
  | ends {i : Nat} {trie : Trie} {children : List Nat} (hi : last ≤ i)
      (ha : a ∈ endings task first last trie children) : Way task chart first last a i trie children
  | token {i : Nat} {trie next : Trie} {children : List Nat} (hi : i < last)
      (hnext : trie.next? (task.ex.token i) = some next) (rest : Way task chart first last a (i + 1) next children) :
      Way task chart first last a i trie children
  | part {i j d : Nat} {cat : String} {trie next : Trie} {children l : List Nat} (hij : i < j) (hj : j ≤ last)
      (hproper : ¬(i = first ∧ j = last)) (hentry : (cat, l) ∈ chart.entries i j) (hd : d ∈ l)
      (hnext : trie.next? cat = some next) (rest : Way task chart first last a j next (children ++ [d])) :
      Way task chart first last a i trie children

theorem way_of_mem_coverings {trie : Trie} {a : Application}
    (ha : a ∈ coverings task chart first last i trie children) : Way task chart first last a i trie children := by
  induction hn : last - i using Nat.strongRecOn generalizing i trie children with
  | ind n ih =>
    rw [coverings] at ha
    split at ha
    case isTrue => cases ha
    case isFalse =>
      split at ha
      case isTrue hend => exact .ends hend ha
      case isFalse hend =>
        rcases List.mem_append.mp ha with ha | ha
        · split at ha
          case h_1 next hnext => exact .token (Nat.lt_of_not_le hend) hnext (ih _ (by omega) ha rfl)
          case h_2 => cases ha
        · obtain ⟨k, hk, ha⟩ := List.mem_flatMap.mp ha
          rw [List.mem_range] at hk
          dsimp only at ha
          split at ha
          case isTrue => cases ha
          case isFalse hproper =>
            obtain ⟨⟨cat, l⟩, hentry, ha⟩ := List.mem_flatMap.mp ha
            dsimp only at ha
            split at ha
            case h_1 next hnext =>
              obtain ⟨d, hd, ha⟩ := List.mem_flatMap.mp ha
              exact .part (by omega) (by omega) hproper hentry hd hnext (ih _ (by omega) ha rfl)
            case h_2 => cases ha

/-- What has one part goes past one derivation of the whole span. -/
theorem exists_of_mem_wholeSpan {trie : Trie} {a : Application} (ha : a ∈ wholeSpan task chart first last trie) :
    ∃ cat l next d, (cat, l) ∈ chart.entries first last ∧ d ∈ l ∧ trie.next? cat = some next ∧
      a ∈ endings task first last next [d] := by
  unfold wholeSpan at ha
  split at ha
  case isTrue => cases ha
  case isFalse =>
    obtain ⟨⟨cat, l⟩, hentry, ha⟩ := List.mem_flatMap.mp ha
    dsimp only at ha
    split at ha
    case h_2 => cases ha
    case h_1 next hnext =>
      split at ha
      case isFalse => cases ha
      case isTrue =>
        obtain ⟨d, hd, ha⟩ := List.mem_flatMap.mp ha
        exact ⟨cat, l, next, d, hentry, hd, hnext, ha⟩

/-- A rule that ends at a node is one of those whose right-hand side leads there. -/
theorem exists_of_mem_endings {l : List NumberedRule} {trie : Trie} {a : Application} (h : Trie.Filed l path trie)
    (ha : a ∈ endings task first last trie children) :
    ∃ r ∈ l, r.rule.rhs = path ∧ task.canBuild r.rule first last = true ∧
      a = { rule := r.rule, first, last, children } := by
  obtain ⟨r, hr, rfl⟩ := List.mem_map.mp ha
  obtain ⟨hr, hbuild⟩ := List.mem_filter.mp hr
  have hrules := h.rules []
  rw [Trie.rulesAt_nil, List.append_nil] at hrules
  rw [hrules] at hr
  obtain ⟨hr, hrhs⟩ := List.mem_filter.mp hr
  exact ⟨r, hr, of_decide_eq_true hrhs, hbuild, rfl⟩

namespace Way

variable {l : List NumberedRule} {trie : Trie} {a : Application}

/-- What covers a span is applied to the span. -/
theorem span (way : Way task chart first last a i trie children) : a.first = first ∧ a.last = last := by
  induction way with
  | ends _ ha =>
    obtain ⟨r, -, rfl⟩ := List.mem_map.mp ha
    exact ⟨rfl, rfl⟩
  | token _ _ _ ih => exact ih
  | part _ _ _ _ _ _ _ ih => exact ih

theorem exists_rule (h : Trie.Filed l path trie) (way : Way task chart first last a i trie children) :
    ∃ r ∈ l, a.rule = r.rule ∧ task.canBuild r.rule first last = true := by
  induction way generalizing path with
  | ends _ ha =>
    obtain ⟨r, hr, -, hbuild, rfl⟩ := exists_of_mem_endings h ha
    exact ⟨r, hr, rfl, hbuild⟩
  | token _ hnext _ ih => exact ih (h.next hnext)
  | part _ _ _ _ _ hnext _ ih => exact ih (h.next hnext)

/-- **What a rule is applied to** on the way are derivations of parts of the span. -/
theorem children_cases (hd : chart.Distinct) (way : Way task chart first last a i trie children) :
    ∀ c ∈ a.children, c ∈ children ∨
      ∃ f l cat, i ≤ f ∧ f < l ∧ l ≤ last ∧ ¬(f = first ∧ l = last) ∧ c ∈ chart.get f l cat := by
  induction way with
  | ends _ ha =>
    obtain ⟨r, -, rfl⟩ := List.mem_map.mp ha
    exact fun c hc => .inl hc
  | token _ _ _ ih =>
    intro c hc
    rcases ih c hc with hc | ⟨f, l, cat, hf, hpart⟩
    · exact .inl hc
    · exact .inr ⟨f, l, cat, by omega, hpart⟩
  | @part i j d cat _ _ _ ds hij hj hproper hentry hm _ _ ih =>
    intro c hc
    rcases ih c hc with hc | ⟨f, l, cat', hf, hpart⟩
    · rcases List.mem_append.mp hc with hc | hc
      · exact .inl hc
      · refine .inr ⟨i, j, cat, Nat.le_refl i, hij, hj, hproper, ?_⟩
        rw [List.mem_singleton.mp hc, ← ((Chart.mem_entries_iff hd).mp hentry).2]
        exact hm
    · exact .inr ⟨f, l, cat', by omega, hpart⟩

end Way

end BottomUp

end Parlance
