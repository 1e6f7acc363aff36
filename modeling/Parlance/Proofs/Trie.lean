import Mathlib.Data.List.Induction
import Parlance.Parse.Trie
import Parlance.Proofs.Table

/-!
# `Proofs.Trie` — a trie is the list of its rules, by right-hand sides

What a trie holds at a sequence of symbols does not depend on how it was built: the rules there are the rules
of the list with just these symbols, in order, and the left-hand sides there are those of the rules whose
right-hand sides start with these symbols. A rule that is filed several times counts as filed when it was filed first.

A walk from the root comes to a node as long as some rule goes on along its symbols. A walk of no symbols stays at
the root, which is there before any rule is.

## Contents
- **First occurrences.** `eraseDupsBy_concat`: one more item at the end of a list.
- **Places.** `rulesAt`, `catsAt`: what a trie holds at a sequence of symbols.
- **Filing.** `rulesAt_addUnder` and `catsAt_addUnder`; `rulesAt_eq_eraseDupsBy` and `catsAt_eq_eraseDups`, and what
  these come to if each rule is filed once.
- **Nodes.** `Filed`, which says of a node of a trie what it holds, and which the next nodes inherit.
- **Walks.** `isSome_walk?_addUnder`, and `walk?_ofRules`, where walks lead.
-/

namespace Parlance

/-! ## First occurrences -/

section FirstOccurrences

variable {α κ : Type} [DecidableEq κ]

/-- An item at the end of a list is kept if no item with its key stands before it. -/
theorem eraseDupsBy_concat (key : α → κ) (l : List α) (a : α) :
    (l ++ [a]).eraseDupsBy (fun x y => key x == key y) =
      if ∃ x ∈ l, key x = key a then l.eraseDupsBy fun x y => key x == key y
      else l.eraseDupsBy (fun x y => key x == key y) ++ [a] := by
  -- items with the key of the first one are taken out of the rest, which is therefore shorter
  induction hn : l.length using Nat.strongRecOn generalizing l with
  | ind n ih =>
    cases l with
    | nil => simp [List.eraseDupsBy_cons]
    | cons b l =>
      have hlength : (l.filter fun x => (key x == key b) = false).length < n :=
        Nat.lt_of_le_of_lt (List.length_filter_le _ _) (by rw [← hn]; exact Nat.lt_succ_self _)
      rw [List.cons_append, List.eraseDupsBy_cons, List.eraseDupsBy_cons, List.filter_append]
      by_cases hb : key b = key a
      case pos =>
        have hdropped : [a].filter (fun x => (key x == key b) = false) = [] := by simp [hb]
        rw [hdropped, List.append_nil, if_pos ⟨b, List.mem_cons_self, hb⟩]
      case neg =>
        have hkept : [a].filter (fun x => (key x == key b) = false) = [a] := by simp [Ne.symm hb]
        have hsame : (∃ x ∈ l.filter (fun x => (key x == key b) = false), key x = key a) ↔
            ∃ x ∈ b :: l, key x = key a := by
          simp only [List.mem_filter, List.mem_cons, exists_eq_or_imp, hb, false_or]
          exact exists_congr fun x => ⟨fun h => ⟨h.1.1, h.2⟩, fun h => ⟨⟨h.1, by simp [h.2, Ne.symm hb]⟩, h.2⟩⟩
        rw [hkept, ih _ hlength _ rfl]
        simp only [hsame]
        split <;> rfl

theorem exists_key_eraseDupsBy (key : α → κ) (l : List α) (k : κ) :
    (∃ x ∈ l.eraseDupsBy (fun x y => key x == key y), key x = k) ↔ ∃ x ∈ l, key x = k := by
  induction l using List.reverseRecOn with
  | nil => rfl
  | append_singleton l a ih =>
    rw [eraseDupsBy_concat]
    split
    case isTrue h =>
      obtain ⟨y, hy, hya⟩ := h
      rw [ih]
      simp only [List.mem_append, List.mem_singleton, or_and_right, exists_or, exists_eq_left]
      exact ⟨.inl, fun h => h.elim id fun ha => ⟨y, hy, hya.trans ha⟩⟩
    case isFalse => simp only [List.mem_append, or_and_right, exists_or, ih]

/-- Where no two items have one key, nothing is taken out. -/
theorem eraseDupsBy_eq_self {key : α → κ} {l : List α} (h : (l.map key).Nodup) :
    l.eraseDupsBy (fun x y => key x == key y) = l := by
  induction l using List.reverseRecOn with
  | nil => rfl
  | append_singleton l a ih =>
    rw [List.map_append, List.map_singleton, List.nodup_append] at h
    have hnew : ¬∃ x ∈ l, key x = key a := fun ⟨x, hx, he⟩ =>
      h.2.2 _ (List.mem_map_of_mem hx) _ List.mem_cons_self he
    rw [eraseDupsBy_concat, if_neg hnew, ih h.1]

end FirstOccurrences

namespace Trie

/-! ## Places -/

/-- The rules at a sequence of symbols. -/
def rulesAt (trie : Trie) (path : List String) : List NumberedRule :=
  ((trie.walk? path).map rules).getD []

/-- The left-hand sides at a sequence of symbols. -/
def catsAt (trie : Trie) (path : List String) : List String :=
  ((trie.walk? path).map cats).getD []

@[simp] theorem rulesAt_nil (trie : Trie) : trie.rulesAt [] = trie.rules := rfl

@[simp] theorem catsAt_nil (trie : Trie) : trie.catsAt [] = trie.cats := rfl

theorem rulesAt_cons (trie : Trie) (symbol : String) (path : List String) :
    trie.rulesAt (symbol :: path) = ((trie.next? symbol).getD empty).rulesAt path := by
  cases h : trie.next? symbol with
  | none => cases path <;> simp [rulesAt, walk?, h] <;> rfl
  | some next => simp [rulesAt, walk?, h]

theorem catsAt_cons (trie : Trie) (symbol : String) (path : List String) :
    trie.catsAt (symbol :: path) = ((trie.next? symbol).getD empty).catsAt path := by
  cases h : trie.next? symbol with
  | none => cases path <;> simp [catsAt, walk?, h] <;> rfl
  | some next => simp [catsAt, walk?, h]

/-! ## Filing -/

theorem next?_node (rules : List NumberedRule) (children : Table Trie) (cats : List String)
    (symbol : String) : (node rules children.toList cats).next? symbol = children.get? symbol := rfl

/-- A rule is filed at what is left of its right-hand side, and nowhere else. -/
theorem rulesAt_addUnder (rule : NumberedRule) (rest path : List String) (trie : Trie) :
    (addUnder rule rest trie).rulesAt path =
      if path = rest then addRule (trie.rulesAt path) rule else trie.rulesAt path := by
  induction rest generalizing trie path with
  | nil =>
    cases path with
    | nil => simp [addUnder, rules]
    | cons symbol path =>
      rw [addUnder, rulesAt_cons, rulesAt_cons, next?_node, if_neg (by simp)]
      rfl
  | cons first rest ih =>
    cases path with
    | nil => simp [addUnder, rules]
    | cons symbol path =>
      rw [addUnder, rulesAt_cons, rulesAt_cons, next?_node]
      by_cases hs : symbol = first
      · subst hs
        rw [Table.get?_update_self, Option.getD_some, ih]
        simp only [List.cons.injEq, true_and]
        rfl
      · rw [Table.get?_update_of_ne _ hs, if_neg (by simp [hs])]
        rfl

/-- The left-hand side of a rule is noted all along what is left of its right-hand side, and nowhere else. -/
theorem catsAt_addUnder (rule : NumberedRule) (rest path : List String) (trie : Trie) :
    (addUnder rule rest trie).catsAt path =
      if path <+: rest then addCat (trie.catsAt path) rule.rule.lhs else trie.catsAt path := by
  induction rest generalizing trie path with
  | nil =>
    cases path with
    | nil => simp [addUnder, cats]
    | cons symbol path =>
      rw [addUnder, catsAt_cons, catsAt_cons, next?_node, if_neg (by simp)]
      rfl
  | cons first rest ih =>
    cases path with
    | nil => simp [addUnder, cats]
    | cons symbol path =>
      rw [addUnder, catsAt_cons, catsAt_cons, next?_node]
      by_cases hs : symbol = first
      · subst hs
        rw [Table.get?_update_self, Option.getD_some, ih]
        simp only [List.prefix_cons_inj]
        rfl
      · rw [Table.get?_update_of_ne _ hs, if_neg (by simp [hs])]
        rfl

theorem rulesAt_empty (path : List String) : empty.rulesAt path = [] := by
  cases path <;> rfl

theorem catsAt_empty (path : List String) : empty.catsAt path = [] := by
  cases path <;> rfl

/-- Filing a rule among the first occurrences of some rules makes them those of one rule more. -/
theorem addRule_eraseDupsBy (l : List NumberedRule) (rule : NumberedRule) :
    addRule (l.eraseDupsBy fun r s => r.number == s.number) rule =
      (l ++ [rule]).eraseDupsBy fun r s => r.number == s.number := by
  have hany : ((l.eraseDupsBy fun r s => r.number == s.number).any fun r => r.number == rule.number) = true ↔
      ∃ r ∈ l, r.number = rule.number := by
    rw [← exists_key_eraseDupsBy NumberedRule.number]
    simp
  unfold addRule
  rw [eraseDupsBy_concat NumberedRule.number]
  simp only [hany]

theorem addCat_eraseDups (l : List String) (cat : String) : addCat l.eraseDups cat = (l ++ [cat]).eraseDups := by
  have hcontains : l.eraseDups.contains cat = true ↔ ∃ c ∈ l, c = cat := by simp
  unfold addCat
  simp only [hcontains]
  exact (eraseDupsBy_concat id l cat).symm

theorem ofRules_concat (l : List NumberedRule) (rule : NumberedRule) :
    ofRules (l ++ [rule]) = addUnder rule rule.rule.rhs (ofRules l) := by
  rw [ofRules, List.foldl_append]
  rfl

/-- **The rules at a sequence of symbols**, whichever rules were filed and however often. -/
theorem rulesAt_eq_eraseDupsBy (l : List NumberedRule) (path : List String) :
    (ofRules l).rulesAt path =
      (l.filter fun r => r.rule.rhs = path).eraseDupsBy fun r s => r.number == s.number := by
  induction l using List.reverseRecOn with
  | nil => exact rulesAt_empty path
  | append_singleton l rule ih =>
    rw [ofRules_concat, rulesAt_addUnder, ih, List.filter_append]
    by_cases hpath : path = rule.rule.rhs
    · rw [if_pos hpath, addRule_eraseDupsBy]
      simp [hpath]
    · rw [if_neg hpath]
      simp [Ne.symm hpath]

/-- **The left-hand sides at a sequence of symbols**, whichever rules were filed and however often. -/
theorem catsAt_eq_eraseDups (l : List NumberedRule) (path : List String) :
    (ofRules l).catsAt path = ((l.filter fun r => path <+: r.rule.rhs).map fun r => r.rule.lhs).eraseDups := by
  induction l using List.reverseRecOn with
  | nil => exact catsAt_empty path
  | append_singleton l rule ih =>
    rw [ofRules_concat, catsAt_addUnder, ih, List.filter_append, List.map_append]
    by_cases hpath : path <+: rule.rule.rhs
    · rw [if_pos hpath, addCat_eraseDups]
      simp [hpath]
    · rw [if_neg hpath]
      simp [hpath]

/-- Rules that are filed once each stand in the order of the list. -/
theorem rulesAt_ofRules {l : List NumberedRule} (hl : (l.map NumberedRule.number).Nodup)
    (path : List String) :
    (ofRules l).rulesAt path = l.filter fun r => r.rule.rhs = path := by
  rw [rulesAt_eq_eraseDupsBy]
  exact eraseDupsBy_eq_self (hl.sublist (List.filter_sublist.map _))

theorem mem_catsAt_ofRules (l : List NumberedRule) (path : List String) (c : String) :
    c ∈ (ofRules l).catsAt path ↔ ∃ r ∈ l, path <+: r.rule.rhs ∧ r.rule.lhs = c := by
  rw [catsAt_eq_eraseDups, List.mem_eraseDups]
  simp [and_assoc]

/-! ## Nodes -/

/-- **A node at `path` of the trie of a list.** What it holds, and what the nodes below it hold, is told by the
rules of the list that start with `path`. -/
structure Filed (l : List NumberedRule) (path : List String) (trie : Trie) : Prop where
  rules : ∀ p, trie.rulesAt p = l.filter fun r => r.rule.rhs = path ++ p
  cats : ∀ p c, c ∈ trie.catsAt p ↔ ∃ r ∈ l, path ++ p <+: r.rule.rhs ∧ r.rule.lhs = c

theorem filed_ofRules {l : List NumberedRule} (hl : (l.map NumberedRule.number).Nodup) :
    Filed l [] (ofRules l) :=
  ⟨rulesAt_ofRules hl, mem_catsAt_ofRules l⟩

theorem Filed.next {l : List NumberedRule} {path : List String} {trie next : Trie} {symbol : String}
    (h : Filed l path trie) (hn : trie.next? symbol = some next) : Filed l (path ++ [symbol]) next where
  rules p := by
    have hr := h.rules (symbol :: p)
    rw [rulesAt_cons, hn, Option.getD_some] at hr
    rw [hr, List.append_assoc, List.singleton_append]
  cats p c := by
    have hc := h.cats (symbol :: p) c
    rw [catsAt_cons, hn, Option.getD_some] at hc
    rw [hc, List.append_assoc, List.singleton_append]

/-- Where no node follows, no rule goes on. -/
theorem Filed.none_of_next {l : List NumberedRule} {path : List String} {trie : Trie} {symbol : String}
    (h : Filed l path trie) (hn : trie.next? symbol = none) {r : NumberedRule} (hr : r ∈ l) :
    ¬ path ++ [symbol] <+: r.rule.rhs := by
  intro hp
  have hc := (h.cats [symbol] r.rule.lhs).mpr ⟨r, hr, hp, rfl⟩
  rw [catsAt_cons, hn, Option.getD_none, catsAt_empty] at hc
  exact absurd hc (by simp)

/-! ## Walks -/

theorem walk?_cons (trie : Trie) (symbol : String) (path : List String) :
    trie.walk? (symbol :: path) = (trie.next? symbol).bind fun trie => trie.walk? path := rfl

/-- A rule that is filed makes way for walks along what is left of its right-hand side, and for no other ones. -/
theorem isSome_walk?_addUnder (rule : NumberedRule) (rest path : List String) (trie : Trie) :
    ((addUnder rule rest trie).walk? path).isSome ↔ (trie.walk? path).isSome ∨ path <+: rest := by
  induction rest generalizing trie path with
  | nil =>
    cases path with
    | nil => simp [walk?]
    | cons symbol path =>
      rw [addUnder, walk?_cons, walk?_cons, next?_node]
      simp only [List.prefix_nil, reduceCtorEq, or_false]
      rfl
  | cons first rest ih =>
    cases path with
    | nil => simp [walk?]
    | cons symbol path =>
      rw [addUnder, walk?_cons, walk?_cons, next?_node]
      by_cases hs : symbol = first
      case neg =>
        rw [Table.get?_update_of_ne _ hs]
        simp only [List.cons_prefix_cons, hs, false_and, or_false]
        rfl
      case pos =>
        subst hs
        rw [Table.get?_update_self, Option.bind_some, ih, List.prefix_cons_inj]
        show (((trie.next? symbol).getD empty).walk? path).isSome ∨ path <+: rest ↔ _
        -- the node for a new symbol starts out empty, so that only the walk of no symbols ends there
        cases trie.next? symbol with
        | some next => rfl
        | none =>
          cases path with
          | nil => simp
          | cons symbol path => rfl

theorem isSome_walk?_ofRules (l : List NumberedRule) (path : List String) :
    ((ofRules l).walk? path).isSome ↔ path = [] ∨ ∃ r ∈ l, path <+: r.rule.rhs := by
  induction l using List.reverseRecOn with
  | nil => cases path <;> simp [ofRules, walk?, next?, empty, children, Table.get?, Table.find]
  | append_singleton l rule ih =>
    rw [ofRules_concat, isSome_walk?_addUnder, ih, or_assoc]
    simp only [List.mem_append, List.mem_singleton, or_and_right, exists_or, exists_eq_left]

/-- **Where walks lead.** Let rules be filed in any order, each of them any number of times. A walk of some symbols
ends at a node if there are no symbols, or if they are the first ones of the right-hand side of a rule, and in no other
case. The node has the rules with just these symbols, each of them once and in the order in which they were filed
first, and the left-hand sides of all rules that go on from there. -/
theorem walk?_ofRules (l : List NumberedRule) (path : List String) :
    (((ofRules l).walk? path).isSome ↔ path = [] ∨ ∃ r ∈ l, path <+: r.rule.rhs) ∧
      ∀ node, (ofRules l).walk? path = some node →
        node.rules = (l.filter fun r => r.rule.rhs = path).eraseDupsBy (fun r s => r.number == s.number) ∧
        node.cats = ((l.filter fun r => path <+: r.rule.rhs).map fun r => r.rule.lhs).eraseDups := by
  refine ⟨isSome_walk?_ofRules l path, fun node hnode => ⟨?_, ?_⟩⟩
  · rw [← rulesAt_eq_eraseDupsBy, rulesAt, hnode]
    rfl
  · rw [← catsAt_eq_eraseDups, catsAt, hnode]
    rfl

/-- A rule for two words, and one that goes on from its first word; the first one is filed again in the end. -/
def walkedRules : List NumberedRule := [
  { number := 3, rule := { lhs := "$A", rhs := ["a", "$B"], sem := (IdentityFn.mk).toFn } },
  { number := 1, rule := { lhs := "$C", rhs := ["a", "b"], sem := (IdentityFn.mk).toFn } },
  { number := 3, rule := { lhs := "$A", rhs := ["a", "$B"], sem := (IdentityFn.mk).toFn } }]

theorem walk?_ofRules_sample : ∃ middle last,
    (ofRules walkedRules).walk? ["a"] = some middle ∧ middle.rules.map NumberedRule.number = [] ∧
      middle.cats = ["$A", "$C"] ∧
      (ofRules walkedRules).walk? ["a", "$B"] = some last ∧ last.rules.map NumberedRule.number = [3] ∧
      last.cats = ["$A"] := by
  have hgo : ∀ path, (∃ r ∈ walkedRules, path <+: r.rule.rhs) → ∃ node, (ofRules walkedRules).walk? path = some node :=
    fun path h => Option.isSome_iff_exists.mp ((walk?_ofRules walkedRules path).1.mpr (.inr h))
  obtain ⟨middle, hmiddle⟩ := hgo ["a"] (by decide)
  obtain ⟨last, hlast⟩ := hgo ["a", "$B"] (by decide)
  obtain ⟨hrules, hcats⟩ := (walk?_ofRules walkedRules ["a"]).2 middle hmiddle
  obtain ⟨hrules', hcats'⟩ := (walk?_ofRules walkedRules ["a", "$B"]).2 last hlast
  refine ⟨middle, last, hmiddle, ?_, ?_, hlast, ?_, ?_⟩
  · rw [hrules]
    decide
  · rw [hcats]
    decide
  · rw [hrules']
    decide
  · rw [hcats']
    decide

/-- A walk of no symbols ends at the root even where no rule was filed, so that no right-hand side starts with them. -/
theorem walk?_ofRules_not : ¬∀ (l : List NumberedRule) (path : List String),
    ((ofRules l).walk? path).isSome ↔ ∃ r ∈ l, path <+: r.rule.rhs := by
  intro h
  obtain ⟨r, hr, -⟩ := (h [] []).mp rfl
  cases hr

end Trie

theorem numbers_numberRules (rules : List Rule) :
    ((numberRules rules).map NumberedRule.number).Nodup := by
  have h : (numberRules rules).map NumberedRule.number = List.range rules.length := by
    simp only [numberRules, List.map_map]
    rw [List.range_eq_range', ← List.zipIdx_map_snd 0 rules]
    rfl
  rw [h]
  exact List.nodup_range

theorem map_rule_numberRules (rules : List Rule) :
    (numberRules rules).map NumberedRule.rule = rules := by
  simp only [numberRules, List.map_map]
  exact List.zipIdx_map_fst 0 rules

end Parlance
