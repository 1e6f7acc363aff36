import Parlance.Proofs.Literals
import Parlance.Proofs.Trie

/-!
# `Proofs.Spelling` — two ways to look up the rules that rewrite to tokens

A trie compares the right-hand side of a rule with tokens one by one. An index of siblings compares texts: that of the
right-hand side and that of the span, both with blanks between their parts. The trie so finds the rules that spell a
span. The index finds these, and besides them the rules whose symbols fall apart in other places. It takes a symbol
with a blank in it, which can be written in quotes, for two tokens, and a token with a blank in it for two symbols.

## Contents
- **Spelling.** `spelledBy`, and `Trie.literalsAt`, where a walk along tokens ends.
- **Phrases.** `SiblingIndex.literalRules_eq` and `phrasedBy_eq_spelledBy_iff`.
- **The result.** `SiblingIndex.literalRules_spell`, and a rule for which the two differ.
-/

namespace Parlance

/-! ## Spelling -/

/-- The tokens of a span. -/
def LanguageInfo.tokensOf (info : LanguageInfo) (first last : Nat) : List String := (info.tokens.take last).drop first

/-- **The rules that rewrite to just the given tokens**, in the order of a list. -/
def spelledBy (rules : List Rule) (tokens : List String) : List Rule :=
  rules.filter fun r => r.isLexical ∧ r.rhs = tokens

/-- The rules that rewrite to tokens, and whose phrase is the given one. -/
def phrasedBy (rules : List Rule) (phrase : String) : List Rule :=
  rules.filter fun r => r.isLexical ∧ " ".intercalate r.rhs = phrase

namespace Trie

/-- The rules that rewrite to tokens, among those where a walk along tokens ends. -/
def literalsAt (trie : Trie) (tokens : List String) : List Rule :=
  ((trie.rulesAt tokens).map NumberedRule.rule).filter Rule.isLexical

/-- **A walk along tokens** ends at the rules that these spell. -/
theorem literalsAt_trieOf (rules : List Rule) (tokens : List String) :
    (trieOf rules).literalsAt tokens = spelledBy rules tokens := by
  have hnodup : (((numberRules rules).filter fun r => !r.rule.isCatUnary).map NumberedRule.number).Nodup :=
    (numbers_numberRules rules).sublist (List.filter_sublist.map _)
  unfold literalsAt trieOf spelledBy
  rw [rulesAt_ofRules hnodup]
  conv_rhs => rw [← map_rule_numberRules rules]
  simp only [List.filter_map, List.filter_filter]
  congr 1
  refine List.filter_congr fun r _ => ?_
  -- no rule that rewrites to tokens is left out of the trie
  cases hlex : r.rule.isLexical with
  | true => simp [hlex, SiblingIndex.isCatUnary_of_isLexical hlex]
  | false => simp [hlex]

end Trie

/-! ## Phrases -/

namespace SiblingIndex

variable {rules : List Rule} {index : SiblingIndex} {info : LanguageInfo} {first last : Nat}

theorem literalRules_eq (h : ofRules rules = .ok index) (phrase : String) :
    index.literalRules phrase = phrasedBy rules phrase := (indexes_ofRules h).2.literal phrase

/-- An index of rules with two symbols each can be made. -/
theorem exists_ofRules (hlen : ∀ r ∈ rules, r.rhs.length ≤ 2) : ∃ index, ofRules rules = .ok index := by
  refine ⟨rules.foldl add empty, ?_⟩
  have hnone : (rules.find? fun rule => rule.rhs.length > 2) = none := by
    rw [List.find?_eq_none]
    intro r hr
    have hr' := hlen r hr
    simpa using hr'
  unfold ofRules
  rw [hnone]

/-- What tokens spell has their phrase. -/
theorem spelledBy_sublist (rules : List Rule) (info : LanguageInfo) (first last : Nat) :
    (spelledBy rules (info.tokensOf first last)).Sublist (phrasedBy rules (info.phrase first last)) := by
  refine List.monotone_filter_right rules fun r => ?_
  simp only [decide_eq_true_eq]
  rintro ⟨hlex, hrhs⟩
  exact ⟨hlex, congrArg _ hrhs⟩

/-- **The index finds just the rules that spell a span** if no other rule has its phrase. -/
theorem phrasedBy_eq_spelledBy_iff :
    phrasedBy rules (info.phrase first last) = spelledBy rules (info.tokensOf first last) ↔
      ∀ r ∈ rules, r.isLexical → " ".intercalate r.rhs = info.phrase first last → r.rhs = info.tokensOf first last := by
  constructor
  · intro h r hr hlex hphrase
    have hmem : r ∈ phrasedBy rules (info.phrase first last) := List.mem_filter.mpr ⟨hr, by simp [hlex, hphrase]⟩
    rw [h] at hmem
    have hspelled := (List.mem_filter.mp hmem).2
    simp only [decide_eq_true_eq] at hspelled
    exact hspelled.2
  · intro h
    refine List.filter_congr fun r hr => ?_
    simp only [decide_eq_decide]
    refine and_congr_right fun hlex => ⟨h r hr hlex, fun hrhs => congrArg _ hrhs⟩

/-- Where no symbol and no token has a blank in it, phrases tell right-hand sides apart. -/
theorem rhs_eq_of_phrase (hspan : first < last) (hlast : last ≤ info.length) {symbols : List String}
    (hsymbols : ∀ s ∈ symbols, ' ' ∉ s.toList) (htokens : ∀ s ∈ info.tokensOf first last, ' ' ∉ s.toList)
    (hempty : info.tokensOf first last = [""] → symbols ≠ [])
    (h : " ".intercalate symbols = info.phrase first last) : symbols = info.tokensOf first last := by
  have hne : info.tokensOf first last ≠ [] := by
    unfold LanguageInfo.tokensOf
    unfold LanguageInfo.length at hlast
    rw [Ne, List.drop_eq_nil_iff, List.length_take]
    omega
  exact (intercalate_inj hsymbols htokens hne hempty).mp h

/-! ## The result -/

/-- **Looking rules up by phrases and by tokens.** For rules with two symbols at most there is an index. For each span
it finds the rules that rewrite to tokens and have the phrase of the span, and a walk along the tokens of the span ends
at those among them that spell it. The two are the same just if no rule has the phrase without spelling the span; and
so they are if no symbol of these rules and no token of the span has a blank in it, and no empty token stands against an
empty right-hand side. -/
theorem literalRules_spell (hlen : ∀ r ∈ rules, r.rhs.length ≤ 2) :
    ∃ index, ofRules rules = .ok index ∧
      ∀ (info : LanguageInfo) (first last : Nat), first < last → last ≤ info.length →
        index.literalRules (info.phrase first last) = phrasedBy rules (info.phrase first last) ∧
        (trieOf rules).literalsAt (info.tokensOf first last) = spelledBy rules (info.tokensOf first last) ∧
        ((trieOf rules).literalsAt (info.tokensOf first last)).Sublist (index.literalRules (info.phrase first last)) ∧
        (index.literalRules (info.phrase first last) = (trieOf rules).literalsAt (info.tokensOf first last) ↔
          ∀ r ∈ rules, r.isLexical → " ".intercalate r.rhs = info.phrase first last →
            r.rhs = info.tokensOf first last) ∧
        ((∀ r ∈ rules, r.isLexical → ∀ s ∈ r.rhs, ' ' ∉ s.toList) →
          (∀ s ∈ info.tokensOf first last, ' ' ∉ s.toList) →
          (info.tokensOf first last = [""] → ∀ r ∈ rules, r.rhs ≠ []) →
          index.literalRules (info.phrase first last) = (trieOf rules).literalsAt (info.tokensOf first last)) := by
  obtain ⟨index, hindex⟩ := exists_ofRules hlen
  refine ⟨index, hindex, fun info first last hspan hlast => ?_⟩
  rw [literalRules_eq hindex, Trie.literalsAt_trieOf]
  refine ⟨rfl, rfl, spelledBy_sublist rules info first last, phrasedBy_eq_spelledBy_iff, ?_⟩
  intro hsymbols htokens hempty
  rw [phrasedBy_eq_spelledBy_iff]
  intro r hr hlex hphrase
  exact rhs_eq_of_phrase hspan hlast (hsymbols r hr hlex) htokens (fun hone => hempty hone r hr) hphrase

/-- A greeting of two tokens, and one after a category. -/
def greetings : List Rule :=
  [{ lhs := rootCat, rhs := ["hello", "world"], sem := (IdentityFn.mk).toFn },
    { lhs := rootCat, rhs := ["$Greeting", "world"], sem := (IdentityFn.mk).toFn }]

/-- Of these the first one is found for its two tokens. -/
theorem literalRules_spell_sample :
    (∀ r ∈ greetings, r.rhs.length ≤ 2) ∧
      ∃ index, ofRules greetings = .ok index ∧
        index.literalRules "hello world" = (trieOf greetings).literalsAt ["hello", "world"] ∧
        (index.literalRules "hello world").map Rule.rhs = [["hello", "world"]] := by
  have hlen : ∀ r ∈ greetings, r.rhs.length ≤ 2 := by decide
  have hsymbols : ∀ r ∈ greetings, r.isLexical → ∀ s ∈ r.rhs, ' ' ∉ s.toList := by decide +kernel
  have hrhs : ∀ r ∈ greetings, r.rhs ≠ [] := by decide
  obtain ⟨index, hindex, hspell⟩ := literalRules_spell hlen
  obtain ⟨hphrased, -, -, -, hsame⟩ := hspell { tokens := ["hello", "world"] } 0 2 (by decide) (by decide)
  have htexts : (phrasedBy greetings "hello world").map Rule.rhs = [["hello", "world"]] := by decide +kernel
  refine ⟨hlen, index, hindex, hsame hsymbols (by decide +kernel) fun _ => hrhs, ?_⟩
  rw [show index.literalRules "hello world" = phrasedBy greetings "hello world" from hphrased, htexts]

/-- A rule with one symbol, which has a blank in it. -/
def quoted : Rule := { lhs := rootCat, rhs := ["new york"], sem := (IdentityFn.mk).toFn }

/-- **A symbol with a blank** is taken for two tokens by the index, and spells neither of them. -/
theorem literalRules_quoted_not :
    ¬ ∀ (rules : List Rule) (index : SiblingIndex) (info : LanguageInfo) (first last : Nat),
      (∀ r ∈ rules, r.rhs.length ≤ 2) → ofRules rules = .ok index → first < last → last ≤ info.length →
      index.literalRules (info.phrase first last) = spelledBy rules (info.tokensOf first last) := by
  intro h
  have hlen : ∀ r ∈ [quoted], r.rhs.length ≤ 2 := by decide
  obtain ⟨index, hindex⟩ := exists_ofRules hlen
  have heq := h [quoted] index { tokens := ["new", "york"] } 0 2 hlen hindex (by decide) (by decide)
  rw [literalRules_eq hindex] at heq
  have hphrased : (phrasedBy [quoted] (LanguageInfo.phrase { tokens := ["new", "york"] } 0 2)).length = 1 := by
    decide +kernel
  have hspelled : (spelledBy [quoted] (LanguageInfo.tokensOf { tokens := ["new", "york"] } 0 2)).length = 0 := by
    decide +kernel
  rw [heq, hspelled] at hphrased
  cases hphrased

end SiblingIndex

end Parlance
