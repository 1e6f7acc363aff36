import Parlance.Sexp.Printer
import Parlance.Sexp.Reader

/-!
# `Proofs.SexpRoundTrip` — the text of an S-expression reads back

A printed expression is read in the middle of a text: in front of it stand open lists and members
already read, behind it stands any text that does not go on with the last leaf. Everything here is
stated for such an arbitrary remaining text, which is what the induction on the tree needs: inside a
list the remaining text is the rest of that list.

## Contents
- **Lexemes.** What `Token.all` makes of a blank, a parenthesis and a closed quote.
- **Quoted leaves.** Escaped characters are the characters that `quoted` reads (`quoted_flatMap_escape`).
- **Bare leaves.** A text that needs no quotes is not empty, does not start a comment, and ends where
  its bare characters do (`all_bare`).
- **Trees.** `assemble_chars` and `assemble_charsList`: a printed tree becomes one more member.
- **Texts.** `read_text` and `readAll_intercalate_text`, and both together in `text_reads_back`.
-/

namespace Parlance.Sexp

open Text

/-! ## Lexemes -/

theorem all_space (rest : List Char) : Token.all (' ' :: rest) = Token.all rest := by
  have blank : isBlank ' ' = true := by decide
  rw [Token.all]
  simp [blank]

theorem all_opening (rest : List Char) :
    Token.all ('(' :: rest) = ⟨.opening, '(' :: rest⟩ :: Token.all rest := by
  have blank : isBlank '(' = false := by decide
  rw [Token.all]
  simp [blank]

theorem all_closing (rest : List Char) :
    Token.all (')' :: rest) = ⟨.closing, ')' :: rest⟩ :: Token.all rest := by
  have blank : isBlank ')' = false := by decide
  rw [Token.all]
  simp [blank]

/-- A quote that is closed is a leaf, whatever stands behind the closing quote. -/
theorem all_quote {rest body after : List Char} (h : Token.quoted rest = some (body, after)) :
    Token.all ('"' :: rest) = ⟨.leaf (String.ofList body), '"' :: rest⟩ :: Token.all after := by
  have blank : isBlank '"' = false := by decide
  rw [Token.all]
  simp only [blank, Bool.false_eq_true, if_false, if_true, Char.reduceBEq]
  split
  case h_1 body' after' h' =>
    rw [h] at h'
    cases h'
    rfl
  case h_2 h' => rw [h] at h'; cases h'

/-! ## Quoted leaves -/

/-- An escaped character is read as the character. -/
theorem quoted_escape (c : Char) (rest : List Char) :
    Token.quoted (escape c ++ rest) =
      (Token.quoted rest).map fun (body, after) => (c :: body, after) := by
  by_cases hq : c = '"'
  · subst hq; rfl
  by_cases hb : c = '\\'
  · subst hb; rfl
  by_cases hn : c = '\n'
  · subst hn; rfl
  by_cases ht : c = '\t'
  · subst ht; rfl
  · have plain : escape c = [c] := by simp [escape, hq, hb, hn, ht]
    rw [plain, List.singleton_append, Token.quoted.eq_def]
    simp [hq, hb]

/-- The escaped characters of a text, up to the closing quote, are read as the text. -/
theorem quoted_flatMap_escape (body after : List Char) :
    Token.quoted (body.flatMap escape ++ '"' :: after) = some (body, after) := by
  induction body with
  | nil => rw [List.flatMap_nil, List.nil_append, Token.quoted.eq_def]; rfl
  | cons c body ih => rw [List.flatMap_cons, List.append_assoc, quoted_escape, ih]; rfl

/-! ## Bare leaves -/

/-- What may stand behind an expression: nothing, or a character that cannot go on a bare leaf. -/
def Ends (rest : List Char) : Prop := ∀ c ∈ rest.head?, Token.isBare c = false

theorem ends_nil : Ends [] := by simp [Ends]

theorem ends_space (rest : List Char) : Ends (' ' :: rest) := by
  intro c hc
  cases Option.mem_some.mp hc
  decide

theorem ends_close (rest : List Char) : Ends (')' :: rest) := by
  intro c hc
  cases Option.mem_some.mp hc
  decide

theorem takeWhile_isBare {text rest : List Char} (bare : ∀ c ∈ text, Token.isBare c = true)
    (ends : Ends rest) : (text ++ rest).takeWhile Token.isBare = text := by
  rw [List.takeWhile_append_of_pos bare]
  cases rest with
  | nil => simp
  | cons c rest => simp [ends c rfl]

theorem dropWhile_isBare {text rest : List Char} (bare : ∀ c ∈ text, Token.isBare c = true)
    (ends : Ends rest) : (text ++ rest).dropWhile Token.isBare = rest := by
  rw [List.dropWhile_append_of_pos bare]
  cases rest with
  | nil => rfl
  | cons c rest => simp [ends c rfl]

/-- A text that is written bare has a first character, which is no `#`, and only bare characters. -/
theorem bare_of_needsQuotes {text : List Char} (h : needsQuotes text = false) :
    ∃ c rest, text = c :: rest ∧ c ≠ '#' ∧ ∀ c ∈ text, Token.isBare c = true := by
  cases text with
  | nil => simp [needsQuotes] at h
  | cons c rest =>
    simp only [needsQuotes, Bool.or_eq_false_iff, List.any_eq_false] at h
    obtain ⟨⟨-, hash⟩, bare⟩ := h
    refine ⟨c, rest, rfl, by simpa using hash, fun d hd => ?_⟩
    have := bare d hd
    simpa [Token.isBare] using this

/-- The characters of a bare leaf, up to where they end, are one lexeme. -/
theorem all_bare {text rest : List Char} (h : needsQuotes text = false) (ends : Ends rest) :
    Token.all (text ++ rest) = ⟨.leaf (String.ofList text), text ++ rest⟩ :: Token.all rest := by
  obtain ⟨c, tail, rfl, hash, bare⟩ := bare_of_needsQuotes h
  have first : Token.isBare c = true := bare c (List.mem_cons_self ..)
  simp only [Token.isBare, Bool.not_eq_true', Bool.or_eq_false_iff] at first
  obtain ⟨⟨⟨blank, opening⟩, closing⟩, quote⟩ := first
  have bare' : ∀ c ∈ tail, Token.isBare c = true := fun d hd => bare d (List.mem_cons_of_mem _ hd)
  rw [List.cons_append, Token.all]
  simp [blank, hash, opening, closing, quote, takeWhile_isBare bare' ends, dropWhile_isBare bare' ends]

/-! ## Trees -/

/-- A leaf as it is written is one lexeme. -/
theorem all_leafChars (text : List Char) {rest : List Char} (ends : Ends rest) :
    Token.all (leafChars text ++ rest) =
      ⟨.leaf (String.ofList text), leafChars text ++ rest⟩ :: Token.all rest := by
  unfold leafChars
  split
  case isTrue =>
    simp only [List.cons_append, List.append_assoc, List.nil_append]
    exact all_quote (quoted_flatMap_escape text rest)
  case isFalse h => exact all_bare (by simpa using h) ends

mutual
/-- Reading the text of a tree adds the tree to the members read so far. -/
theorem assemble_chars : ∀ (tree : Sexp) {rest : List Char} (pending : List Frame)
    (done : List Sexp), Ends rest →
    assemble (Token.all (tree.chars ++ rest)) pending done =
      assemble (Token.all rest) pending (tree :: done)
  | .leaf text, rest, pending, done, ends => by
    rw [chars, all_leafChars _ ends, assemble, String.ofList_toList]
  | .list items, rest, pending, done, ends => by
    -- the members are read in front of the parenthesis that closes the list
    rw [chars, List.cons_append, List.cons_append, List.append_assoc, all_opening, assemble,
      List.singleton_append, assemble_charsList items _ _ (ends_close rest), all_closing, assemble,
      List.append_nil, List.reverse_reverse]
/-- Reading the texts of trees, one space apart, adds the trees to the members read so far. -/
theorem assemble_charsList : ∀ (items : List Sexp) {rest : List Char} (pending : List Frame)
    (done : List Sexp), Ends rest →
    assemble (Token.all (charsList items ++ rest)) pending done =
      assemble (Token.all rest) pending (items.reverse ++ done)
  | [], rest, pending, done, _ => rfl
  | [item], rest, pending, done, ends => assemble_chars item pending done ends
  | item :: next :: items, rest, pending, done, ends => by
    rw [charsList.eq_3 _ _ (by simp), List.append_assoc, List.cons_append,
      assemble_chars item _ _ (ends_space _), all_space, assemble_charsList (next :: items) _ _ ends,
      List.reverse_cons (a := item), List.append_assoc, List.singleton_append]
end

/-! ## Texts -/

/-- The characters of texts joined by a space. -/
theorem toList_intercalate_text (trees : List Sexp) :
    (" ".intercalate (trees.map text)).toList = charsList trees := by
  induction trees with
  | nil => rfl
  | cons item rest ih =>
    cases rest with
    | nil => simp [charsList, text]
    | cons next rest =>
      rw [charsList.eq_3 _ _ (by simp), ← ih]
      simp [text, String.intercalate_cons_cons]

/-- The texts of trees joined by a space read back as the trees. -/
theorem readAll_intercalate_text (trees : List Sexp) :
    readAll (" ".intercalate (trees.map text)) = .ok trees := by
  have h := assemble_charsList trees [] [] ends_nil
  rw [List.append_nil, List.append_nil] at h
  rw [readAll, toList_intercalate_text, h]
  simp [Token.all, assemble]

/-- The text of a tree reads back as the tree. -/
theorem read_text (tree : Sexp) : read tree.text = .ok tree := by
  have h : readAll tree.text = .ok [tree] := by
    simpa using readAll_intercalate_text [tree]
  rw [read, h]
  rfl

/-- **What is printed reads back**: every tree from its own text, and every list of trees from their
texts joined by a space, whatever characters the leaves are made of. -/
theorem text_reads_back :
    (∀ tree : Sexp, read tree.text = .ok tree) ∧
      ∀ trees : List Sexp, readAll (" ".intercalate (trees.map text)) = .ok trees :=
  ⟨read_text, readAll_intercalate_text⟩

end Parlance.Sexp
