import Parlance.Text.Blank

/-!
# `Sexp.Token` — the lexemes of S-expression texts

Parentheses, and leaves that are written bare or in double quotes. Blanks and comments, which run from
a `#` to the end of the line, separate lexemes; a `#` inside a bare leaf belongs to it.

Each lexeme comes with the text from its first character on, which is what error messages quote. A
quote that is never closed is a lexeme of its own and the last one.
-/

namespace Parlance.Sexp

open Text

/-- What a lexeme is. -/
inductive Token.Kind where
  | opening
  | closing
  | leaf (text : String)
  | unterminated
  deriving DecidableEq, Repr

/-- A lexeme with the text that starts at it. -/
structure Token where
  kind : Token.Kind
  source : List Char
  deriving DecidableEq, Repr

namespace Token

/-- The character that a backslash and `c` stand for. -/
def unescape (c : Char) : Char :=
  if c == 'n' then '\n' else if c == 't' then '\t' else c

/-- Reads up to the closing quote: the characters meant, and the text after the quote. A backslash
must not stand at the end of a line. -/
def quoted : List Char → Option (List Char × List Char)
  | [] => none
  | c :: rest =>
    if c == '"' then some ([], rest)
    else if c == '\\' then
      match rest with
      | [] => none
      | e :: rest =>
        if e == '\n' then none else (quoted rest).map fun (body, after) => (unescape e :: body, after)
    else (quoted rest).map fun (body, after) => (c :: body, after)

/-- The characters of a bare leaf. -/
def isBare (c : Char) : Bool := !(isBlank c || c == '(' || c == ')' || c == '"')

theorem length_dropWhile_le {α : Type} (p : α → Bool) (l : List α) :
    (l.dropWhile p).length ≤ l.length := by
  induction l with
  | nil => simp
  | cons a l ih =>
    rw [List.dropWhile_cons]
    split
    · simp; omega
    · simp

theorem length_of_quoted {text body after : List Char} (h : quoted text = some (body, after)) :
    after.length < text.length := by
  fun_induction quoted text generalizing body after with
  | case1 => simp at h
  | case2 => simp_all
  | case3 => simp at h
  | case4 => simp at h
  | case5 c hc hb e rest he ih =>
    simp only [Option.map_eq_some_iff, Prod.mk.injEq, Prod.exists] at h
    obtain ⟨b, a, hq, -, rfl⟩ := h
    have := ih hq
    simp only [List.length_cons]; omega
  | case6 c rest hc hb ih =>
    simp only [Option.map_eq_some_iff, Prod.mk.injEq, Prod.exists] at h
    obtain ⟨b, a, hq, -, rfl⟩ := h
    have := ih hq
    simp only [List.length_cons]; omega

/-- The lexemes of a text. -/
def all (source : List Char) : List Token :=
  match source with
  | [] => []
  | c :: rest =>
    if isBlank c then all rest
    else if c == '#' then all (rest.dropWhile (· != '\n'))
    else if c == '(' then ⟨.opening, source⟩ :: all rest
    else if c == ')' then ⟨.closing, source⟩ :: all rest
    else if c == '"' then
      match _h : quoted rest with
      | some (body, after) => ⟨.leaf (String.ofList body), source⟩ :: all after
      | none => [⟨.unterminated, source⟩]
    else ⟨.leaf (String.ofList (c :: rest.takeWhile isBare)), source⟩ :: all (rest.dropWhile isBare)
termination_by source.length
decreasing_by
  all_goals simp only [List.length_cons]
  · omega
  · have := length_dropWhile_le (· != '\n') rest; omega
  · omega
  · omega
  · have := length_of_quoted _h; omega
  · have := length_dropWhile_le isBare rest; omega

end Token

end Parlance.Sexp
