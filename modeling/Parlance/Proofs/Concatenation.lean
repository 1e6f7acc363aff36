import Mathlib.Data.List.Permutation
import Parlance.Proofs.SexpRoundTrip

/-!
# `Proofs.Concatenation` — texts read one after the other

Reading never looks back. A text whose trees are all complete leaves nothing open, so that what stands on the next
line is read as if nothing stood before it: it has the same trees, or it fails with the same error, quotation included.

It takes a line feed between the two. A comment at the end of the first text goes on up to there, and a bare leaf goes
on up to a blank. A quote or a parenthesis goes on until it is closed, but where one is left open the first text cannot
be read by itself.

## Contents
- **Lexemes.** `Token.followedBy`, and `Token.all_append_newline`: how far a lexeme reaches does not depend on what
  stands on the lines below.
- **Trees.** `assemble_append`, and `assemble_onBase`, for what is read where trees have been read before.
- **Texts.** `readAll_append_newline`.
-/

namespace Parlance.Sexp

open Text

/-! ## Lexemes -/

theorem dropWhile_append_stop {p : Char → Bool} {c : Char} (hc : p c = false) (text more : List Char) :
    (text ++ c :: more).dropWhile p = text.dropWhile p ++ c :: more := by
  have hstop : (c :: more).dropWhile p = c :: more := by rw [List.dropWhile_cons, hc, if_neg Bool.false_ne_true]
  rw [List.dropWhile_append, hstop]
  split
  case isTrue h => rw [List.isEmpty_iff.mp h, List.nil_append]
  case isFalse => rfl

theorem takeWhile_append_stop {p : Char → Bool} {c : Char} (hc : p c = false) (text more : List Char) :
    (text ++ c :: more).takeWhile p = text.takeWhile p := by
  have hstop : (c :: more).takeWhile p = [] := by rw [List.takeWhile_cons, hc, if_neg Bool.false_ne_true]
  rw [List.takeWhile_append, hstop, List.append_nil]
  split
  case isTrue h => exact ((List.takeWhile_prefix p).eq_of_length h).symm
  case isFalse => rfl

namespace Token

/-- A closing quote is found whatever stands behind it. -/
theorem quoted_append {text body after : List Char} (h : quoted text = some (body, after)) (more : List Char) :
    quoted (text ++ more) = some (body, after ++ more) := by
  fun_induction quoted text generalizing body after with
  | case1 => cases h
  | case2 c rest hquote =>
    obtain ⟨rfl, rfl⟩ := Prod.mk.inj (Option.some.inj h)
    rw [List.cons_append, quoted.eq_def]
    dsimp only
    rw [if_pos hquote]
  | case3 => cases h
  | case4 => cases h
  | case5 c hquote hescape e rest hnewline ih =>
    obtain ⟨⟨body, after⟩, hrest, he⟩ := Option.map_eq_some_iff.mp h
    obtain ⟨rfl, rfl⟩ := Prod.mk.inj he
    rw [List.cons_append, List.cons_append, quoted, if_neg hquote, if_pos hescape, if_neg hnewline, ih hrest]
    rfl
  | case6 c rest hquote hescape ih =>
    obtain ⟨⟨body, after⟩, hrest, he⟩ := Option.map_eq_some_iff.mp h
    obtain ⟨rfl, rfl⟩ := Prod.mk.inj he
    rw [List.cons_append, quoted.eq_def]
    dsimp only
    rw [if_neg hquote, if_neg hescape, ih hrest]
    rfl

/-- The lexeme in a text that goes on. -/
def followedBy (more : List Char) (token : Token) : Token := { token with source := token.source ++ more }

theorem all_blank {c : Char} (hc : isBlank c = true) (rest : List Char) : all (c :: rest) = all rest := by
  rw [all, if_pos hc]

/-- **The lines below make no difference** to the lexemes of a text in which each quote is closed. -/
theorem all_append_newline {source : List Char} (h : ∀ token ∈ all source, token.kind ≠ .unterminated)
    (more : List Char) :
    all (source ++ '\n' :: more) = (all source).map (followedBy ('\n' :: more)) ++ all more := by
  have hnewline : isBlank '\n' = true := by decide
  fun_induction all source with
  | case1 => exact all_blank hnewline more
  | case2 c rest hblank ih =>
    rw [List.cons_append, all_blank hblank]
    exact ih h
  | case3 c rest hblank hhash ih =>
    -- a comment that ends with the text ends at the line feed behind it
    rw [List.cons_append, all, if_neg hblank, if_pos hhash, dropWhile_append_stop (by decide)]
    exact ih h
  | case4 c rest hblank hhash hopen ih =>
    rw [List.cons_append, all, if_neg hblank, if_neg hhash, if_pos hopen,
      ih fun token ht => h token (List.mem_cons_of_mem _ ht)]
    rfl
  | case5 c rest hblank hhash hopen hclose ih =>
    rw [List.cons_append, all, if_neg hblank, if_neg hhash, if_neg hopen, if_pos hclose,
      ih fun token ht => h token (List.mem_cons_of_mem _ ht)]
    rfl
  | case6 c rest hblank hhash hopen hclose hquote body after hbody ih =>
    obtain rfl : c = '"' := by simpa using hquote
    rw [List.cons_append, all_quote (quoted_append hbody _), ih fun token ht => h token (List.mem_cons_of_mem _ ht)]
    rfl
  | case7 c rest hblank hhash hopen hclose hquote hbody => exact absurd rfl (h _ List.mem_cons_self)
  | case8 c rest hblank hhash hopen hclose hquote ih =>
    have hstop : isBare '\n' = false := by decide
    rw [List.cons_append, all, if_neg hblank, if_neg hhash, if_neg hopen, if_neg hclose, if_neg hquote,
      takeWhile_append_stop hstop, dropWhile_append_stop hstop, ih fun token ht => h token (List.mem_cons_of_mem _ ht)]
    rfl

end Token

/-! ## Trees -/

/-- The open list in a text that goes on. -/
def Frame.followedBy (more : List Char) (frame : Frame) : Frame := { frame with source := frame.source ++ more }

/-- What has trees has no quote that is left open. -/
theorem closed_of_assemble {tokens : List Token} {pending : List Frame} {done trees : List Sexp}
    (h : assemble tokens pending done = .ok trees) : ∀ token ∈ tokens, token.kind ≠ .unterminated := by
  fun_induction assemble tokens pending done with
  | case1 => exact List.forall_mem_nil _
  | case2 => cases h
  | case3 source rest pending done ih => exact List.forall_mem_cons.mpr ⟨by simp, ih h⟩
  | case4 => cases h
  | case5 source rest frame pending done ih => exact List.forall_mem_cons.mpr ⟨by simp, ih h⟩
  | case6 text source rest pending done ih => exact List.forall_mem_cons.mpr ⟨by simp, ih h⟩
  | case7 => cases h

/-- **Lexemes that make trees**, in a text that goes on: the same trees have been read before the rest. -/
theorem assemble_append {tokens : List Token} {pending : List Frame} {done trees : List Sexp}
    (h : assemble tokens pending done = .ok trees) (more : List Char) (rest : List Token) :
    assemble (tokens.map (Token.followedBy more) ++ rest) (pending.map (Frame.followedBy more)) done =
      assemble rest [] trees.reverse := by
  fun_induction assemble tokens pending done with
  | case1 done =>
    rw [← Except.ok.inj h, List.reverse_reverse]
    rfl
  | case2 => cases h
  | case3 source tokens pending done ih => exact ih h
  | case4 => cases h
  | case5 source tokens frame pending done ih => exact ih h
  | case6 text source tokens pending done ih => exact ih h
  | case7 => cases h

/-- The open lists of a text in front of which trees have been read, last one first. -/
def onBase (base : List Sexp) : List Frame → List Frame
  | [] => []
  | frame :: outer =>
    (if outer.isEmpty then { frame with before := frame.before ++ base } else frame) :: onBase base outer

/-- **Trees that were read before** stand in front of those that are read now, and have no part in errors. -/
theorem assemble_onBase (base : List Sexp) (tokens : List Token) (pending : List Frame) (done : List Sexp) :
    assemble tokens (onBase base pending) (if pending.isEmpty then done ++ base else done) =
      (assemble tokens pending done).map (base.reverse ++ ·) := by
  fun_induction assemble tokens pending done with
  | case1 done => simp [onBase, assemble, Except.map]
  | case2 frame outer done =>
    -- the error quotes from where the innermost list begins, whatever stands before that
    cases outer <;> rfl
  | case3 source tokens pending done ih => cases pending <;> exact ih
  | case4 => rfl
  | case5 source tokens frame outer done ih => cases outer <;> exact ih
  | case6 text source tokens pending done ih => cases pending <;> exact ih
  | case7 => rfl

/-! ## Texts -/

/-- **Texts read one after the other.** If a text can be read, then the text with a line feed and another one behind it
is read as both of them: it has the trees of both, or the error of the other one. -/
theorem readAll_append_newline {text : String} {trees : List Sexp} (h : readAll text = .ok trees) (below : String) :
    (∀ more, readAll below = .ok more → readAll (text ++ "\n" ++ below) = .ok (trees ++ more)) ∧
      ∀ e, readAll below = .error e → readAll (text ++ "\n" ++ below) = .error e := by
  have hchars : (text ++ "\n" ++ below).toList = text.toList ++ '\n' :: below.toList := by simp
  have hboth : readAll (text ++ "\n" ++ below) = (readAll below).map (trees ++ ·) := by
    unfold readAll at h ⊢
    rw [hchars, Token.all_append_newline (closed_of_assemble h)]
    calc assemble ((Token.all text.toList).map (Token.followedBy ('\n' :: below.toList)) ++ Token.all below.toList) [] []
        = assemble (Token.all below.toList) [] trees.reverse := assemble_append h _ _
      _ = (assemble (Token.all below.toList) [] []).map (trees.reverse.reverse ++ ·) :=
        assemble_onBase trees.reverse (Token.all below.toList) [] []
      _ = (assemble (Token.all below.toList) [] []).map (trees ++ ·) := by rw [List.reverse_reverse]
  rw [hboth]
  constructor
  · intro more hmore
    rw [hmore]
    rfl
  · intro e he
    rw [he]
    rfl

/-- A comment that nothing ends, and a quote below it that nothing closes. -/
theorem readAll_append_newline_sample :
    readAll "(a \"b\\\"#\") # (c" = .ok [.list [.leaf "a", .leaf "b\"#"]] ∧
      readAll "d # e" = .ok [.leaf "d"] ∧
      readAll "(a \"b\\\"#\") # (c\nd # e" = .ok [.list [.leaf "a", .leaf "b\"#"], .leaf "d"] ∧
      readAll "(f \"g" = .error (.unterminatedString "\"g") ∧
      readAll "(a \"b\\\"#\") # (c\n(f \"g" = .error (.unterminatedString "\"g") := by
  have htext : readAll "(a \"b\\\"#\") # (c" = .ok [.list [.leaf "a", .leaf "b\"#"]] := by cbv
  have htrees : readAll "d # e" = .ok [.leaf "d"] := by cbv
  have herror : readAll "(f \"g" = .error (.unterminatedString "\"g") := by cbv
  exact ⟨htext, htrees, (readAll_append_newline htext "d # e").1 _ htrees, herror,
    (readAll_append_newline htext "(f \"g").2 _ herror⟩

end Parlance.Sexp
