import Mathlib.Data.List.Forall2
import Parlance.Derivation.Arena
import Parlance.Example
import Parlance.Parse.Result

/-!
# `Proofs.Layout` — how the symbols of a rule lie on a text

A rule covers a span if its symbols lie on it side by side: a token on itself, a category on the span of a
derivation. Whether a derivation does that is a matter of its shape, that is of its category, its span, its rule
and its children. Scores and places in the beam come and go, but the shape of a derivation is settled when it is
made.

## Contents
- **Shapes.** `Derivation.shape` and `Arena.shapes`, which only `push` changes.
- **Texts.** `written`, the symbols of a rule with phrases in place of its categories.
- **Spans of tokens.** `Example.slice`, the tokens that a phrase is made of.
- **Layouts.** `LaidOut`, symbol by symbol, and what it says about the phrase of the span.
- **Proper shapes.** `Shape.Proper`: what is true of every shape of a parse.
-/

namespace Parlance

variable {α : Type}

/-! ## Shapes -/

/-- What about a derivation never changes. -/
structure Shape where
  cat : String
  first : Nat
  last : Nat
  rule : Rule
  children : List Nat

/-- The phrase that a shape covers. -/
def Shape.phrase (ex : Example) (s : Shape) : String := ex.info.phrase s.first s.last

/-- The shape of a derivation. -/
def Derivation.shape (d : Derivation α) : Shape := ⟨d.cat, d.first, d.last, d.rule, d.children⟩

namespace Arena

/-- The shapes of the derivations of an arena, in order. -/
def shapes (arena : Arena α) : List Shape := arena.items.toList.map Derivation.shape

@[simp] theorem shapes_push (arena : Arena α) (d : Derivation α) :
    (arena.push d).shapes = arena.shapes ++ [d.shape] := by
  simp [shapes, push]

theorem length_shapes (arena : Arena α) : arena.shapes.length = arena.size := by
  simp [shapes, size]

theorem getElem?_shapes (arena : Arena α) (i : Nat) :
    arena.shapes[i]? = (arena.get? i).map Derivation.shape := by
  simp [shapes, get?]

theorem shapes_modify (arena : Arena α) (i : Nat) {f : Derivation α → Derivation α}
    (h : ∀ d, (f d).shape = d.shape) : (arena.modify i f).shapes = arena.shapes := by
  refine List.ext_getElem? fun k => ?_
  simp only [shapes, modify, List.getElem?_map, Array.getElem?_toList, Array.getElem?_modify]
  split
  · cases arena.items[k]? <;> simp [h]
  · rfl

/-- Steps that leave the shapes alone leave them alone together. -/
theorem shapes_foldl {β : Type} {f : Arena α → β → Arena α} (h : ∀ arena b, (f arena b).shapes = arena.shapes)
    (arena : Arena α) (l : List β) : (l.foldl f arena).shapes = arena.shapes := by
  induction l generalizing arena with
  | nil => rfl
  | cons b l ih => rw [List.foldl_cons, ih, h]

section Reading

variable [Score α]

/-- The derivation with a number has the shape with that number. -/
theorem shape_get {arena : Arena α} {i : Nat} {s : Shape} (h : arena.shapes[i]? = some s) :
    (arena.get i).shape = s := by
  rw [getElem?_shapes, Option.map_eq_some_iff] at h
  obtain ⟨d, hd, rfl⟩ := h
  rw [get, hd, Option.getD_some]

end Reading

end Arena

/-! ## Texts -/

/-- The symbols of a rule with phrases in place of its categories, in order. -/
def written : List String → List String → List String
  | [], _ => []
  | symbol :: rest, phrases =>
    if isCat symbol then phrases.head?.getD symbol :: written rest phrases.tail
    else symbol :: written rest phrases

/-- Tokens are written as they are. -/
theorem written_of_lexical {symbols : List String} (h : ∀ s ∈ symbols, isCat s = false)
    (phrases : List String) : written symbols phrases = symbols := by
  induction symbols with
  | nil => rfl
  | cons symbol rest ih =>
    rw [written, h symbol List.mem_cons_self, ih fun s hs => h s (List.mem_cons_of_mem _ hs)]
    rfl

theorem written_concat_token {token : String} (h : isCat token = false) (symbols phrases : List String) :
    written (symbols ++ [token]) phrases = written symbols phrases ++ [token] := by
  induction symbols generalizing phrases with
  | nil => simp [written, h]
  | cons symbol rest ih =>
    rw [List.cons_append, written, written, ih, ih]
    split <;> rfl

theorem written_concat_cat {cat : String} (h : isCat cat = true) (phrase : String)
    (symbols phrases : List String) (hlen : (symbols.filter isCat).length = phrases.length) :
    written (symbols ++ [cat]) (phrases ++ [phrase]) = written symbols phrases ++ [phrase] := by
  induction symbols generalizing phrases with
  | nil =>
    obtain rfl : phrases = [] := List.eq_nil_of_length_eq_zero hlen.symm
    simp [written, h]
  | cons symbol rest ih =>
    rw [List.cons_append, written, written]
    by_cases hs : isCat symbol = true
    · rw [List.filter_cons_of_pos hs, List.length_cons] at hlen
      cases phrases with
      | nil => cases hlen
      | cons p phrases =>
        rw [if_pos hs, if_pos hs, List.cons_append, List.tail_cons, List.tail_cons,
          ih phrases (Nat.succ.inj hlen)]
        rfl
    · rw [List.filter_cons_of_neg hs] at hlen
      rw [if_neg hs, if_neg hs, ih phrases hlen, List.cons_append]

/-- Joining pieces that were joined is joining everything, if no piece is empty. -/
theorem intercalate_flatten (separator : String) {pieces : List (List String)} (h : ∀ p ∈ pieces, p ≠ []) :
    separator.intercalate (pieces.map separator.intercalate) = separator.intercalate pieces.flatten := by
  induction pieces with
  | nil => rfl
  | cons piece rest ih =>
    have ih := ih fun p hp => h p (List.mem_cons_of_mem _ hp)
    cases rest with
    | nil => simp
    | cons next rest =>
      have hpiece : piece ≠ [] := h piece List.mem_cons_self
      have hrest : (next :: rest).flatten ≠ [] := by
        simp [h next (List.mem_cons_of_mem _ List.mem_cons_self)]
      rw [List.map_cons, String.intercalate_cons_of_ne_nil (by simp), ih,
        List.flatten_cons (L := next :: rest), String.intercalate_append_of_ne_nil hpiece hrest]

/-! ## Spans of tokens -/

variable {ex : Example}

/-- The tokens of a span. -/
def Example.slice (ex : Example) (first last : Nat) : List String :=
  (ex.info.tokens.take last).drop first

theorem phrase_eq (ex : Example) (first last : Nat) :
    ex.info.phrase first last = " ".intercalate (ex.slice first last) := rfl

theorem slice_append {first mid last : Nat} (hf : first ≤ mid) (hl : mid ≤ last) (hn : mid ≤ ex.length) :
    ex.slice first mid ++ ex.slice mid last = ex.slice first last := by
  have hlen : first ≤ (ex.info.tokens.take mid).length := by
    rw [List.length_take]
    exact Nat.le_min.mpr ⟨hf, Nat.le_trans hf hn⟩
  have hsplit : ex.info.tokens.take last = ex.info.tokens.take mid ++ ex.slice mid last := by
    rw [Example.slice, ← Nat.min_eq_left hl, ← List.take_take, Nat.min_eq_left hl,
      List.take_append_drop]
  calc ex.slice first mid ++ ex.slice mid last
      = (ex.info.tokens.take mid ++ ex.slice mid last).drop first :=
        (List.drop_append_of_le_length hlen).symm
    _ = ex.slice first last := by rw [← hsplit]; rfl

theorem slice_ne_nil {first last : Nat} (hf : first < last) (hl : last ≤ ex.length) :
    ex.slice first last ≠ [] := by
  rw [Example.slice, Ne, List.drop_eq_nil_iff, List.length_take]
  have : ex.length = ex.info.tokens.length := rfl
  omega

theorem slice_token {i : Nat} (h : i < ex.length) : ex.slice i (i + 1) = [ex.token i] := by
  have h : i < ex.info.tokens.length := h
  rw [Example.slice, List.take_add_one, List.drop_append_of_le_length (by rw [List.length_take]; omega)]
  simp [Example.token, h]

/-! ## Layouts -/

/-- **Symbols laid out from a position on**, up to another one: each of them is the token there, or the category
of a part that starts there. -/
inductive LaidOut (ex : Example) (first : Nat) : List String → List Shape → Nat → Prop
  | nil : LaidOut ex first [] [] first
  | token {symbols : List String} {kids : List Shape} {i : Nat} (before : LaidOut ex first symbols kids i)
    (h : i < ex.length) : LaidOut ex first (symbols ++ [ex.token i]) kids (i + 1)
  | part {symbols : List String} {kids : List Shape} {kid : Shape}
    (before : LaidOut ex first symbols kids kid.first) (isCat : isCat kid.cat = true)
    (lt : kid.first < kid.last) (le : kid.last ≤ ex.length) :
    LaidOut ex first (symbols ++ [kid.cat]) (kids ++ [kid]) kid.last

namespace LaidOut

variable {first last : Nat} {symbols : List String} {kids : List Shape}

theorem first_le (h : LaidOut ex first symbols kids last) : first ≤ last := by
  induction h with
  | nil => exact Nat.le_refl _
  | token before _ ih => exact Nat.le_succ_of_le ih
  | part before _ lt _ ih => exact Nat.le_trans ih (Nat.le_of_lt lt)

/-- The parts have the categories among the symbols, in order. -/
theorem cats (h : LaidOut ex first symbols kids last)
    (free : ∀ s ∈ symbols, s ∈ ex.info.tokens → isCat s = false) :
    kids.map Shape.cat = symbols.filter isCat := by
  induction h with
  | nil => rfl
  | @token symbols kids i before hi ih =>
    have htoken : isCat (ex.token i) = false :=
      free _ (by simp) (by simp [Example.token, show i < ex.info.tokens.length from hi])
    rw [ih fun s hs => free s (List.mem_append_left _ hs), List.filter_append]
    simp [htoken]
  | part before hcat lt le ih =>
    rw [List.map_append, ih fun s hs => free s (List.mem_append_left _ hs), List.filter_append]
    simp [hcat]

/-- The parts lie between the two positions. -/
theorem inside (h : LaidOut ex first symbols kids last) :
    ∀ k ∈ kids, first ≤ k.first ∧ k.first < k.last ∧ k.last ≤ last := by
  induction h with
  | nil => intro k hk; cases hk
  | token before hi ih =>
    intro k hk
    obtain ⟨hf, hlt, hl⟩ := ih k hk
    exact ⟨hf, hlt, Nat.le_succ_of_le hl⟩
  | part before hcat lt le ih =>
    intro k hk
    rcases List.mem_append.mp hk with hk | hk
    · obtain ⟨hf, hlt, hl⟩ := ih k hk
      exact ⟨hf, hlt, Nat.le_trans hl (Nat.le_of_lt lt)⟩
    · obtain rfl := List.mem_singleton.mp hk
      exact ⟨before.first_le, lt, Nat.le_refl _⟩

/-- No part starts before the one in front of it ends. -/
theorem ordered (h : LaidOut ex first symbols kids last) :
    kids.Pairwise fun k k' => k.last ≤ k'.first := by
  induction h with
  | nil => exact List.Pairwise.nil
  | token before hi ih => exact ih
  | part before hcat lt le ih =>
    refine List.pairwise_append.mpr ⟨ih, List.pairwise_singleton _ _, fun k hk k' hk' => ?_⟩
    obtain rfl := List.mem_singleton.mp hk'
    exact (before.inside k hk).2.2

/-- The symbols, written with the phrases of the parts, are the tokens of the span in pieces. -/
theorem exists_pieces (h : LaidOut ex first symbols kids last)
    (free : ∀ s ∈ symbols, s ∈ ex.info.tokens → isCat s = false) :
    ∃ pieces : List (List String), (∀ p ∈ pieces, p ≠ []) ∧ pieces.flatten = ex.slice first last ∧
      written symbols (kids.map (Shape.phrase ex)) = pieces.map " ".intercalate := by
  induction h with
  | nil =>
    refine ⟨[], by simp, ?_, rfl⟩
    rw [Example.slice, List.flatten_nil, eq_comm, List.drop_eq_nil_iff, List.length_take]
    exact Nat.min_le_left _ _
  | @token symbols kids i before hi ih =>
    obtain ⟨pieces, hne, hflat, hwritten⟩ := ih fun s hs => free s (List.mem_append_left _ hs)
    have htoken : isCat (ex.token i) = false :=
      free _ (by simp) (by simp [Example.token, show i < ex.info.tokens.length from hi])
    refine ⟨pieces ++ [[ex.token i]], ?_, ?_, ?_⟩
    · intro p hp
      rcases List.mem_append.mp hp with hp | hp
      · exact hne p hp
      · simp [List.mem_singleton.mp hp]
    · rw [List.flatten_append, hflat, List.flatten_singleton, ← slice_token hi,
        slice_append before.first_le (Nat.le_succ i) (Nat.le_of_lt hi)]
    · rw [written_concat_token htoken, hwritten, List.map_append]
      simp
  | @part symbols kids kid before hcat lt le ih =>
    have free' : ∀ s ∈ symbols, s ∈ ex.info.tokens → isCat s = false :=
      fun s hs => free s (List.mem_append_left _ hs)
    obtain ⟨pieces, hne, hflat, hwritten⟩ := ih free'
    refine ⟨pieces ++ [ex.slice kid.first kid.last], ?_, ?_, ?_⟩
    · intro p hp
      rcases List.mem_append.mp hp with hp | hp
      · exact hne p hp
      · rw [List.mem_singleton.mp hp]
        exact slice_ne_nil lt le
    · rw [List.flatten_append, hflat, List.flatten_singleton,
        slice_append before.first_le (Nat.le_of_lt lt) (Nat.le_trans (Nat.le_of_lt lt) le)]
    · have hlen : (symbols.filter isCat).length = (kids.map (Shape.phrase ex)).length := by
        rw [← before.cats free', List.length_map, List.length_map]
      rw [List.map_append, List.map_singleton, written_concat_cat hcat _ _ _ hlen, hwritten,
        List.map_append]
      rfl

/-- **The text of a layout**: written with the phrases of the parts, the symbols are the phrase of the span. -/
theorem text (h : LaidOut ex first symbols kids last)
    (free : ∀ s ∈ symbols, s ∈ ex.info.tokens → isCat s = false) :
    " ".intercalate (written symbols (kids.map (Shape.phrase ex))) = ex.info.phrase first last := by
  obtain ⟨pieces, hne, hflat, hwritten⟩ := h.exists_pieces free
  rw [hwritten, intercalate_flatten " " hne, hflat]
  rfl

end LaidOut

/-! ## Proper shapes -/

namespace Shape

/-- **A rule applied to parts**: the parts have its categories, lie in the span one behind the other, and put in
place of the categories they give the phrase of the span. -/
structure Parses (ex : Example) (s : Shape) (kids : List Shape) : Prop where
  cats : kids.map Shape.cat = s.rule.rhs.filter isCat
  ordered : kids.Pairwise fun k k' => k.last ≤ k'.first
  inside : ∀ k ∈ kids, s.first ≤ k.first ∧ k.first < k.last ∧ k.last ≤ s.last
  text : " ".intercalate (written s.rule.rhs (kids.map (Shape.phrase ex))) =
    ex.info.phrase s.first s.last

/-- A rule whose symbols are laid out over the span. -/
theorem parses_of_laidOut {s : Shape} {kids : List Shape} (h : LaidOut ex s.first s.rule.rhs kids s.last)
    (free : ∀ t ∈ s.rule.rhs, t ∈ ex.info.tokens → isCat t = false) : s.Parses ex kids where
  cats := h.cats free
  ordered := h.ordered
  inside := h.inside
  text := h.text free

/-- A rule without categories that says the phrase of the span. -/
theorem parses_of_lexical {s : Shape} (lexical : s.rule.isLexical = true)
    (phrase : " ".intercalate s.rule.rhs = ex.info.phrase s.first s.last) : s.Parses ex [] := by
  have hnone : ∀ t ∈ s.rule.rhs, isCat t = false := by
    intro t ht
    simpa using List.all_eq_true.mp lexical t ht
  refine ⟨?_, List.Pairwise.nil, by simp, ?_⟩
  · rw [List.map_nil, eq_comm, List.filter_eq_nil_iff]
    intro t ht
    simp [hnone t ht]
  · rw [List.map_nil, written_of_lexical hnone, phrase]

theorem getElem?_of_isPrefix {before after : List Shape} (hp : before <+: after) {c : Nat} {k : Shape}
    (h : before[c]? = some k) : after[c]? = some k := by
  obtain ⟨l, rfl⟩ := hp
  rwa [List.getElem?_append_left (List.getElem?_eq_some_iff.mp h).1]

/-- **What is true of every shape of a parse**, given the shapes that were there before. -/
structure Proper (ex : Example) (before : List Shape) (s : Shape) : Prop where
  lt : s.first < s.last
  le : s.last ≤ ex.length
  isCat : isCat s.cat = true
  root : s.cat = rootCat → s.first = 0 ∧ s.last = ex.length
  parse : s.rule.isNull = false → s.cat = s.rule.lhs ∧
    ∃ kids, List.Forall₂ (fun c k => before[c]? = some k) s.children kids ∧ s.Parses ex kids

/-- What was proper stays so when more shapes come. -/
theorem Proper.mono {before after : List Shape} {s : Shape} (h : s.Proper ex before) (hp : before <+: after) :
    s.Proper ex after where
  lt := h.lt
  le := h.le
  isCat := h.isCat
  root := h.root
  parse hn := by
    obtain ⟨hcat, kids, hkids, hparses⟩ := h.parse hn
    refine ⟨hcat, kids, hkids.imp fun c k hc => ?_, hparses⟩
    exact getElem?_of_isPrefix hp hc

end Shape

end Parlance
