import Mathlib.Data.List.Induction
import Parlance.Learning.Evaluation
import Parlance.Proofs.Exact
import Parlance.Proofs.Table

/-!
# `Proofs.Statistics` — summaries that are merged

Statistics that were recorded apart, such as those of texts that were parsed in parallel, are merged afterwards. In
exact arithmetic this comes to recording all values in sequence, down to the order of the names and to the key that an
extreme is known under: it is the first one in the whole sequence, because an extreme gives way only to a strictly
better one, in both operations.

Infinite values are among those recorded. Two opposite infinities have no sum, but that holds in every grouping.

## Contents
- **Laws.** `Score.Summing`, and `ExtendedNumber`, which has infinities.
- **Extremes.** `Figure.better_assoc`, and `Figure.FirstBest`, what is first among the best.
- **Figures.** `Figure.Summarizes`, and `Figure.merge_record`.
- **Evaluations.** `Evaluation.recorded`, `Evaluation.merge_recordKeyed`, and `Evaluation.merge_in_sequence`.
-/

namespace Parlance

/-! ## Laws -/

/-- **What of exact arithmetic summaries rest on.** Sums do not depend on how they are grouped, and numbers are in
order, with ties. -/
class Score.Summing (α : Type) [Score α] : Prop where
  add_assoc : ∀ a b c : α, a + b + c = a + (b + c)
  zero_add : ∀ a : α, Score.zero + a = a
  lt_asymm : ∀ {a b : α}, Score.lt a b = true → Score.lt b a = false
  not_lt_trans : ∀ {a b c : α}, Score.isNaN a = false → Score.isNaN b = false → Score.isNaN c = false →
    Score.lt a b = false → Score.lt b c = false → Score.lt a c = false

/-- A rational number, an infinity, or nothing that is defined. -/
inductive ExtendedNumber where
  | of (q : ℚ)
  | infinity (negative : Bool)
  | undefined
  deriving DecidableEq, Inhabited

namespace ExtendedNumber

/-- The number with the other sign. -/
def neg : ExtendedNumber → ExtendedNumber
  | of q => of (-q)
  | infinity negative => infinity !negative
  | undefined => undefined

/-- The sum; opposite infinities have none. -/
def add : ExtendedNumber → ExtendedNumber → ExtendedNumber
  | of p, of q => of (p + q)
  | infinity s, of _ => infinity s
  | of _, infinity t => infinity t
  | infinity s, infinity t => if s = t then infinity s else undefined
  | _, _ => undefined

/-- The infinity with the sign of a rational, if it has one. -/
def scaled (negative : Bool) (q : ℚ) : ExtendedNumber :=
  if q = 0 then undefined else infinity (negative ^^ decide (q < 0))

/-- The product; zero times an infinity is none. -/
def mul : ExtendedNumber → ExtendedNumber → ExtendedNumber
  | of p, of q => of (p * q)
  | infinity s, of q => scaled s q
  | of p, infinity t => scaled t p
  | infinity s, infinity t => infinity (s ^^ t)
  | _, _ => undefined

/-- The quotient by a rational that is not zero, or by an infinity. -/
def div : ExtendedNumber → ExtendedNumber → ExtendedNumber
  | of p, of q => if q = 0 then undefined else of (p / q)
  | infinity s, of q => scaled s q
  | of _, infinity _ => of 0
  | _, _ => undefined

/-- Whether one number is below another one. -/
def lt : ExtendedNumber → ExtendedNumber → Bool
  | of p, of q => p < q
  | infinity s, of _ => s
  | of _, infinity t => !t
  | infinity s, infinity t => s && !t
  | _, _ => false

/-- Whether the number is defined. -/
def isDefined : ExtendedNumber → Bool
  | undefined => false
  | _ => true

/-- Whether the number is rational. -/
def isRational : ExtendedNumber → Bool
  | of _ => true
  | _ => false

/-- The value of a double. -/
def ofFloat (x : Float) : ExtendedNumber :=
  match Decimal.decode x with
  | .finite negative m q _ => of ((if negative then -1 else 1) * m * 2 ^ q)
  | .infinite negative => infinity negative
  | .nan => undefined

/-- The text of a number. -/
def text : ExtendedNumber → String
  | of q => toString q
  | infinity negative => if negative then "-inf" else "inf"
  | undefined => "undefined"

/-- Exact scores with infinities. What is not rational in general is not defined here. -/
instance : Score ExtendedNumber where
  add := add
  sub a b := add a b.neg
  mul := mul
  div := div
  ofNat n := of n
  ofFloat := ofFloat
  negZero := of 0
  negInf := infinity true
  nan := undefined
  lt := lt
  le a b := lt a b || (isDefined a && decide (a = b))
  eq a b := isDefined a && decide (a = b)
  isNaN a := !isDefined a
  isFinite := isRational
  exp _ := undefined
  ln _ := undefined
  sqrt _ := undefined
  pow _ _ := undefined
  text := text
  fixed _ := text

/-- Sums do not depend on how they are grouped: an infinity stays, and opposite ones leave nothing. -/
theorem add_add (a b c : ExtendedNumber) : (a.add b).add c = a.add (b.add c) := by
  cases a <;> cases b <;> cases c <;> simp only [add, add_assoc] <;> grind [add]

theorem not_lt_trans {a b c : ExtendedNumber} (ha : a.isDefined) (hb : b.isDefined) (hc : c.isDefined)
    (hab : a.lt b = false) (hbc : b.lt c = false) : a.lt c = false := by
  cases a <;> cases b <;> cases c <;> grind [lt, isDefined]

theorem lt_asymm {a b : ExtendedNumber} (h : a.lt b = true) : b.lt a = false := by
  cases a <;> cases b <;> grind [lt]

theorem isDefined_of_isNaN {a : ExtendedNumber} (h : Score.isNaN a = false) : a.isDefined = true := by
  cases a with
  | of q => rfl
  | infinity negative => rfl
  | undefined => cases h

instance : Score.Summing ExtendedNumber where
  add_assoc := add_add
  zero_add a := by
    cases a with
    | of q => exact congrArg of (zero_add q)
    | infinity negative => rfl
    | undefined => rfl
  lt_asymm := lt_asymm
  not_lt_trans ha hb hc :=
    not_lt_trans (isDefined_of_isNaN ha) (isDefined_of_isNaN hb) (isDefined_of_isNaN hc)

end ExtendedNumber

/-! ## Extremes -/

namespace Figure

open Score (IsNumber)

variable {α : Type} [Score α]

/-- **A strict order of numbers**, in which some may be tied. -/
structure Ranks (beats : α → α → Bool) : Prop where
  asymm : ∀ {a b : α}, beats a b = true → beats b a = false
  not_trans : ∀ {a b c : α}, IsNumber a → IsNumber b → IsNumber c → beats a b = false → beats b c = false →
    beats a c = false

/-- What beats a number that is not beaten by another one beats this one too. -/
theorem Ranks.of_not {beats : α → α → Bool} (h : Ranks beats) {a b c : α} (ha : IsNumber a) (hb : IsNumber b)
    (hc : IsNumber c) (hab : beats a b = true) (hcb : beats c b = false) : beats a c = true := by
  by_contra hac
  have hab' := h.not_trans ha hc hb (Bool.eq_false_of_not_eq_true hac) hcb
  rw [hab] at hab'
  cases hab'

theorem Ranks.trans {beats : α → α → Bool} (h : Ranks beats) {a b c : α} (ha : IsNumber a) (hb : IsNumber b)
    (hc : IsNumber c) (hab : beats a b = true) (hbc : beats b c = true) : beats a c = true :=
  h.of_not ha hb hc hab (h.asymm hbc)

/-- Whether an extreme, if there is one, is a number. -/
def IsNumbered (e : Option (α × Option String)) : Prop := ∀ x ∈ e, IsNumber x.1

theorem isNumbered_some {a : α} {key : Option String} (ha : IsNumber a) : IsNumbered (some (a, key)) := by
  intro x hx
  cases hx
  exact ha

/-- **Extremes may be compared in any grouping.** An extreme stays unless it is beaten, so that of several it is the
first one of the best. -/
theorem better_assoc {beats : α → α → Bool} (h : Ranks beats) {a b c : Option (α × Option String)}
    (ha : IsNumbered a) (hb : IsNumbered b) (hc : IsNumbered c) :
    better beats (better beats a b) c = better beats a (better beats b c) := by
  rcases a with _ | ⟨x, k⟩
  · rfl
  rcases b with _ | ⟨y, l⟩
  · rfl
  rcases c with _ | ⟨z, m⟩
  · by_cases hyx : beats y x = true <;> simp [better, hyx]
  have hx : IsNumber x := ha _ rfl
  have hy : IsNumber y := hb _ rfl
  have hz : IsNumber z := hc _ rfl
  by_cases hyx : beats y x = true
  · by_cases hzy : beats z y = true
    · -- the last one beats the other two
      have hzx := h.trans hz hy hx hzy hyx
      simp [better, hyx, hzy, hzx]
    · simp [better, hyx, hzy]
  · by_cases hzy : beats z y = true
    · simp [better, hyx, hzy]
    · -- the last one is beaten by the middle one, or tied with it
      have hzx := h.not_trans hz hy hx (by simpa using hzy) (by simpa using hyx)
      simp [better, hyx, hzy, hzx]

/-- **The first one among the best** of values with keys, if there are any. -/
def FirstBest (beats : α → α → Bool) (l : List (Option String × α)) : Option (α × Option String) → Prop
  | none => l = []
  | some (value, key) =>
    ∃ before after, l = before ++ (key, value) :: after ∧
      (∀ r ∈ before, beats value r.2 = true) ∧ ∀ r ∈ after, beats r.2 value = false

theorem FirstBest.isNumbered {beats : α → α → Bool} {l : List (Option String × α)} {e : Option (α × Option String)}
    (h : FirstBest beats l e) (hl : ∀ r ∈ l, IsNumber r.2) : IsNumbered e := by
  intro x hx
  obtain ⟨before, after, rfl, -, -⟩ : FirstBest beats l (some x) := hx ▸ h
  exact hl (x.2, x.1) (by simp)

theorem FirstBest.add {beats : α → α → Bool} (hbeats : Ranks beats) {l : List (Option String × α)}
    {e : Option (α × Option String)} (h : FirstBest beats l e) {key : Option String} {value : α}
    (hl : ∀ r ∈ l, IsNumber r.2) (hvalue : IsNumber value) :
    FirstBest beats (l ++ [(key, value)]) (better beats e (some (value, key))) := by
  rcases e with _ | ⟨best, k⟩
  · -- it is the first value of all
    obtain rfl : l = [] := h
    exact ⟨[], [], rfl, by simp, by simp⟩
  obtain ⟨before, after, rfl, hbefore, hafter⟩ := h
  have hbest : IsNumber best := hl (k, best) (by simp)
  by_cases hnew : beats value best = true
  · -- it beats the best one so far, and so all others
    simp only [better, hnew, if_true]
    refine ⟨before ++ (k, best) :: after, [], rfl, ?_, by simp⟩
    intro r hr
    have hr' : IsNumber r.2 := hl r hr
    rcases List.mem_append.mp hr with hr | hr
    · exact hbeats.trans hvalue hbest hr' hnew (hbefore r hr)
    · rcases List.mem_cons.mp hr with rfl | hr
      · exact hnew
      · exact hbeats.of_not hvalue hbest hr' hnew (hafter r hr)
  · simp only [better, hnew, Bool.false_eq_true, if_false]
    refine ⟨before, after ++ [(key, value)], by simp, hbefore, ?_⟩
    intro r hr
    rcases List.mem_append.mp hr with hr | hr
    · exact hafter r hr
    · rw [List.mem_singleton.mp hr]
      simpa using hnew

/-! ## Figures -/

/-- The figure of values with keys. -/
def recorded (l : List (Option String × α)) : Figure α := l.foldl (fun f r => f.record r.1 r.2) .empty

/-- **A figure says what there is to say** of values with keys. -/
structure Summarizes (f : Figure α) (l : List (Option String × α)) : Prop where
  count : f.count = l.length
  sum : f.sum = (l.map Prod.snd).foldl (· + ·) Score.zero
  squares : f.squares = (l.map fun r => r.2 * r.2).foldl (· + ·) Score.zero
  least : FirstBest Score.lt l f.least
  greatest : FirstBest (fun a b => Score.lt b a) l f.greatest

/-- Whether the extremes of a figure are numbers. -/
structure Numbered (f : Figure α) : Prop where
  least : IsNumbered f.least
  greatest : IsNumbered f.greatest

theorem numbered_empty : (empty : Figure α).Numbered where
  least _ hx := nomatch hx
  greatest _ hx := nomatch hx

theorem Summarizes.numbered {f : Figure α} {l : List (Option String × α)} (h : f.Summarizes l)
    (hl : ∀ r ∈ l, IsNumber r.2) : f.Numbered :=
  ⟨h.least.isNumbered hl, h.greatest.isNumbered hl⟩

section Summing

variable [Score.Summing α]

theorem ranks_lt : Ranks (Score.lt : α → α → Bool) := ⟨Score.Summing.lt_asymm, Score.Summing.not_lt_trans⟩

theorem ranks_gt : Ranks fun a b : α => Score.lt b a where
  asymm := Score.Summing.lt_asymm
  not_trans ha hb hc hab hbc := Score.Summing.not_lt_trans hc hb ha hbc hab

theorem summarizes_recorded {l : List (Option String × α)} (hl : ∀ r ∈ l, IsNumber r.2) :
    (recorded l).Summarizes l := by
  induction l using List.reverseRecOn with
  | nil => exact ⟨rfl, rfl, rfl, rfl, rfl⟩
  | append_singleton l r ih =>
    obtain ⟨hinit, hr⟩ := List.forall_mem_append.mp hl
    rw [List.forall_mem_singleton] at hr
    have h := ih hinit
    have hrecorded : recorded (l ++ [r]) = (recorded l).record r.1 r.2 := by
      simp [recorded, List.foldl_append]
    rw [hrecorded]
    constructor
    case count => simp [record, h.count]
    case sum => simp [record, h.sum, List.foldl_append]
    case squares => simp [record, h.squares, List.foldl_append]
    case least => exact h.least.add ranks_lt hinit hr
    case greatest => exact h.greatest.add ranks_gt hinit hr

/-- A figure of one value is merged by recording the value. -/
theorem merge_record_empty (f : Figure α) (key : Option String) (value : α) :
    f.merge (empty.record key value) = f.record key value := by
  have hsum := congrArg (f.sum + ·) (Score.Summing.zero_add value)
  have hsquares := congrArg (f.squares + ·) (Score.Summing.zero_add (value * value))
  simp only [merge, record, empty, Nat.zero_add, better] at hsum hsquares ⊢
  rw [hsum, hsquares]

/-- **Merging a value that is recorded last** is recording it last. -/
theorem merge_record {f g : Figure α} (hf : f.Numbered) (hg : g.Numbered) (key : Option String) {value : α}
    (hvalue : IsNumber value) : f.merge (g.record key value) = (f.merge g).record key value := by
  have hnumbered : IsNumbered (some (value, key)) := isNumbered_some hvalue
  have hleast := better_assoc ranks_lt hf.least hg.least hnumbered
  have hgreatest := better_assoc ranks_gt hf.greatest hg.greatest hnumbered
  simp only [merge, record, Nat.add_assoc, Score.Summing.add_assoc, hleast, hgreatest]

end Summing

end Figure

/-! ## Evaluations -/

/-- A value of a statistic, with the key that it is known under. -/
structure Record (α : Type) where
  name : String
  key : Option String
  value : α

namespace Evaluation

variable {α : Type} [Score α]

/-- The evaluation in which values were recorded in sequence. -/
def recorded (l : List (Record α)) : Evaluation α :=
  l.foldl (fun e r => e.recordKeyed r.name r.key r.value) .empty

/-- Merges evaluations one after the other, from none on. -/
def mergeAll (parts : List (Evaluation α)) : Evaluation α := parts.foldl merge .empty

/-- The values of a statistic, with their keys. -/
def valuesOf (name : String) (l : List (Record α)) : List (Option String × α) :=
  (l.filter fun r => r.name = name).map fun r => (r.key, r.value)

/-- **An evaluation of values in sequence**: names in the order in which they first occur, and under each of them the
figure of its values. -/
structure IsSummaryOf (e : Evaluation α) (l : List (Record α)) : Prop where
  names : e.names = (l.map Record.name).eraseDups
  figures : ∀ name f, e.get? name = some f → f.Summarizes (valuesOf name l)

/-- Whether all values are numbers, among which are infinities. -/
def Numeric (l : List (Record α)) : Prop := ∀ r ∈ l, Score.IsNumber r.value

theorem recorded_concat (l : List (Record α)) (r : Record α) :
    recorded (l ++ [r]) = (recorded l).recordKeyed r.name r.key r.value := by
  simp [recorded, List.foldl_append]

/-- **What is found under a name** is the figure of its values, if there are any. -/
theorem get?_recorded (l : List (Record α)) (name : String) :
    (recorded l).get? name = if valuesOf name l = [] then none else some (Figure.recorded (valuesOf name l)) := by
  induction l using List.reverseRecOn with
  | nil => rfl
  | append_singleton l r ih =>
    rw [recorded_concat]
    unfold get? recordKeyed
    by_cases hname : r.name = name
    · subst hname
      have hvalues : valuesOf r.name (l ++ [r]) = valuesOf r.name l ++ [(r.key, r.value)] := by
        simp [valuesOf, List.filter_append]
      rw [Table.get?_update_self, hvalues, if_neg (by simp)]
      change (recorded l).get? r.name = _ at ih
      unfold get? at ih
      rw [ih]
      by_cases hnil : valuesOf r.name l = []
      · simp [hnil, Figure.recorded]
      · simp [hnil, Figure.recorded, List.foldl_append]
    · have hvalues : valuesOf name (l ++ [r]) = valuesOf name l := by
        simp [valuesOf, List.filter_append, hname]
      rw [Table.get?_update_of_ne _ (Ne.symm hname), hvalues]
      exact ih

/-- The names stand in the order in which they first occur. -/
theorem names_recorded (l : List (Record α)) : (recorded l).names = (l.map Record.name).eraseDups := by
  induction l using List.reverseRecOn with
  | nil => rfl
  | append_singleton l r ih =>
    rw [recorded_concat]
    unfold names at ih
    unfold names recordKeyed
    rw [Table.keys_update, ih, List.map_append, List.eraseDups_append]
    simp only [List.mem_eraseDups, List.map_cons, List.map_nil, List.removeAll, List.filter_cons, List.filter_nil,
      List.elem_eq_mem]
    by_cases hname : r.name ∈ l.map Record.name
    · rw [decide_eq_true hname, if_pos hname]
      simp
    · rw [decide_eq_false hname, if_neg hname]
      rfl

theorem distinct_recorded (l : List (Record α)) : (recorded l).figures.Distinct := by
  induction l using List.reverseRecOn with
  | nil => exact Table.distinct_empty
  | append_singleton l r ih =>
    rw [recorded_concat]
    exact ih.update r.name _

/-- Merges a figure of another evaluation. -/
def mergeInto (figures : Table (Figure α)) (entry : String × Figure α) : Table (Figure α) :=
  figures.update entry.1 fun old => (old.getD .empty).merge entry.2

theorem merge_eq (e other : Evaluation α) : e.merge other = ⟨other.figures.toList.foldl mergeInto e.figures⟩ := rfl

/-- What is recorded under a name that is there can be recorded before other names are merged. -/
theorem foldl_mergeInto_update {name : String} (l : List (String × Figure α)) (hname : name ∉ l.map (·.1))
    (figures : Table (Figure α)) (hfigures : name ∈ figures.keys) (f : Option (Figure α) → Figure α) :
    l.foldl mergeInto (figures.update name f) = (l.foldl mergeInto figures).update name f := by
  induction l generalizing figures with
  | nil => rfl
  | cons entry rest ih =>
    simp only [List.map_cons, List.mem_cons, not_or] at hname
    rw [List.foldl_cons, List.foldl_cons]
    have hcomm : mergeInto (figures.update name f) entry = (mergeInto figures entry).update name f :=
      Table.update_comm hfigures (Ne.symm hname.1) f _
    rw [hcomm]
    exact ih hname.2 _ (Table.mem_keys_update.mpr (Or.inl hfigures))

section Summing

variable [Score.Summing α]

/-- Recording a value in one of the figures that are merged is recording it after they are merged. -/
theorem foldl_mergeInto_put (name : String) (key : Option String) {value : α} (hvalue : Score.IsNumber value)
    (l : List (String × Figure α)) (hdistinct : (l.map (·.1)).Nodup) (hl : ∀ g, (name, g) ∈ l → g.Numbered)
    (figures : Table (Figure α)) (hfigures : ∀ f ∈ figures.get? name, f.Numbered) :
    (Table.put name (fun old => (old.getD .empty).record key value) l).foldl mergeInto figures =
      (l.foldl mergeInto figures).update name fun old => (old.getD .empty).record key value := by
  induction l generalizing figures with
  | nil =>
    show figures.update name _ = figures.update name _
    congr 1
    funext old
    exact Figure.merge_record_empty _ key value
  | cons entry rest ih =>
    obtain ⟨k, g⟩ := entry
    rw [List.map_cons, List.nodup_cons] at hdistinct
    by_cases hk : k = name
    · subst hk
      have hg : g.Numbered := hl g List.mem_cons_self
      have hold : ((figures.get? k).getD .empty).Numbered := by
        cases hfind : figures.get? k with
        | none => exact Figure.numbered_empty
        | some f => exact hfigures f hfind
      have hmem : k ∈ (mergeInto figures (k, g)).keys := Table.mem_keys_update.mpr (Or.inr rfl)
      rw [Table.put, if_pos (beq_self_eq_true k), List.foldl_cons, List.foldl_cons,
        ← foldl_mergeInto_update rest hdistinct.1 _ hmem]
      -- both are one update of the name, to the same figure
      congr 1
      unfold mergeInto
      rw [Table.update_update_self]
      exact Table.update_congr (Figure.merge_record hold hg key hvalue)
    · rw [Table.put, if_neg (by simpa using hk), List.foldl_cons, List.foldl_cons]
      refine ih hdistinct.2 (fun g' hg' => hl g' (List.mem_cons_of_mem _ hg')) _ fun f hf => ?_
      unfold mergeInto at hf
      rw [Table.get?_update_of_ne _ (Ne.symm hk)] at hf
      exact hfigures f hf

/-- The figure under a name summarizes the values of the name. -/
theorem summarizes_get? {l : List (Record α)} (hl : Numeric l) {name : String}
    {f : Figure α} (hf : (recorded l).get? name = some f) : f.Summarizes (valuesOf name l) ∧ f.Numbered := by
  have hvalues : ∀ r ∈ valuesOf name l, Score.IsNumber r.2 := by
    intro r hr
    obtain ⟨r', hr', rfl⟩ := List.mem_map.mp hr
    exact hl r' (List.mem_filter.mp hr').1
  rw [get?_recorded] at hf
  split at hf
  · cases hf
  · have hsummary := Figure.summarizes_recorded hvalues
    rw [← Option.some.inj hf]
    exact ⟨hsummary, hsummary.numbered hvalues⟩

/-- **Recording a value and then merging** is merging and then recording the value. -/
theorem merge_recordKeyed {l l' : List (Record α)} (hl : Numeric l)
    (hl' : Numeric l') (name : String) (key : Option String) {value : α}
    (hvalue : Score.IsNumber value) :
    (recorded l).merge ((recorded l').recordKeyed name key value) =
      ((recorded l).merge (recorded l')).recordKeyed name key value := by
  rw [merge_eq, merge_eq]
  unfold recordKeyed
  congr 1
  refine foldl_mergeInto_put name key hvalue _ (distinct_recorded l') (fun g hg => ?_) _ fun f hf => ?_
  · have hfind := (distinct_recorded l').mem_toList_iff.mp hg
    exact (summarizes_get? hl' hfind).2
  · exact (summarizes_get? hl hf).2

/-- Merging what was recorded apart is recording it in sequence. -/
theorem merge_recorded {l l' : List (Record α)} (hl : Numeric l)
    (hl' : Numeric l') : (recorded l).merge (recorded l') = recorded (l ++ l') := by
  induction l' using List.reverseRecOn with
  | nil =>
    rw [List.append_nil]
    rfl
  | append_singleton l' r ih =>
    obtain ⟨hinit, hr⟩ := List.forall_mem_append.mp hl'
    rw [List.forall_mem_singleton] at hr
    rw [recorded_concat, merge_recordKeyed hl hinit _ _ hr, ih hinit, ← List.append_assoc, recorded_concat]

theorem mergeAll_recorded {parts : List (List (Record α))} (hparts : ∀ part ∈ parts, Numeric part) :
    mergeAll (parts.map recorded) = recorded parts.flatten := by
  induction parts using List.reverseRecOn with
  | nil => rfl
  | append_singleton parts part ih =>
    obtain ⟨hinit, hpart⟩ := List.forall_mem_append.mp hparts
    rw [List.forall_mem_singleton] at hpart
    have hflat : Numeric parts.flatten := by
      intro r hr
      obtain ⟨part', hpart', hr⟩ := List.mem_flatten.mp hr
      exact hinit part' hpart' r hr
    have hmerged := merge_recorded hflat hpart
    unfold mergeAll at ih ⊢
    rw [List.map_append, List.map_singleton, List.foldl_append, ih hinit, List.flatten_append, List.flatten_singleton]
    exact hmerged

/-- **Merging statistics is recording them in sequence.** The evaluation of two sequences of values merged is that of
the one after the other: names are in the order in which they first occur, and each has the count, the sum, the sum of
squares and the extremes of all its values, with the key under which an extreme first occurs. So merging can be grouped
in any way, and however a sequence is split, the merged parts give the evaluation of the whole. -/
theorem merge_in_sequence {xs ys zs : List (Record α)} (hxs : Numeric xs) (hys : Numeric ys) (hzs : Numeric zs)
    {parts : List (List (Record α))} (hparts : ∀ part ∈ parts, Numeric part) :
    (recorded xs).merge (recorded ys) = recorded (xs ++ ys) ∧
      (recorded (xs ++ ys)).IsSummaryOf (xs ++ ys) ∧
      ((recorded xs).merge (recorded ys)).merge (recorded zs) =
        (recorded xs).merge ((recorded ys).merge (recorded zs)) ∧
      mergeAll (parts.map recorded) = recorded parts.flatten := by
  have hfirst : Numeric (xs ++ ys) := List.forall_mem_append.mpr ⟨hxs, hys⟩
  have hlast : Numeric (ys ++ zs) := List.forall_mem_append.mpr ⟨hys, hzs⟩
  refine ⟨merge_recorded hxs hys, ⟨names_recorded _, ?_⟩, ?_, mergeAll_recorded hparts⟩
  · intro name f hf
    exact (summarizes_get? hfirst hf).1
  · rw [merge_recorded hxs hys, merge_recorded hys hzs, merge_recorded hfirst hzs, merge_recorded hxs hlast,
      List.append_assoc]

end Summing

/-- Values of two statistics, one of them infinite. -/
def sampleRecords : List (Record ExtendedNumber) :=
  [⟨"size", some "first", .of 1⟩, ⟨"time", none, .infinity false⟩]

/-- More values of these, and one of a third statistic. -/
def moreRecords : List (Record ExtendedNumber) :=
  [⟨"depth", none, .of 3⟩, ⟨"size", some "second", .of 1⟩, ⟨"time", none, .infinity true⟩]

/-- Of two equal extremes the first one gives the key, and opposite infinities have no sum. -/
theorem merge_in_sequence_sample :
    (recorded sampleRecords).merge (recorded moreRecords) = recorded (sampleRecords ++ moreRecords) ∧
      ((recorded sampleRecords).merge (recorded moreRecords)).names = ["size", "time", "depth"] ∧
      (((recorded sampleRecords).merge (recorded moreRecords)).get? "size").map (fun f => (f.count, f.least)) =
        some (2, some (.of 1, some "first")) ∧
      (((recorded sampleRecords).merge (recorded moreRecords)).get? "time").map (fun f => (f.sum, f.least)) =
        some (.undefined, some (.infinity true, none)) := by
  have hsample : Numeric sampleRecords := by
    unfold Numeric Score.IsNumber
    decide
  have hmore : Numeric moreRecords := by
    unfold Numeric Score.IsNumber
    decide
  have hparts : ∀ part ∈ [sampleRecords], Numeric part := List.forall_mem_singleton.mpr hsample
  have hmerged := merge_in_sequence hsample hmore hmore hparts
  exact ⟨hmerged.1, by decide +kernel, by decide +kernel, by decide +kernel⟩

end Evaluation

end Parlance
