import Parlance.Proofs.Binarize
import Parlance.Proofs.Outcome

/-!
# `Proofs.Cascade` — what a cascade of pairs computes

A rule with a long right-hand side takes its required categories as arguments, but its rules take two symbols each.
What comes out for a slot that stands for several ones is carried through: the first argument as it is, then what the
function makes of it and the second one, then of that and the third one, and so on. Symbols between them come and go
without a trace, since the functions that stand in for the rule's own one pass on the argument that there is. The
induction is on the slots to the right, and its invariant is `Carries`.

## Contents
- **Fillings.** `Slot.Admits` and `arguments`, and a slot that stands for several ones, `Slot.StandsFor`.
- **What a slot carries.** `Carries`, and what a pair makes of it.
- **Pairs.** `Interprets`, kept by each pair, and what comes out at the end, `Finished`.
- **Cascades.** `RulesFor` tells which rules are whose, and `interprets_cascade` what they compute.
-/

namespace Parlance

/-! ## Fillings -/

/-- What may be there for a slot: a filler, or nothing if the slot is optional. -/
def Slot.Admits (slot : Slot) : Option Filler → Prop
  | none => slot.optional = true
  | some f => f.symbol = slot.symbol ∧ f.Fits

/-- **The arguments of a semantic function**: the children that stand for required slots. -/
def arguments : List Slot → List (Option Filler) → List Child
  | slot :: slots, filler :: fill =>
    (if slot.required then (filler.bind Filler.child?).toList else []) ++ arguments slots fill
  | _, _ => []

/-- A slot for a symbol of a right-hand side: an argument is a category that has to be there. -/
def Slot.Plain (slot : Slot) : Prop := slot.required = (isCat slot.symbol && !slot.optional)

theorem arguments_concat {slots : List Slot} {fill : List (Option Filler)}
    (h : List.Forall₂ Slot.Admits slots fill) (slot : Slot) (filler : Option Filler) :
    arguments (slots ++ [slot]) (fill ++ [filler]) =
      arguments slots fill ++ if slot.required then (filler.bind Filler.child?).toList else [] := by
  induction h with
  | nil => simp [arguments]
  | cons _ _ ih => rw [List.cons_append, List.cons_append, arguments, arguments, ih, List.append_assoc]

/-- A filling of slots and one more. -/
theorem forall₂_concat_iff {slots : List Slot} {slot : Slot} {fill : List (Option Filler)} :
    List.Forall₂ Slot.Admits (slots ++ [slot]) fill ↔
      ∃ fill' filler, fill = fill' ++ [filler] ∧ List.Forall₂ Slot.Admits slots fill' ∧
        slot.Admits filler := by
  constructor
  · intro h
    induction slots generalizing fill with
    | nil =>
      obtain ⟨filler, rest, hf, hrest, rfl⟩ := List.forall₂_cons_left_iff.mp h
      obtain rfl := List.forall₂_nil_left_iff.mp hrest
      exact ⟨[], filler, rfl, .nil, hf⟩
    | cons s slots ih =>
      obtain ⟨filler, rest, hf, hrest, rfl⟩ := List.forall₂_cons_left_iff.mp h
      obtain ⟨fill', filler', rfl, hfill, hlast⟩ := ih hrest
      exact ⟨filler :: fill', filler', rfl, .cons hf hfill, hlast⟩
  · rintro ⟨fill', filler, rfl, h, hf⟩
    exact List.rel_append h (.cons hf .nil)

theorem Slot.Plain.required_iff {slot : Slot} (hp : slot.Plain) :
    slot.required = true ↔ isCat slot.symbol = true ∧ slot.optional = false := by
  rw [hp, Bool.and_eq_true, Bool.not_eq_true']

/-- A required slot has a child. -/
theorem Slot.Plain.exists_child {slot : Slot} (hp : slot.Plain) (hr : slot.required = true)
    {filler : Option Filler} (h : slot.Admits filler) : ∃ c, filler = some (.child c) := by
  obtain ⟨hcat, hopt⟩ := hp.required_iff.mp hr
  cases filler with
  | none => cases hopt.symm.trans h
  | some f =>
    obtain ⟨hs, hf⟩ := h
    obtain ⟨c, rfl⟩ := hf.exists_child (hs ▸ hcat)
    exact ⟨c, rfl⟩

/-- There are as many arguments as required slots. -/
theorem length_arguments {slots : List Slot} {fill : List (Option Filler)} (hp : ∀ slot ∈ slots, slot.Plain)
    (h : List.Forall₂ Slot.Admits slots fill) :
    (arguments slots fill).length = slots.countP Slot.required := by
  induction h with
  | nil => rfl
  | @cons slot filler slots fill hf _ ih =>
    rw [arguments, List.length_append, ih fun s hs => hp s (List.mem_cons_of_mem _ hs), List.countP_cons,
      Nat.add_comm]
    congr 1
    by_cases hr : slot.required = true
    · obtain ⟨c, rfl⟩ := (hp slot List.mem_cons_self).exists_child hr hf
      rw [if_pos hr, if_pos hr]
      rfl
    · rw [if_neg hr, if_neg hr]
      rfl

/-- **A slot that stands for several ones**: it may be left out if all of them may, and is an argument if one of
them is. -/
structure Slot.StandsFor (left : Slot) (slots : List Slot) : Prop where
  ne_nil : slots ≠ []
  plain : ∀ slot ∈ slots, slot.Plain
  optional_iff : left.optional = true ↔ ∀ slot ∈ slots, slot.optional = true
  required_eq : left.required = decide (1 ≤ slots.countP Slot.required)

namespace Slot.StandsFor

variable {left right : Slot} {slots : List Slot}

theorem single {slot : Slot} (hp : slot.Plain) : slot.StandsFor [slot] where
  ne_nil := List.cons_ne_nil _ _
  plain := List.forall_mem_singleton.mpr hp
  optional_iff := by rw [List.forall_mem_singleton]
  required_eq := by cases h : slot.required <;> simp [h]

/-- Nothing that may be left out is an argument. -/
theorem required_eq_false (h : left.StandsFor slots) (ho : left.optional = true) : left.required = false := by
  rw [h.required_eq, decide_eq_false_iff_not]
  intro hcount
  obtain ⟨slot, hslot, hrequired⟩ := List.countP_pos_iff.mp hcount
  have hopt := ((h.plain slot hslot).required_iff.mp hrequired).2
  cases hopt.symm.trans (h.optional_iff.mp ho slot hslot)

theorem countP_concat (slots : List Slot) (right : Slot) :
    (slots ++ [right]).countP Slot.required =
      slots.countP Slot.required + if right.required then 1 else 0 := by
  rw [List.countP_append, List.countP_singleton]

/-- **The slot of a pair** stands for what the left member stands for and the right one. -/
theorem join (h : left.StandsFor slots) (hp : right.Plain) (cat : String) :
    (Slot.join cat left right).StandsFor (slots ++ [right]) where
  ne_nil := by simp
  plain := List.forall_mem_append.mpr ⟨h.plain, List.forall_mem_singleton.mpr hp⟩
  optional_iff := Rule.join_optional_iff h.optional_iff
  required_eq := by
    show (left.required || right.required) = _
    rw [h.required_eq, countP_concat, Bool.eq_iff_iff, Bool.or_eq_true, decide_eq_true_eq, decide_eq_true_eq]
    by_cases hr : right.required = true <;> simp [hr]

/-- There are two arguments if there were two, or if both members of the pair are arguments. -/
theorem two_le_concat (h : left.StandsFor slots) (right : Slot) :
    decide (2 ≤ (slots ++ [right]).countP Slot.required) =
      (decide (2 ≤ slots.countP Slot.required) || (left.required && right.required)) := by
  rw [h.required_eq, countP_concat, Bool.eq_iff_iff]
  simp only [Bool.or_eq_true, Bool.and_eq_true, decide_eq_true_eq]
  by_cases hr : right.required = true
  · simp only [hr, and_true, if_true]
    omega
  · simp [hr]

end Slot.StandsFor

/-! ## What a slot carries -/

/-- What the stand-in for symbols that were left out means. -/
def nullMeaning (ctx : SemContext) : Meaning := (.null, ctx.inferType .null)

/-- What comes out for the first argument, given the place where it starts and the argument itself. -/
abbrev Opening := Nat → Child → Outcomes Meaning → Prop

/-- The first argument as it is. -/
def asItIs : Opening := fun _ c outs => outs = [.ok c.meaning]

/-- **What a slot carries** that stands for several ones: nothing to speak of if there is no argument yet, and
otherwise the left fold of the function over the arguments after the first one. -/
def Carries (sem : SemanticFn) (ctx : SemContext) (ex : Example) (opening : Opening) (left : Slot)
    (slots : List Slot) (start : Nat) (args : List Child) (outs : Outcomes (List Child)) : Prop :=
  match args with
  | [] => left.required = false ∧ ∃ children, outs = [.ok children] ∧
      children.length = (if isCat left.symbol then 1 else 0) ∧
      (slots.length = 1 → (∀ slot ∈ slots, slot.optional = false) → children = []) ∧
      (slots.length ≠ 1 → children.map Child.meaning = [nullMeaning ctx])
  | c :: cs => left.required = true ∧ ∃ base results, opening start c base ∧
      LeftFold sem ctx ex start base cs results ∧ mapOk (List.map Child.meaning) outs = mapOk ([·]) results

variable {rules : List Rule} {kinds : Kinds} {ctx : SemContext} {ex : Example} {opening : Opening}

variable (ctx ex) in
/-- A function that is applied once has its results for those of the whole. -/
theorem applied_results (r : Rule) (leaves : List Filler) (children : List Child) :
    Applied r.sem ctx ex (Filler.start leaves) (Filler.stop leaves) (children.map Child.meaning)
      (mapOk Child.meaning (r.results ctx ex leaves children)) :=
  ⟨⟨Filler.start leaves, Filler.stop leaves, children⟩, rfl, rfl, rfl, mapOk_mapOk _ _ _⟩

variable (ctx ex) in
theorem results_select {r : Rule} {p : Nat} (hr : r.sem = (SelectFn.mk p).toFn) (leaves : List Filler)
    {children : List Child} {c : Child} (hc : children[p]? = some c) :
    ∃ c', r.results ctx ex leaves children = [.ok c'] ∧ c'.meaning = c.meaning := by
  have hchild : (SelectFn.mk p).apply ⟨Filler.start leaves, Filler.stop leaves, children⟩ = .single c.pass := by
    unfold SelectFn.apply Call.child
    rw [hc]
    rfl
  unfold Rule.results
  rw [hr]
  show ∃ c', mapOk _ ((SelectFn.mk p).apply _).items = _ ∧ _
  rw [hchild]
  exact ⟨_, rfl, rfl⟩

/-- The first child of each is passed on. -/
theorem results_select_each {r : Rule} (hr : r.sem = (SelectFn.mk 0).toFn) (leaves : List Filler)
    (more : List Child) {outs : Outcomes (List Child)} {results : Outcomes Meaning}
    (h : mapOk (List.map Child.meaning) outs = mapOk ([·]) results) :
    mapOk Child.meaning (onEach (mapOk (· ++ more) outs) (r.results ctx ex leaves)) = results := by
  induction outs generalizing results with
  | nil => cases results with
    | nil => rfl
    | cons result results => cases result <;> simp at h
  | cons out outs ih =>
    match out, results with
    | .ok children, .ok m :: results =>
      simp only [mapOk_ok, List.cons.injEq, Except.ok.injEq] at h
      obtain ⟨c, rest, rfl, hc, -⟩ := List.map_eq_cons_iff.mp h.1
      obtain ⟨c', hres, hmeans⟩ :=
        results_select ctx ex hr leaves (show (c :: rest ++ more)[0]? = some c from rfl)
      simp only [mapOk_ok, onEach_ok, hres, mapOk_append, ih h.2]
      simp [hmeans, hc]
    | .error e, .error e' :: results =>
      simp only [mapOk_error, List.cons.injEq, Except.error.injEq] at h
      simp only [mapOk_error, onEach_error, ih h.2, h.1]
    | .ok _, .error _ :: _ => simp at h
    | .error _, .ok _ :: _ => simp at h
    | .ok _, [] => simp at h
    | .error _, [] => simp at h

variable (ctx ex) in
theorem results_null {r : Rule} (hr : r.sem = ConstantFn.null.toFn) (leaves : List Filler)
    (children : List Child) :
    ∃ c, r.results ctx ex leaves children = [.ok c] ∧ c.meaning = nullMeaning ctx := by
  unfold Rule.results
  rw [hr]
  exact ⟨_, rfl, rfl⟩

/-- **A pair without an argument on the left** has the right one, or none. -/
theorem carries_pair_nil {r : Rule} {sem : SemanticFn} {lhs : String} {left right : Slot} {slots : List Slot}
    {l : Bool} {children : List Child} {filler : Option Filler} {leaves : List Filler}
    (hne : slots ≠ []) (hr : r.sem = pairFn sem left right l)
    (hopen : ∀ start c, opening start c [.ok c.meaning])
    (hlhs : right.required = false → isCat lhs = true) (hreq : left.required = false)
    (hlen : children.length = if l && isCat left.symbol then 1 else 0)
    (hp : right.Plain) (hf : right.Admits filler) :
    Carries sem ctx ex opening (.join lhs left right) (slots ++ [right]) (Filler.start leaves)
      (if right.required then (filler.bind Filler.child?).toList else [])
      (mapOk ([·]) (r.results ctx ex leaves (children ++ (filler.bind Filler.child?).toList))) := by
  by_cases hright : right.required = true
  · obtain ⟨c, rfl⟩ := hp.exists_child hright hf
    have hsem : r.sem = (SelectFn.mk children.length).toFn := by
      rw [hr, hlen]
      unfold pairFn
      rw [hreq, hright]
      cases l <;> cases isCat left.symbol <;> rfl
    have hc : (children ++ [c])[children.length]? = some c := by simp
    obtain ⟨c', hres, hmeans⟩ := results_select ctx ex hsem leaves hc
    rw [if_pos hright]
    show Carries sem ctx ex opening _ _ _ [c] (mapOk _ (r.results ctx ex leaves (children ++ [c])))
    rw [hres]
    refine ⟨?_, _, _, hopen _ c, .base, ?_⟩
    · show (left.required || right.required) = true
      rw [hright, Bool.or_true]
    · simp [hmeans]
  · have hnot : right.required = false := by simpa using hright
    have hsem : r.sem = ConstantFn.null.toFn := by
      rw [hr]
      unfold pairFn
      rw [hreq, hnot]
      simp
    obtain ⟨c, hres, hmeans⟩ :=
      results_null ctx ex hsem leaves (children ++ (filler.bind Filler.child?).toList)
    rw [if_neg hright, hres]
    refine ⟨?_, [c], rfl, ?_, fun hone => absurd hone (by simp [hne]), fun _ => by simp [hmeans]⟩
    · show (left.required || right.required) = false
      rw [hreq, hnot, Bool.or_false]
    · show [c].length = if isCat lhs then 1 else 0
      rw [hlhs hnot]
      rfl

/-- **A pair with an argument on the left** keeps what is carried, or applies the function to it and the right
one. -/
theorem carries_pair_cons {r : Rule} {sem : SemanticFn} {lhs : String} {left right : Slot}
    {slots slots' : List Slot} {start : Nat} {c : Child} {cs : List Child} {outs : Outcomes (List Child)}
    {filler : Option Filler} {leaves : List Filler} (hr : r.sem = pairFn sem left right true)
    (hleft : Carries sem ctx ex opening left slots start (c :: cs) outs)
    (hp : right.Plain) (hf : right.Admits filler) (hstart : Filler.start leaves = start)
    (hstop : ∀ f, filler = some f → Filler.stop leaves = f.last) :
    Carries sem ctx ex opening (.join lhs left right) slots' start
      ((c :: cs) ++ if right.required then (filler.bind Filler.child?).toList else [])
      (mapOk ([·])
        (onEach (mapOk (· ++ (filler.bind Filler.child?).toList) outs) (r.results ctx ex leaves))) := by
  obtain ⟨hreq, base, results, hbase, hfold, hmeans⟩ := hleft
  have hjoin : (Slot.join lhs left right).required = true := by
    show (left.required || right.required) = true
    rw [hreq, Bool.true_or]
  by_cases hright : right.required = true
  · obtain ⟨d, rfl⟩ := hp.exists_child hright hf
    have hsem : r.sem = sem := by
      rw [hr]
      unfold pairFn
      rw [hreq, hright]
      rfl
    have happlied : ∀ children, Applied sem ctx ex start d.last (children.map Child.meaning ++ [d.meaning])
        (mapOk Child.meaning (r.results ctx ex leaves (children ++ [d]))) := fun children => by
      have h := applied_results ctx ex r leaves (children ++ [d])
      rw [hsem, hstart, hstop _ rfl, List.map_append] at h
      exact h
    have heach := each_onEach happlied outs
    rw [← each_mapOk_iff (fun ms => Applied sem ctx ex start d.last (ms ++ [d.meaning])) (List.map Child.meaning),
      hmeans, each_mapOk_iff] at heach
    rw [if_pos hright]
    refine ⟨hjoin, base, _, hbase, .step hfold heach, ?_⟩
    show mapOk _ (mapOk _ (onEach (mapOk (· ++ [d]) outs) _)) = _
    rw [onEach_mapOk, ← mapOk_onEach, mapOk_mapOk, mapOk_mapOk]
    rfl
  · have hnot : right.required = false := by simpa using hright
    have hsem : r.sem = (SelectFn.mk 0).toFn := by
      rw [hr]
      unfold pairFn
      rw [hreq, hnot]
      simp
    rw [if_neg hright, List.append_nil]
    refine ⟨hjoin, base, results, hbase, hfold, ?_⟩
    rw [mapOk_mapOk, ← results_select_each hsem leaves _ hmeans, mapOk_mapOk]
    rfl

/-- What comes out for the members of a pair that are there. -/
theorem derivesAll_shownPair_iff {left right : Slot} (hr : kinds.OnlyGiven right.symbol) {l b : Bool}
    {leaves : List Filler} {outs : Outcomes (List Child)} (hlb : l = true ∨ b = true) :
    DerivesAll rules kinds ctx ex (left.shownPair right (l, b)) leaves outs ↔
      ∃ leaves' outs' filler, leaves = leaves' ++ filler.toList ∧
        outs = mapOk (· ++ (filler.bind Filler.child?).toList) outs' ∧
        (if l then DerivesAll rules kinds ctx ex [left.symbol] leaves' outs'
          else leaves' = [] ∧ outs' = [.ok []]) ∧
        if b then ∃ f : Filler, filler = some f ∧ f.symbol = right.symbol ∧ f.Fits else filler = none := by
  cases l with
  | true =>
    cases b with
    | true =>
      show DerivesAll rules kinds ctx ex [left.symbol, right.symbol] leaves outs ↔ _
      rw [derivesAll_pair_iff hr]
      constructor
      · rintro ⟨leaves', outs', f, h, hs, hf, rfl, rfl⟩
        exact ⟨leaves', outs', some f, rfl, rfl, h, f, rfl, hs, hf⟩
      · rintro ⟨leaves', outs', filler, rfl, rfl, h, f, rfl, hs, hf⟩
        exact ⟨leaves', outs', f, h, hs, hf, rfl, rfl⟩
    | false =>
      show DerivesAll rules kinds ctx ex [left.symbol] leaves outs ↔ _
      constructor
      · intro h
        exact ⟨leaves, outs, none, by simp, by simp, h, rfl⟩
      · rintro ⟨leaves', outs', filler, rfl, rfl, h, rfl⟩
        simpa using h
  | false =>
    obtain rfl : b = true := hlb.resolve_left (by simp)
    show DerivesAll rules kinds ctx ex [right.symbol] leaves outs ↔ _
    rw [derivesAll_single_iff hr]
    constructor
    · rintro ⟨f, hs, hf, rfl, rfl⟩
      exact ⟨[], [.ok []], some f, rfl, rfl, ⟨rfl, rfl⟩, f, rfl, hs, hf⟩
    · rintro ⟨leaves', outs', filler, rfl, rfl, ⟨rfl, rfl⟩, f, rfl, hs, hf⟩
      exact ⟨f, hs, hf, rfl, rfl⟩

/-! ## Pairs -/

/-- **Derivations over fillings of slots**: each derivation is over one of them, and for each that leaves something
there is a derivation, with what is said to come out, given the span and the arguments. -/
structure Interprets {α : Type} (derives : List Filler → Outcomes α → Prop) (slots : List Slot)
    (what : Nat → Nat → List Child → Outcomes α → Prop) : Prop where
  sound : ∀ {leaves outs}, derives leaves outs → ∃ fill, List.Forall₂ Slot.Admits slots fill ∧
    fill.reduceOption = leaves ∧ leaves ≠ [] ∧
    what (Filler.start leaves) (Filler.stop leaves) (arguments slots fill) outs
  complete : ∀ {fill}, List.Forall₂ Slot.Admits slots fill → fill.reduceOption ≠ [] →
    ∃ outs, derives fill.reduceOption outs ∧
      what (Filler.start fill.reduceOption) (Filler.stop fill.reduceOption) (arguments slots fill) outs

theorem Interprets.imp {α : Type} {derives : List Filler → Outcomes α → Prop} {slots : List Slot}
    {what what' : Nat → Nat → List Child → Outcomes α → Prop} (h : Interprets derives slots what)
    (himp : ∀ {first last fill outs}, List.Forall₂ Slot.Admits slots fill →
      what first last (arguments slots fill) outs → what' first last (arguments slots fill) outs) :
    Interprets derives slots what' where
  sound hd := by
    obtain ⟨fill, hfill, hleaves, hthere, hwhat⟩ := h.sound hd
    exact ⟨fill, hfill, hleaves, hthere, himp hfill hwhat⟩
  complete hfill hthere := by
    obtain ⟨outs, hd, hwhat⟩ := h.complete hfill hthere
    exact ⟨outs, hd, himp hfill hwhat⟩

/-- What comes out for a category, as for a right-hand side of which it is the only symbol. -/
def DerivesOne (rules : List Rule) (kinds : Kinds) (ctx : SemContext) (ex : Example) (cat : String)
    (leaves : List Filler) (outs : Outcomes (List Child)) : Prop :=
  ∃ outs', Derives rules kinds ctx ex cat leaves outs' ∧ outs = mapOk ([·]) outs'

theorem derivesOne_of_fresh {cat : String} (h : kinds.OnlyFresh cat) :
    DerivesOne rules kinds ctx ex cat = DerivesAll rules kinds ctx ex [cat] := by
  funext leaves outs
  exact propext (derivesAll_fresh_iff h).symm

/-- If nothing is there, every slot is optional, and there is no argument. -/
theorem all_optional_of_reduceOption_eq_nil {slots : List Slot} {fill : List (Option Filler)}
    (h : List.Forall₂ Slot.Admits slots fill) (hn : fill.reduceOption = []) :
    (∀ slot ∈ slots, slot.optional = true) ∧ arguments slots fill = [] := by
  induction h with
  | nil => exact ⟨by simp, rfl⟩
  | @cons slot filler slots fill hf _ ih =>
    cases filler with
    | some f => simp at hn
    | none =>
      obtain ⟨hall, hargs⟩ := ih (by simpa using hn)
      refine ⟨List.forall_mem_cons.mpr ⟨hf, hall⟩, ?_⟩
      rw [arguments, hargs]
      simp

/-- A pair with nothing on the left, or with what the left slot carries. -/
theorem Carries.pair {r : Rule} {sem : SemanticFn} {lhs : String} {left right : Slot} {slots : List Slot}
    {l : Bool} {leaves : List Filler} {args : List Child} {outs : Outcomes (List Child)} {filler : Option Filler}
    (hslots : slots ≠ []) (hr : r.sem = pairFn sem left right l)
    (hopen : left.required = false → ∀ start c, opening start c [.ok c.meaning])
    (hlhs : left.required = false → right.required = false → isCat lhs = true)
    (hp : right.Plain) (hf : right.Admits filler)
    (hleft : if l then leaves ≠ [] ∧ Carries sem ctx ex opening left slots (Filler.start leaves) args outs
      else left.required = false ∧ args = [] ∧ outs = [.ok []]) :
    Carries sem ctx ex opening (.join lhs left right) (slots ++ [right]) (Filler.start (leaves ++ filler.toList))
      (args ++ if right.required then (filler.bind Filler.child?).toList else [])
      (mapOk ([·]) (onEach (mapOk (· ++ (filler.bind Filler.child?).toList) outs)
        (r.results ctx ex (leaves ++ filler.toList)))) := by
  have hnil : ∀ {children : List Child}, left.required = false →
      (children.length = if l && isCat left.symbol then 1 else 0) →
      Carries sem ctx ex opening (.join lhs left right) (slots ++ [right]) (Filler.start (leaves ++ filler.toList))
        ([] ++ if right.required then (filler.bind Filler.child?).toList else [])
        (mapOk ([·]) (onEach (mapOk (· ++ (filler.bind Filler.child?).toList) [.ok children])
          (r.results ctx ex (leaves ++ filler.toList)))) := fun hreq hlen => by
    rw [mapOk_ok, mapOk_nil, onEach_ok, onEach_nil, List.append_nil, List.nil_append]
    exact carries_pair_nil hslots hr (hopen hreq) (hlhs hreq) hreq hlen hp hf
  cases l with
  | false =>
    obtain ⟨hreq, rfl, rfl⟩ := hleft
    exact hnil hreq rfl
  | true =>
    obtain ⟨hne, hleft⟩ := hleft
    rw [Filler.start_append hne]
    cases args with
    | nil =>
      obtain ⟨hreq, children, rfl, hlen, -, -⟩ := hleft
      rw [← Filler.start_append hne filler.toList]
      exact hnil hreq hlen
    | cons c cs =>
      refine carries_pair_cons hr hleft hp hf (Filler.start_append hne _) fun f hfiller => ?_
      rw [hfiller]
      exact Filler.stop_concat leaves f

/-- **The derivations of a pair**: one of its rules with what comes out for the members that are there. -/
theorem derives_pair_iff {rule : Rule} {lhs : String} {left right : Slot} (hright : kinds.OnlyGiven right.symbol)
    (hrules : ∀ r, r ∈ rules ∧ r.lhs = lhs ↔ r ∈ rule.pairRules lhs left right) {leaves : List Filler}
    {outs : Outcomes Child} :
    Derives rules kinds ctx ex lhs leaves outs ↔
      ∃ (l : Bool) (leaves' : List Filler) (outs' : Outcomes (List Child)) (filler : Option Filler),
        (left.optional = true ∨ l = true) ∧ right.Admits filler ∧ (l = true ∨ filler.isSome = true) ∧
        (if l then DerivesAll rules kinds ctx ex [left.symbol] leaves' outs'
          else leaves' = [] ∧ outs' = [.ok []]) ∧
        leaves = leaves' ++ filler.toList ∧
        outs = onEach (mapOk (· ++ (filler.bind Filler.child?).toList) outs')
          ((rule.derive lhs (left.shownPair right (l, filler.isSome)) (pairFn rule.sem left right l)).results
            ctx ex (leaves' ++ filler.toList)) := by
  rw [derives_iff]
  constructor
  · rintro ⟨r, hr, hlhs, outs', hall, rfl⟩
    have hmem := (hrules r).mp ⟨hr, hlhs⟩
    rw [pairRules_eq] at hmem
    obtain ⟨⟨l, b⟩, hpresent, rfl⟩ := List.mem_map.mp hmem
    obtain ⟨hl, hb, hlb⟩ := mem_presencePairs.mp hpresent
    obtain ⟨leaves, outs, filler, rfl, rfl, hl', hb'⟩ := (derivesAll_shownPair_iff hright hlb).mp hall
    cases b with
    | true =>
      obtain ⟨f, rfl, hs, hf⟩ := hb'
      exact ⟨l, leaves, outs, some f, hl, ⟨hs, hf⟩, hlb, hl', rfl, rfl⟩
    | false =>
      obtain rfl : filler = none := hb'
      exact ⟨l, leaves, outs, none, hl, hb.resolve_right (by simp), hlb, hl', rfl, rfl⟩
  · rintro ⟨l, leaves, outs, filler, hl, hadmits, hlb, hl', rfl, rfl⟩
    have hpresent : (l, filler.isSome) ∈ presencePairs left.optional right.optional := by
      refine mem_presencePairs.mpr ⟨hl, ?_, hlb⟩
      cases filler with
      | none => exact Or.inl hadmits
      | some f => exact Or.inr rfl
    obtain ⟨hr, hlhs⟩ := (hrules (rule.derive lhs (left.shownPair right (l, filler.isSome))
      (pairFn rule.sem left right l))).mpr (by
        rw [pairRules_eq]
        exact List.mem_map_of_mem hpresent)
    refine ⟨_, hr, hlhs, _, (derivesAll_shownPair_iff hright hlb).mpr ⟨_, _, filler, rfl, rfl, hl', ?_⟩, rfl⟩
    cases filler with
    | none => rfl
    | some f => exact ⟨f, rfl, hadmits⟩

/-- **A pair stands for its members.** -/
theorem Interprets.pair (rule : Rule) (lhs : String) {left right : Slot} {slots : List Slot}
    (hstands : left.StandsFor slots)
    (hleft : Interprets (DerivesAll rules kinds ctx ex [left.symbol]) slots fun first _ =>
      Carries rule.sem ctx ex opening left slots first)
    (hopen : left.required = false → ∀ start c, opening start c [.ok c.meaning])
    (hlhs : left.required = false → right.required = false → isCat lhs = true)
    (hright : kinds.OnlyGiven right.symbol) (hp : right.Plain)
    (hrules : ∀ r, r ∈ rules ∧ r.lhs = lhs ↔ r ∈ rule.pairRules lhs left right) :
    Interprets (DerivesOne rules kinds ctx ex lhs) (slots ++ [right]) fun first _ =>
      Carries rule.sem ctx ex opening (.join lhs left right) (slots ++ [right]) first where
  sound := by
    rintro leaves outs ⟨outs', hd, rfl⟩
    obtain ⟨l, leaves, outs, filler, hl, hadmits, hlb, hl', rfl, rfl⟩ := (derives_pair_iff hright hrules).mp hd
    cases l with
    | true =>
      obtain ⟨fill, hfill, rfl, hthere, hcarries⟩ := hleft.sound hl'
      refine ⟨fill ++ [filler], forall₂_concat_iff.mpr ⟨fill, filler, rfl, hfill, hadmits⟩, ?_,
        by simp [hthere], ?_⟩
      · rw [List.reduceOption_append, List.reduceOption_singleton]
      · rw [arguments_concat hfill]
        exact Carries.pair hstands.ne_nil rfl hopen hlhs hp hadmits ⟨hthere, hcarries⟩
    | false =>
      -- nothing is there for the slots on the left
      obtain ⟨rfl, rfl⟩ := hl'
      obtain ⟨f, rfl⟩ := Option.isSome_iff_exists.mp (hlb.resolve_left (by simp))
      have hlo : left.optional = true := hl.resolve_right (by simp)
      have hall : List.Forall₂ Slot.Admits slots (slots.map fun _ => none) :=
        List.forall₂_map_right_iff.mpr (List.forall₂_same.mpr (hstands.optional_iff.mp hlo))
      have hnone : (slots.map fun _ => (none : Option Filler)).reduceOption = [] := by
        simp
      obtain ⟨-, hargs⟩ := all_optional_of_reduceOption_eq_nil hall hnone
      refine ⟨_ ++ [some f], forall₂_concat_iff.mpr ⟨_, _, rfl, hall, hadmits⟩, ?_, by simp, ?_⟩
      · rw [List.reduceOption_append, List.reduceOption_singleton, hnone]
      · rw [arguments_concat hall]
        exact Carries.pair hstands.ne_nil rfl hopen hlhs hp hadmits
          ⟨hstands.required_eq_false hlo, hargs, rfl⟩
  complete := by
    intro fill hfill hthere
    obtain ⟨fill, filler, rfl, hfill, hadmits⟩ := forall₂_concat_iff.mp hfill
    rw [List.reduceOption_append, List.reduceOption_singleton] at hthere ⊢
    rw [arguments_concat hfill]
    by_cases hn : fill.reduceOption = []
    · obtain ⟨hall, hargs⟩ := all_optional_of_reduceOption_eq_nil hfill hn
      have hlo := hstands.optional_iff.mpr hall
      have hsome : filler.isSome = true := by
        rw [hn] at hthere
        cases filler with
        | none => exact absurd rfl hthere
        | some f => rfl
      exact ⟨_, ⟨_, (derives_pair_iff hright hrules).mpr
          ⟨false, _, _, filler, Or.inl hlo, hadmits, Or.inr hsome, ⟨hn, rfl⟩, rfl, rfl⟩, rfl⟩,
        Carries.pair hstands.ne_nil rfl hopen hlhs hp hadmits ⟨hstands.required_eq_false hlo, hargs, rfl⟩⟩
    · obtain ⟨outs, hd, hcarries⟩ := hleft.complete hfill hn
      exact ⟨_, ⟨_, (derives_pair_iff hright hrules).mpr
          ⟨true, _, _, filler, Or.inr rfl, hadmits, Or.inl rfl, hd, rfl, rfl⟩, rfl⟩,
        Carries.pair hstands.ne_nil rfl hopen hlhs hp hadmits ⟨hn, hcarries⟩⟩

/-- **What comes out in the end**, given whether there is but one slot. A function that was not applied to two
arguments is applied to the first one, if there is any. -/
def Finished (sem : SemanticFn) (ctx : SemContext) (ex : Example) (opening : Opening) (alone : Bool)
    (first last : Nat) : List Child → Outcomes Meaning → Prop
  | [], outs => Applied sem ctx ex first last (if alone then [] else [nullMeaning ctx]) outs
  | [c], outs => ∃ base, opening first c base ∧ Each (fun m => Applied sem ctx ex first last [m]) base outs
  | c :: cs, outs => ∃ base, opening first c base ∧ LeftFold sem ctx ex first base cs outs

theorem isCat_freshCat (n : Nat) : isCat (freshCat n) = true := by
  have h : (freshCat n).toList = '$' :: ("Intermediate".toList ++ (Nat.repr n).toList) := by
    show ("$Intermediate" ++ Nat.repr n).toList = _
    rw [String.toList_append]
    rfl
  unfold isCat
  rw [h]
  rfl

/-- **A rule that is applied to one slot** finishes what the slot carries. -/
theorem Interprets.single {rule r : Rule} {left : Slot} {slots : List Slot}
    (hleft : Interprets (DerivesAll rules kinds ctx ex [left.symbol]) slots fun first _ =>
      Carries rule.sem ctx ex opening left slots first)
    (hp : ∀ slot ∈ slots, slot.Plain) (hcount : slots.countP Slot.required ≤ 1)
    (hsome : ∃ slot ∈ slots, slot.optional = false)
    (hr : r.rhs = [left.symbol]) (hsem : r.sem = rule.sem)
    (hrules : ∀ r', r' ∈ rules ∧ r'.lhs = r.lhs ↔ r' = r) :
    Interprets (Derives rules kinds ctx ex r.lhs) slots fun first last args outs =>
      Finished rule.sem ctx ex opening (slots.length == 1) first last args (mapOk Child.meaning outs) := by
  -- what the rule makes of what the slot carries
  have hfinish : ∀ {fill : List (Option Filler)} {leaves : List Filler} {outs : Outcomes (List Child)},
      List.Forall₂ Slot.Admits slots fill →
      Carries rule.sem ctx ex opening left slots (Filler.start leaves) (arguments slots fill) outs →
      Finished rule.sem ctx ex opening (slots.length == 1) (Filler.start leaves) (Filler.stop leaves)
        (arguments slots fill) (mapOk Child.meaning (onEach outs (r.results ctx ex leaves))) := by
    intro fill leaves outs hfill hcarries
    have hlen := length_arguments hp hfill
    have happlied : ∀ children, Applied rule.sem ctx ex (Filler.start leaves) (Filler.stop leaves)
        (children.map Child.meaning) (mapOk Child.meaning (r.results ctx ex leaves children)) := fun children => by
      rw [← hsem]
      exact applied_results ctx ex r leaves children
    match hargs : arguments slots fill, hcarries with
    | [], hcarries =>
      obtain ⟨hreq, children, rfl, -, hone, hmany⟩ := hcarries
      have h := happlied children
      rw [onEach_ok, onEach_nil, List.append_nil]
      unfold Finished
      by_cases hs : slots.length = 1
      · obtain ⟨slot, rfl⟩ := List.length_eq_one_iff.mp hs
        obtain ⟨slot', hmem, hopt⟩ := hsome
        rw [List.mem_singleton] at hmem
        subst hmem
        obtain rfl := hone hs (by simpa using hopt)
        exact h
      · rw [hmany hs] at h
        rwa [if_neg (by simpa using hs)]
    | [c], hcarries =>
      obtain ⟨-, base, results, hbase, hfold, hmeans⟩ := hcarries
      obtain rfl := leftFold_nil_iff.mp hfold
      have heach := each_onEach happlied outs
      rw [← each_mapOk_iff (Applied rule.sem ctx ex (Filler.start leaves) (Filler.stop leaves))
          (List.map Child.meaning),
        hmeans, each_mapOk_iff] at heach
      rw [mapOk_onEach]
      exact ⟨results, hbase, heach⟩
    | c :: d :: cs, _ =>
      rw [hargs] at hlen
      simp at hlen
      omega
  constructor
  · intro leaves outs hd
    obtain ⟨r', hr', hlhs, outs', hall, rfl⟩ := derives_iff.mp hd
    obtain rfl := (hrules r').mp ⟨hr', hlhs⟩
    rw [hr] at hall
    obtain ⟨fill, hfill, hleaves, hthere, hcarries⟩ := hleft.sound hall
    exact ⟨fill, hfill, hleaves, hthere, hfinish hfill hcarries⟩
  · intro fill hfill hthere
    obtain ⟨outs, hd, hcarries⟩ := hleft.complete hfill hthere
    rw [← hr] at hd
    exact ⟨_, .rewrite ((hrules r).mpr rfl).1 hd, hfinish hfill hcarries⟩

/-- **A pair that is the last one** has finished, if the function was applied. -/
theorem Interprets.finish {sem : SemanticFn} {cat : String} (left : Slot) {slots : List Slot}
    (h : Interprets (DerivesOne rules kinds ctx ex cat) slots fun first _ =>
      Carries sem ctx ex opening left slots first)
    (hp : ∀ slot ∈ slots, slot.Plain) (hcount : 2 ≤ slots.countP Slot.required) :
    Interprets (Derives rules kinds ctx ex cat) slots fun first last args outs =>
      Finished sem ctx ex opening (slots.length == 1) first last args (mapOk Child.meaning outs) := by
  have hfinish : ∀ {fill : List (Option Filler)} {first last : Nat} {outs : Outcomes Child},
      List.Forall₂ Slot.Admits slots fill →
      Carries sem ctx ex opening left slots first (arguments slots fill) (mapOk ([·]) outs) →
      Finished sem ctx ex opening (slots.length == 1) first last (arguments slots fill)
        (mapOk Child.meaning outs) := by
    intro fill first last outs hfill hcarries
    have hlen := length_arguments hp hfill
    match hargs : arguments slots fill, hcarries with
    | [], _ =>
      rw [hargs] at hlen
      simp at hlen
      omega
    | [c], _ =>
      rw [hargs] at hlen
      simp at hlen
      omega
    | c :: d :: cs, hcarries =>
      obtain ⟨-, base, results, hbase, hfold, hmeans⟩ := hcarries
      rw [mapOk_mapOk] at hmeans
      have hsame : mapOk Child.meaning outs = results := by
        refine mapOk_injective (f := fun m : Meaning => [m]) (fun a b h => by simpa using h) ?_
        rw [← hmeans, mapOk_mapOk]
        rfl
      rw [hsame]
      exact ⟨base, hbase, hfold⟩
  constructor
  · intro leaves outs hd
    obtain ⟨fill, hfill, hleaves, hthere, hcarries⟩ := h.sound ⟨outs, hd, rfl⟩
    exact ⟨fill, hfill, hleaves, hthere, hfinish hfill hcarries⟩
  · intro fill hfill hthere
    obtain ⟨_, ⟨outs, hd, rfl⟩, hcarries⟩ := h.complete hfill hthere
    exact ⟨outs, hd, hfinish hfill hcarries⟩

/-! ## Cascades -/

namespace Rule

/-- **The rules for a category** and for fresh ones with certain numbers, which it is not one of. -/
structure RulesFor (rules : List Rule) (lhs : String) (n m : Nat) (l : List Rule) : Prop where
  not_fresh : ¬ IsFreshBetween n m lhs
  mem_iff : ∀ r, r ∈ rules ∧ (r.lhs = lhs ∨ IsFreshBetween n m r.lhs) ↔ r ∈ l

section Chain

variable {lhs : String} {n k m : Nat} {l l' : List Rule}

theorem Emits.rulesFor (h : Emits lhs n m l) (hlhs : ¬ IsFreshBetween n m lhs) : RulesFor l lhs n m l where
  not_fresh := hlhs
  mem_iff r := ⟨And.left, fun hr => ⟨hr, h.lhs r hr⟩⟩

/-- If no fresh category was handed out, these are all rules for the category itself. -/
theorem RulesFor.mem_lhs_iff (h : RulesFor rules lhs n n l) (r : Rule) : r ∈ rules ∧ r.lhs = lhs ↔ r ∈ l := by
  rw [← h.mem_iff r, or_iff_left]
  exact fun hs => hs.disjoint hs (Nat.le_refl n)

/-- The earlier ones are the rules for the category that is handed out next. -/
theorem RulesFor.lower (hrules : RulesFor rules lhs n m (l ++ l')) (h : Emits (freshCat (n + 1)) (n + 1) k l)
    (h' : Emits lhs k m l') : RulesFor rules (freshCat (n + 1)) (n + 1) k l where
  not_fresh hs := (isFreshBetween_next (Nat.le_refl (n + 1))).disjoint hs (Nat.le_refl (n + 1))
  mem_iff r := by
    constructor
    · rintro ⟨hr, hl⟩
      have hfresh : IsFreshBetween n m r.lhs := by
        rcases hl with he | hs
        · exact he ▸ isFreshBetween_next (Nat.le_trans h.le h'.le)
        · exact hs.mono (Nat.le_succ n) h'.le
      refine (List.mem_append.mp ((hrules.mem_iff r).mp ⟨hr, Or.inr hfresh⟩)).resolve_right fun hr' => ?_
      obtain ⟨hne, hnot⟩ := h.apart_lower h' hrules.not_fresh r hr'
      exact hl.elim hne hnot
    · intro hr
      exact ⟨((hrules.mem_iff r).mpr (List.mem_append_left _ hr)).1, h.lhs r hr⟩

/-- The later ones are the rules for the category itself. -/
theorem RulesFor.higher (hrules : RulesFor rules lhs n m (l ++ l')) (h : Emits (freshCat (n + 1)) (n + 1) k l)
    (h' : Emits lhs k m l') : RulesFor rules lhs k m l' where
  not_fresh hs := hrules.not_fresh (hs.mono (Nat.le_of_succ_le h.le) (Nat.le_refl m))
  mem_iff r := by
    constructor
    · rintro ⟨hr, hl⟩
      have hl' := hl.imp_right fun hs => hs.mono (Nat.le_of_succ_le h.le) (Nat.le_refl m)
      refine (List.mem_append.mp ((hrules.mem_iff r).mp ⟨hr, hl'⟩)).resolve_left fun hr' => ?_
      obtain ⟨hne, hnot⟩ := h.apart_higher h' hrules.not_fresh r hr'
      exact hl.elim hne hnot
    · intro hr
      exact ⟨((hrules.mem_iff r).mpr (List.mem_append_right _ hr)).1, h'.lhs r hr⟩

end Chain

/-- **A cascade computes** what its left-most slot has for its arguments and the function makes of that and the
other ones. The induction is on the slots to the right; what is paired so far is interpreted by the rules before. -/
theorem interprets_pairUp {rule : Rule} {left : Slot} {applied : Bool} {n : Nat} {rest slots : List Slot}
    (hfresh : ∀ s, IsFreshBetween n (rule.pairUp left applied n rest).2 s → kinds.OnlyFresh s)
    (hrules : RulesFor rules rule.lhs n (rule.pairUp left applied n rest).2 (rule.pairUp left applied n rest).1)
    (hleft : Interprets (DerivesAll rules kinds ctx ex [left.symbol]) slots fun first _ =>
      Carries rule.sem ctx ex opening left slots first)
    (hstands : left.StandsFor slots) (happ : applied = decide (2 ≤ slots.countP Slot.required))
    (hopen : left.required = false → ∀ start c, opening start c [.ok c.meaning])
    (hrest : ∀ slot ∈ rest, kinds.OnlyGiven slot.symbol) (hp : ∀ slot ∈ rest, slot.Plain)
    (hsome : ∃ slot ∈ slots ++ rest, slot.optional = false) (happlied : ¬ (rest = [] ∧ applied = true)) :
    Interprets (Derives rules kinds ctx ex rule.lhs) (slots ++ rest) fun first last args outs =>
      Finished rule.sem ctx ex opening ((slots ++ rest).length == 1) first last args
        (mapOk Child.meaning outs) := by
  induction rest generalizing left applied n slots with
  | nil =>
    obtain rfl : applied = false := by simpa using happlied
    have hcount : slots.countP Slot.required ≤ 1 := by
      have := of_decide_eq_false happ.symm
      omega
    rw [List.append_nil] at hsome ⊢
    exact hleft.single (r := rule.derive rule.lhs [left.symbol] rule.sem) hstands.plain hcount hsome rfl rfl
      fun r => (hrules.mem_lhs_iff r).trans List.mem_singleton
  | cons right rest ih =>
    have hright : kinds.OnlyGiven right.symbol := hrest right List.mem_cons_self
    have hplain : right.Plain := hp right List.mem_cons_self
    have happ' : (applied || (left.required && right.required)) =
        decide (2 ≤ (slots ++ [right]).countP Slot.required) := by
      rw [hstands.two_le_concat, happ]
    by_cases hlast : rest = [] ∧ (applied || (left.required && right.required)) = true
    · -- the last pair makes the category of the rule itself
      obtain ⟨rfl, h⟩ := hlast
      rw [pairUp_last rule h] at hrules
      have hcount : 2 ≤ (slots ++ [right]).countP Slot.required := of_decide_eq_true (happ'.symm.trans h)
      have hargs : left.required = false → right.required = false → isCat rule.lhs = true := fun hl hr => by
        have hnone := of_decide_eq_false (hstands.required_eq.symm.trans hl)
        rw [Slot.StandsFor.countP_concat, hr] at hcount
        simp at hcount
        omega
      exact Interprets.finish _ (Interprets.pair rule rule.lhs hstands hleft hopen hargs hright hplain
        hrules.mem_lhs_iff) (hstands.join hplain rule.lhs).plain hcount
    · rw [pairUp_step rule hlast] at hfresh hrules
      dsimp only at hfresh hrules
      have hpairs := emits_pairRules rule (freshCat (n + 1)) left right (n + 1)
      have hlater := emits_pairUp rule (.join (freshCat (n + 1)) left right)
        (applied || (left.required && right.required)) (n + 1) rest
      have hpair := Interprets.pair rule (freshCat (n + 1)) hstands hleft hopen
        (fun _ _ => isCat_freshCat (n + 1)) hright hplain (hrules.lower hpairs hlater).mem_lhs_iff
      rw [derivesOne_of_fresh (hfresh _ (isFreshBetween_next hlater.le))] at hpair
      rw [List.append_cons] at hsome ⊢
      exact ih (fun s hs => hfresh s (hs.mono (Nat.le_succ n) (Nat.le_refl _))) (hrules.higher hpairs hlater) hpair
        (hstands.join hplain _) happ' (fun hj => hopen (Bool.or_eq_false_iff.mp hj).1)
        (fun slot hs => hrest slot (List.mem_cons_of_mem _ hs))
        (fun slot hs => hp slot (List.mem_cons_of_mem _ hs)) hsome hlast

/-- **The cascade of a rule**, the first slot of which may stand for several. -/
theorem interprets_cascade (rule : Rule) {first : Slot} {n : Nat} {rest slots : List Slot}
    (hrhs : rule.rhs = (first :: rest).map Slot.symbol)
    (hfresh : ∀ s, IsFreshBetween n (rule.cascade (first :: rest) n).2 s → kinds.OnlyFresh s)
    (hrules : RulesFor rules rule.lhs n (rule.cascade (first :: rest) n).2 (rule.cascade (first :: rest) n).1)
    (hfirst : Interprets (DerivesAll rules kinds ctx ex [first.symbol]) slots fun start _ =>
      Carries rule.sem ctx ex opening first slots start)
    (hstands : first.StandsFor slots) (hone : slots.countP Slot.required ≤ 1)
    (hopen : first.required = false → ∀ start c, opening start c [.ok c.meaning])
    (hrest : ∀ slot ∈ rest, kinds.OnlyGiven slot.symbol) (hp : ∀ slot ∈ rest, slot.Plain)
    (hsome : ∃ slot ∈ slots ++ rest, slot.optional = false) :
    Interprets (Derives rules kinds ctx ex rule.lhs) (slots ++ rest) fun start stop args outs =>
      Finished rule.sem ctx ex opening ((slots ++ rest).length == 1) start stop args
        (mapOk Child.meaning outs) := by
  cases rest with
  | cons second rest =>
    refine interprets_pairUp hfresh hrules hfirst hstands ?_ hopen hrest hp hsome (by simp)
    rw [eq_comm, decide_eq_false_iff_not]
    omega
  | nil =>
    rw [List.append_nil] at hsome ⊢
    exact hfirst.single hstands.plain hone hsome hrhs rfl
      fun r => (RulesFor.mem_lhs_iff hrules r).trans List.mem_singleton

end Rule

end Parlance
