import Parlance.Proofs.Cascade

/-!
# `Proofs.Computation` — what the rules for two symbols compute

The rules that stand for a rule compute the left fold of its semantic function over its required categories; a
function that carries its first argument is applied to the first one of them, and what comes out to the others. A
right-hand side without required categories gives the function the null constant, unless it is a single word. This
needs that none of the symbols is also handed out as a fresh category, because then derivations mix both up.

## Contents
- **Rules.** `binarize_cases`, `Computes`, and `interprets_binarize`.
- **Stand-ins.** `standsIn_binarize`: what selects an argument finds it.
- **The whole statement**, `binarize_computes`, and what goes wrong if a symbol is a fresh category.
-/

namespace Parlance

variable {rules : List Rule} {kinds : Kinds} {ctx : SemContext} {ex : Example} {opening : Opening}

namespace Rule

/-! ## Rules -/

/-- A slot carries its own child, or a word. -/
theorem interprets_slot {sem : SemanticFn} {slot : Slot} (hp : slot.Plain) (h : kinds.OnlyGiven slot.symbol) :
    Interprets (DerivesAll rules kinds ctx ex [slot.symbol]) [slot] fun first _ =>
      Carries sem ctx ex asItIs slot [slot] first := by
  have hcarries : ∀ {f : Filler} {first : Nat}, slot.Admits (some f) →
      Carries sem ctx ex asItIs slot [slot] first (arguments [slot] [some f]) [.ok f.child?.toList] := by
    intro f first hf
    by_cases hr : slot.required = true
    · obtain ⟨c, hc⟩ := hp.exists_child hr hf
      obtain rfl := Option.some.inj hc
      show Carries sem ctx ex asItIs slot [slot] first ((if slot.required then [c] else []) ++ []) [.ok [c]]
      rw [if_pos hr]
      exact ⟨hr, _, _, rfl, .base, rfl⟩
    · have hargs : arguments [slot] [some f] = [] := by
        rw [arguments, if_neg hr]
        rfl
      have hlen : f.child?.toList.length = if isCat slot.symbol then 1 else 0 := hf.1 ▸ hf.2.length_child?
      rw [hargs]
      refine ⟨by simpa using hr, _, rfl, hlen, fun _ hall => ?_, fun hn => absurd rfl hn⟩
      -- a symbol that is no argument although it has to be there is a word
      have hcat : isCat slot.symbol = false := by
        rw [hp.required_iff, not_and', Bool.not_eq_true] at hr
        exact hr (hall slot List.mem_cons_self)
      rw [hcat] at hlen
      exact List.length_eq_zero_iff.mp hlen
  constructor
  · intro leaves outs hd
    obtain ⟨f, hs, hf, rfl, rfl⟩ := (derivesAll_single_iff h).mp hd
    exact ⟨[some f], .cons ⟨hs, hf⟩ .nil, rfl, by simp, hcarries ⟨hs, hf⟩⟩
  · intro fill hfill hne
    obtain ⟨filler, rest, hf, hrest, rfl⟩ := List.forall₂_cons_left_iff.mp hfill
    obtain rfl := List.forall₂_nil_left_iff.mp hrest
    cases filler with
    | none => exact absurd rfl hne
    | some f => exact ⟨_, (derivesAll_single_iff h).mpr ⟨f, hf.1, hf.2, rfl, rfl⟩, hcarries hf⟩

/-- The first argument with the function applied to it. -/
def appliedFirst (sem : SemanticFn) (ctx : SemContext) (ex : Example) : Opening := fun first c =>
  Applied sem ctx ex first c.last [c.meaning]

/-- **The category of the slots up to the first argument** carries the function applied to that argument. -/
theorem Interprets.opened {sem : SemanticFn} (sem' : SemanticFn) {before : List Slot} {first : Slot}
    (joint : Slot) (alone : Bool) (hp : ∀ slot ∈ before ++ [first], slot.Plain)
    (hbefore : ∀ slot ∈ before, slot.required = false)
    (hfirst : first.required = true) (hjoint : joint.required = true) (hfresh : kinds.OnlyFresh joint.symbol)
    (h : Interprets (Derives rules kinds ctx ex joint.symbol) (before ++ [first]) fun start stop args outs =>
      Finished sem ctx ex asItIs alone start stop args (mapOk Child.meaning outs)) :
    Interprets (DerivesAll rules kinds ctx ex [joint.symbol]) (before ++ [first]) fun start _ =>
      Carries sem' ctx ex (appliedFirst sem ctx ex) joint (before ++ [first]) start := by
  have hopened : ∀ {fill : List (Option Filler)} {outs : Outcomes Child},
      List.Forall₂ Slot.Admits (before ++ [first]) fill →
      Finished sem ctx ex asItIs alone (Filler.start fill.reduceOption) (Filler.stop fill.reduceOption)
        (arguments (before ++ [first]) fill) (mapOk Child.meaning outs) →
      Carries sem' ctx ex (appliedFirst sem ctx ex) joint (before ++ [first]) (Filler.start fill.reduceOption)
        (arguments (before ++ [first]) fill) (mapOk ([·]) outs) := by
    intro fill outs hfill hfinished
    obtain ⟨fill, filler, rfl, hbeforeFill, hf⟩ := forall₂_concat_iff.mp hfill
    obtain ⟨c, rfl⟩ := (hp first (by simp)).exists_child hfirst hf
    have hargs : arguments (before ++ [first]) (fill ++ [some (Filler.child c)]) = [c] := by
      have hlen := length_arguments (fun slot hs => hp slot (List.mem_append_left _ hs)) hbeforeFill
      rw [List.countP_eq_zero.mpr (by simpa using hbefore), List.length_eq_zero_iff] at hlen
      rw [arguments_concat hbeforeFill, hlen, if_pos hfirst]
      rfl
    have hstop : Filler.stop (fill ++ [some (Filler.child c)]).reduceOption = c.last := by
      rw [List.reduceOption_append, List.reduceOption_singleton]
      exact Filler.stop_concat _ _
    rw [hargs, hstop] at hfinished
    obtain ⟨_, rfl, heach⟩ := hfinished
    have happlied := each_single_iff.mp heach
    rw [hargs]
    refine ⟨hjoint, _, _, happlied, .base, ?_⟩
    rw [mapOk_mapOk, mapOk_mapOk]
    rfl
  constructor
  · intro leaves outs hd
    obtain ⟨outs, hderives, rfl⟩ := (derivesAll_fresh_iff hfresh).mp hd
    obtain ⟨fill, hfill, rfl, hthere, hfinished⟩ := h.sound hderives
    exact ⟨fill, hfill, rfl, hthere, hopened hfill hfinished⟩
  · intro fill hfill hthere
    obtain ⟨outs, hd, hfinished⟩ := h.complete hfill hthere
    exact ⟨_, (derivesAll_fresh_iff hfresh).mpr ⟨outs, hd, rfl⟩, hopened hfill hfinished⟩

/-- **Where the arguments of a function that carries the first one are split.** -/
theorem splitArguments?_spec (slots : List Slot) :
    match splitArguments? slots with
    | some (before, first, after) => slots = before ++ first :: after ∧
        (∀ slot ∈ before, slot.required = false) ∧ first.required = true ∧
        ∃ slot ∈ after, slot.required = true
    | none => slots.countP Slot.required ≤ 1 := by
  have happ := List.takeWhile_append_dropWhile (p := fun slot : Slot => !slot.required) (l := slots)
  have hbefore : ∀ slot ∈ slots.takeWhile fun slot : Slot => !slot.required, slot.required = false :=
    fun slot hs => by simpa using List.mem_takeWhile_imp hs
  have hhead := List.head?_dropWhile_not (fun slot : Slot => !slot.required) slots
  unfold splitArguments?
  rw [List.span_eq_takeWhile_dropWhile]
  generalize slots.takeWhile (fun slot : Slot => !slot.required) = before at *
  generalize slots.dropWhile (fun slot : Slot => !slot.required) = later at *
  subst happ
  have hnone : before.countP Slot.required = 0 := List.countP_eq_zero.mpr (by simpa using hbefore)
  cases later with
  | nil =>
    show (before ++ []).countP Slot.required ≤ 1
    rw [List.append_nil, hnone]
    exact Nat.zero_le 1
  | cons first after =>
    dsimp only
    by_cases hany : after.any Slot.required = true
    · rw [if_pos hany]
      refine ⟨rfl, hbefore, by simpa using hhead, ?_⟩
      simpa using hany
    · rw [if_neg hany]
      have hafter : after.countP Slot.required = 0 := List.countP_eq_zero.mpr (by simpa using hany)
      show (before ++ first :: after).countP Slot.required ≤ 1
      rw [List.countP_append, List.countP_cons, hnone, hafter]
      split <;> omega

/-- **Which rules a rule becomes**, by its semantic function and its arguments. -/
theorem binarize_cases {rule : Rule} {optionals : List Bool} {n : Nat} {result : List Rule × Nat}
    (h : rule.binarize optionals n = .ok result) :
    (rule.sem.bound = false ∨ (rule.slotsOf optionals).countP Slot.required ≤ 1) ∧
        result = rule.cascade (rule.slotsOf optionals) n ∨
      rule.sem.bound = true ∧ ∃ before first after, rule.slotsOf optionals = before ++ first :: after ∧
        (∀ slot ∈ before, slot.required = false) ∧ first.required = true ∧
        (∃ slot ∈ after, slot.required = true) ∧ result = rule.splitCascades before first after n := by
  have hspec := splitArguments?_spec (rule.slotsOf optionals)
  unfold binarize at h
  split at h
  · cases h
  · dsimp only at h
    cases hb : rule.sem.bound with
    | false =>
      simp only [hb, Bool.false_eq_true, if_false] at h
      split at h
      · cases h
      · exact Or.inl ⟨Or.inl rfl, (Except.ok.inj h).symm⟩
    | true =>
      simp only [hb, if_true] at h
      change (match splitArguments? (rule.slotsOf optionals) with
        | some (before, first, after) => _
        | none => _) = _ at h
      cases hs : splitArguments? (rule.slotsOf optionals) with
      | none =>
        rw [hs] at h hspec
        dsimp only at h
        split at h
        · cases h
        · exact Or.inl ⟨Or.inr hspec, (Except.ok.inj h).symm⟩
      | some split =>
        obtain ⟨before, first, after⟩ := split
        rw [hs] at h hspec
        obtain ⟨hslots, hbefore, hfirst, hafter⟩ := hspec
        exact Or.inr ⟨rfl, before, first, after, hslots, hbefore, hfirst, hafter, (Except.ok.inj h).symm⟩

/-- **What a rule computes** with its arguments: the left fold of its function over them. A function that carries
its first argument is applied to the first one, and what comes out to the others from left to right. -/
def Computes (rule : Rule) (ctx : SemContext) (ex : Example) (first last : Nat) :
    List Child → Outcomes Meaning → Prop
  | [], outs => Applied rule.sem ctx ex first last (if rule.rhs.length = 1 then [] else [nullMeaning ctx]) outs
  | [c], outs => Applied rule.sem ctx ex first last [c.meaning] outs
  | c :: cs, outs =>
    if rule.sem.bound then
      ∃ base, Applied rule.sem ctx ex first c.last [c.meaning] base ∧
        LeftFold JoinFn.forwardBetaReduce.toFn ctx ex first base cs outs
    else LeftFold rule.sem ctx ex first [.ok c.meaning] cs outs

theorem plain_of_mem_slotsOf {rule : Rule} {optionals : List Bool} {slot : Slot}
    (h : slot ∈ rule.slotsOf optionals) : slot.Plain := by
  unfold slotsOf at h
  rw [← List.map_uncurry_zip_eq_zipWith] at h
  obtain ⟨⟨symbol, optional⟩, -, rfl⟩ := List.mem_map.mp h
  rfl

variable (ctx ex) in
/-- What the rules of one cascade compute. -/
theorem interprets_slots (rule : Rule) {slots : List Slot} {n : Nat} (hslots : rule.rhs = slots.map Slot.symbol)
    (hfresh : ∀ s, IsFreshBetween n (rule.cascade slots n).2 s → kinds.OnlyFresh s)
    (hrules : RulesFor rules rule.lhs n (rule.cascade slots n).2 (rule.cascade slots n).1)
    (huser : ∀ slot ∈ slots, kinds.OnlyGiven slot.symbol) (hp : ∀ slot ∈ slots, slot.Plain)
    (hsome : ∃ slot ∈ slots, slot.optional = false) :
    Interprets (Derives rules kinds ctx ex rule.lhs) slots fun first last args outs =>
      Finished rule.sem ctx ex asItIs (slots.length == 1) first last args (mapOk Child.meaning outs) := by
  obtain ⟨head, tail, rfl⟩ : ∃ head tail, slots = head :: tail := by
    obtain ⟨slot, hmem, -⟩ := hsome
    exact List.exists_cons_of_ne_nil (List.ne_nil_of_mem hmem)
  obtain ⟨hplain, hplains⟩ := List.forall_mem_cons.mp hp
  obtain ⟨hgiven, hgivens⟩ := List.forall_mem_cons.mp huser
  refine interprets_cascade rule hslots hfresh hrules (interprets_slot hplain hgiven) (.single hplain) ?_
    (fun _ _ _ => rfl) hgivens hplains hsome
  exact List.countP_le_length

/-- The category that stands for the slots up to the first argument is an argument, as the first one is. -/
theorem standsFor_joint {before : List Slot} {first : Slot} (n : Nat)
    (hp : ∀ slot ∈ before ++ [first], slot.Plain) (hfirst : first.required = true) :
    (Slot.ofSymbol (freshCat n) false).StandsFor (before ++ [first]) where
  ne_nil := by simp
  plain := hp
  optional_iff := by
    have hopt := ((hp first (by simp)).required_iff.mp hfirst).2
    constructor
    · intro h
      cases h
    · intro hall
      cases hopt.symm.trans (hall first (by simp))
  required_eq := by
    have hcount : 1 ≤ (before ++ [first]).countP Slot.required :=
      List.countP_pos_iff.mpr ⟨first, by simp, hfirst⟩
    show (isCat (freshCat n) && !false) = _
    rw [isCat_freshCat, decide_eq_true hcount]
    rfl

variable (ctx ex) in
/-- What the rules of two cascades compute. -/
theorem interprets_splitCascades {rule : Rule} {before after : List Slot} {first : Slot} {n : Nat}
    (hfresh : ∀ s, IsFreshBetween n (rule.splitCascades before first after n).2 s → kinds.OnlyFresh s)
    (hlhs : ¬ IsFreshBetween n (rule.splitCascades before first after n).2 rule.lhs)
    (huser : ∀ slot ∈ before ++ first :: after, kinds.OnlyGiven slot.symbol)
    (hp : ∀ slot ∈ before ++ first :: after, slot.Plain) (hbefore : ∀ slot ∈ before, slot.required = false)
    (hfirst : first.required = true) :
    Interprets (Derives (rule.splitCascades before first after n).1 kinds ctx ex rule.lhs)
      (before ++ first :: after) fun start stop args outs =>
        Finished JoinFn.forwardBetaReduce.toFn ctx ex (appliedFirst rule.sem ctx ex)
          ((before ++ first :: after).length == 1) start stop args (mapOk Child.meaning outs) := by
  rw [List.append_cons] at huser hp ⊢
  obtain ⟨huser, huserAfter⟩ := List.forall_mem_append.mp huser
  obtain ⟨hp, hpAfter⟩ := List.forall_mem_append.mp hp
  have hopt : first.optional = false := ((hp first (by simp)).required_iff.mp hfirst).2
  have hinner := emits_innerRule rule before first n
  have hrules := (emits_splitCascades rule before first after n).rulesFor hlhs
  unfold splitCascades at hfresh hrules ⊢
  dsimp only at hfresh hrules ⊢
  set inner := (rule.innerRule before first n).cascade (before ++ [first]) (n + 1)
  have houter := emits_outerRule rule after n inner.2
  have hstands := standsFor_joint (n + 1) hp hfirst
  set joint := Slot.ofSymbol (freshCat (n + 1)) false
  set outer := (rule.outerRule after n).cascade (joint :: after) inner.2
  have hcount : (before ++ [first]).countP Slot.required = 1 := by
    rw [Slot.StandsFor.countP_concat, List.countP_eq_zero.mpr (by simpa using hbefore), if_pos hfirst]
  have hrequired : joint.required = true := by
    rw [hstands.required_eq, hcount]
    rfl
  -- the first cascade makes the category that stands for the slots up to the first argument
  have hslots := interprets_slots ctx ex (rule.innerRule before first n) rfl
    (fun s hs => hfresh s (hs.mono (Nat.le_succ n) houter.le)) (hrules.lower hinner houter) huser hp
    ⟨first, by simp, hopt⟩
  have hopened := Interprets.opened JoinFn.forwardBetaReduce.toFn joint _ hp hbefore hfirst hrequired
    (hfresh _ (isFreshBetween_next (Nat.le_trans hinner.le houter.le))) hslots
  -- the second one takes it for its first slot
  exact interprets_cascade (rule.outerRule after n) rfl
    (fun s hs => hfresh s (hs.mono (Nat.le_of_succ_le hinner.le) (Nat.le_refl _))) (hrules.higher hinner houter)
    hopened hstands (Nat.le_of_eq hcount) (fun h => absurd (hrequired.symm.trans h) (by simp)) huserAfter hpAfter
    ⟨first, by simp, hopt⟩

/-- The symbols of a rule have fillers; the categories that are handed out for it are derived. -/
def symbolKinds (rule : Rule) (n m : Nat) : Kinds where
  given s := s ∈ rule.rhs
  fresh := IsFreshBetween n m

/-- **What the rules of a rule compute.** -/
theorem interprets_binarize {rule : Rule} {optionals : List Bool} {n : Nat} {result : List Rule × Nat}
    (h : rule.binarize optionals n = .ok result)
    (huser : ∀ s ∈ rule.lhs :: rule.rhs, ¬ IsFreshBetween n result.2 s) (ctx : SemContext) (ex : Example) :
    Interprets (Derives result.1 (rule.symbolKinds n result.2) ctx ex rule.lhs) (rule.slotsOf optionals)
      fun first last args outs => rule.Computes ctx ex first last args (mapOk Child.meaning outs) := by
  obtain ⟨hlen, hsome, -⟩ := binarize_eq_ok h
  have hemits := emits_binarize h
  have hsymbols := map_symbol_slotsOf hlen
  have hlhs := huser rule.lhs List.mem_cons_self
  have hfresh : ∀ s, IsFreshBetween n result.2 s → (rule.symbolKinds n result.2).OnlyFresh s := fun s hs =>
    ⟨hs, fun hgiven => huser s (List.mem_cons_of_mem _ hgiven) hs⟩
  have hslots : ∀ slot ∈ rule.slotsOf optionals,
      (rule.symbolKinds n result.2).OnlyGiven slot.symbol := fun slot hs =>
    have hgiven : slot.symbol ∈ rule.rhs := hsymbols ▸ List.mem_map_of_mem hs
    ⟨hgiven, huser _ (List.mem_cons_of_mem _ hgiven)⟩
  have hp : ∀ slot ∈ rule.slotsOf optionals, slot.Plain := fun slot => plain_of_mem_slotsOf
  have hcount : ∀ {fill : List (Option Filler)}, List.Forall₂ Slot.Admits (rule.slotsOf optionals) fill →
      (arguments (rule.slotsOf optionals) fill).length = (rule.slotsOf optionals).countP Slot.required :=
    length_arguments hp
  rcases binarize_cases h with ⟨hbound, rfl⟩ |
    ⟨hbound, before, first, after, heq, hbefore, hfirst, hafter, rfl⟩
  · have hall := interprets_slots ctx ex rule hsymbols.symm hfresh (hemits.rulesFor hlhs) hslots hp hsome
    refine hall.imp fun {start stop fill outs} hfill hfinished => ?_
    have hlen' : (rule.slotsOf optionals).length = rule.rhs.length := by rw [← hsymbols, List.length_map]
    rcases hargs : arguments (rule.slotsOf optionals) fill with _ | ⟨c, _ | ⟨d, cs⟩⟩
    · rw [hargs] at hfinished
      simp only [Finished, hlen', beq_iff_eq] at hfinished
      exact hfinished
    · rw [hargs] at hfinished
      obtain ⟨_, rfl, heach⟩ := hfinished
      have happlied := each_single_iff.mp heach
      exact happlied
    · rw [hargs] at hfinished
      obtain ⟨_, rfl, hfold⟩ := hfinished
      have hcount := hcount hfill
      rw [hargs, List.length_cons, List.length_cons] at hcount
      have hb : rule.sem.bound = false := hbound.resolve_right (by omega)
      simpa only [Computes, hb, Bool.false_eq_true, if_false] using hfold
  · have hall := interprets_splitCascades ctx ex hfresh hlhs (by rwa [heq] at hslots) (by rwa [heq] at hp)
      hbefore hfirst
    rw [heq] at hcount ⊢
    refine hall.imp fun {start stop fill outs} hfill hfinished => ?_
    have hcount := hcount hfill
    obtain ⟨slot, hslot, hrequired⟩ := hafter
    have hafter' : 0 < after.countP Slot.required := List.countP_pos_iff.mpr ⟨slot, hslot, hrequired⟩
    rw [List.countP_append, List.countP_cons, if_pos hfirst] at hcount
    rcases hargs : arguments (before ++ first :: after) fill with _ | ⟨c, _ | ⟨d, cs⟩⟩
    · rw [hargs, List.length_nil] at hcount
      omega
    · rw [hargs, List.length_singleton] at hcount
      omega
    · rw [hargs] at hfinished
      obtain ⟨base, hbase, hfold⟩ := hfinished
      simp only [Computes, hbound, if_true]
      exact ⟨base, hbase, hfold⟩

/-- Something fills the slots of a rule, because some symbol has to be there. -/
theorem reduceOption_ne_nil {rule : Rule} {optionals : List Bool} {n : Nat} {result : List Rule × Nat}
    (h : rule.binarize optionals n = .ok result) {fill : List (Option Filler)}
    (hfill : List.Forall₂ Slot.Admits (rule.slotsOf optionals) fill) : fill.reduceOption ≠ [] := by
  intro hn
  obtain ⟨-, ⟨slot, hslot, hopt⟩, -⟩ := binarize_eq_ok h
  rw [(all_optional_of_reduceOption_eq_nil hfill hn).1 slot hslot] at hopt
  cases hopt

/-! ## Stand-ins -/

/-- **Whether a rule finds the argument that it selects**, if its function stands in for another one by selecting
an argument. -/
def StandsIn (sem : SemanticFn) (r : Rule) : Prop :=
  r.sem = sem ∨ r.sem = ConstantFn.null.toFn ∨
    ∃ p < r.rhs.countP isCat, r.sem = (SelectFn.mk p).toFn

theorem standsIn_pairRules (rule : Rule) {lhs : String} {left right : Slot} {r : Rule}
    (hleft : left.required = true → isCat left.symbol = true ∧ left.optional = false)
    (hright : right.required = true → isCat right.symbol = true ∧ right.optional = false)
    (h : r ∈ rule.pairRules lhs left right) : StandsIn rule.sem r := by
  rw [pairRules_eq] at h
  obtain ⟨⟨l, b⟩, hmem, rfl⟩ := List.mem_map.mp h
  obtain ⟨hl, hb, -⟩ := mem_presencePairs.mp hmem
  show pairFn rule.sem left right l = rule.sem ∨ pairFn rule.sem left right l = _ ∨
    ∃ p < (left.shown l ++ right.shown b).countP isCat, pairFn rule.sem left right l = _
  rw [List.countP_append]
  unfold pairFn
  by_cases hr : right.required = true
  · obtain ⟨hcat, hopt⟩ := hright hr
    have hshown : (right.shown b).countP isCat = 1 := by
      obtain rfl : b = true := hb.resolve_left (by simp [hopt])
      simp [Slot.shown, hcat]
    by_cases hq : left.required = true
    · exact Or.inl (by simp [hq, hr])
    · refine Or.inr (Or.inr ?_)
      by_cases hc : (l && isCat left.symbol) = true
      · refine ⟨1, ?_, by simp [hq, hr, hc]⟩
        obtain ⟨rfl, hcat'⟩ := Bool.and_eq_true_iff.mp hc
        rw [hshown]
        simp [Slot.shown, hcat']
      · refine ⟨0, by omega, ?_⟩
        simp [hq, hr, hc]
  · by_cases hq : left.required = true
    · obtain ⟨hcat, hopt⟩ := hleft hq
      obtain rfl : l = true := hl.resolve_left (by simp [hopt])
      refine Or.inr (Or.inr ⟨0, ?_, by simp [hq, hr]⟩)
      have hshown : (left.shown true).countP isCat = 1 := by simp [Slot.shown, hcat]
      omega
    · exact Or.inr (Or.inl (by simp [hq, hr]))

/-- What pairs make stands in for the function, if the left slot is a category when it is an argument. -/
theorem standsIn_pairUp (rule : Rule) {left : Slot} {applied : Bool} {n : Nat} {rest : List Slot}
    (hleft : left.required = true → isCat left.symbol = true ∧ left.optional = false)
    (hrest : ∀ slot ∈ rest, slot.Plain) :
    ∀ r ∈ (rule.pairUp left applied n rest).1, StandsIn rule.sem r := by
  induction rest generalizing left applied n with
  | nil =>
    intro r hr
    unfold pairUp at hr
    cases applied with
    | true => cases hr
    | false => exact Or.inl (List.mem_singleton.mp hr ▸ rfl)
  | cons right rest ih =>
    have hright := (hrest right List.mem_cons_self).required_iff.mp
    by_cases hlast : rest = [] ∧ (applied || (left.required && right.required)) = true
    · obtain ⟨rfl, happ⟩ := hlast
      rw [pairUp_last rule happ]
      exact fun r hr => standsIn_pairRules rule hleft hright hr
    · rw [pairUp_step rule hlast]
      refine List.forall_mem_append.mpr ⟨fun r hr => standsIn_pairRules rule hleft hright hr,
        ih (fun h => ⟨isCat_freshCat (n + 1), ?_⟩) fun slot hs => hrest slot (List.mem_cons_of_mem _ hs)⟩
      show (left.optional && right.optional) = false
      rcases Bool.or_eq_true_iff.mp h with h | h
      · rw [(hleft h).2, Bool.false_and]
      · rw [(hright h).2, Bool.and_false]

theorem standsIn_cascade (rule : Rule) {slots : List Slot} (hp : ∀ slot ∈ slots, slot.Plain) (n : Nat) :
    ∀ r ∈ (rule.cascade slots n).1, StandsIn rule.sem r := by
  match slots, hp with
  | first :: second :: rest, hp =>
    exact standsIn_pairUp rule (hp first List.mem_cons_self).required_iff.mp
      fun slot hs => hp slot (List.mem_cons_of_mem _ hs)
  | [first], _ =>
    intro r hr
    exact Or.inl (List.mem_singleton.mp hr ▸ rfl)
  | [], _ =>
    intro r hr
    exact Or.inl (List.mem_singleton.mp hr ▸ rfl)

/-- **Every stand-in** selects an argument that its rule has. -/
theorem standsIn_binarize {rule : Rule} {optionals : List Bool} {n : Nat} {result : List Rule × Nat}
    (h : rule.binarize optionals n = .ok result) :
    ∀ r ∈ result.1, StandsIn rule.sem r ∨ StandsIn JoinFn.forwardBetaReduce.toFn r := by
  have hp : ∀ slot ∈ rule.slotsOf optionals, slot.Plain := fun slot => plain_of_mem_slotsOf
  rcases binarize_cases h with ⟨-, rfl⟩ | ⟨-, before, first, after, heq, -, -, -, rfl⟩
  · exact fun r hr => Or.inl (standsIn_cascade rule hp n r hr)
  · rw [heq] at hp
    intro r hr
    unfold splitCascades at hr
    rcases List.mem_append.mp hr with hr | hr
    · refine Or.inl (standsIn_cascade (rule.innerRule before first n) (fun slot hs => hp slot ?_) _ r hr)
      rw [List.mem_append, List.mem_singleton] at hs
      rw [List.mem_append, List.mem_cons]
      exact hs.imp id Or.inl
    · refine Or.inr (standsIn_cascade (rule.outerRule after n) (fun slot hs => ?_) _ r hr)
      rcases List.mem_cons.mp hs with rfl | hs
      · rfl
      · exact hp slot (by simp [hs])

/-- **What the rules for two symbols compute.** Let none of a rule's symbols be a fresh category that is handed out
for it. Then each derivation of its left-hand side through its rules is over fillers of its slots, and computes what
the rule computes with the arguments among them; for all fillers of the slots there is one; and each function that
stands in for the rule's own one finds the argument that it selects. -/
theorem binarize_computes {rule : Rule} {optionals : List Bool} {n m : Nat} {emitted : List Rule}
    (h : rule.binarize optionals n = .ok (emitted, m))
    (huser : ∀ s ∈ rule.lhs :: rule.rhs, ¬ IsFreshBetween n m s) (ctx : SemContext) (ex : Example) :
    (∀ leaves outs, Derives emitted (rule.symbolKinds n m) ctx ex rule.lhs leaves outs →
      ∃ fill, List.Forall₂ Slot.Admits (rule.slotsOf optionals) fill ∧ fill.reduceOption = leaves ∧
        rule.Computes ctx ex (Filler.start leaves) (Filler.stop leaves)
          (arguments (rule.slotsOf optionals) fill) (mapOk Child.meaning outs)) ∧
    (∀ fill, List.Forall₂ Slot.Admits (rule.slotsOf optionals) fill →
      ∃ outs, Derives emitted (rule.symbolKinds n m) ctx ex rule.lhs fill.reduceOption outs ∧
        rule.Computes ctx ex (Filler.start fill.reduceOption) (Filler.stop fill.reduceOption)
          (arguments (rule.slotsOf optionals) fill) (mapOk Child.meaning outs)) ∧
    ∀ r ∈ emitted, r.sem = rule.sem ∨ r.sem = JoinFn.forwardBetaReduce.toFn ∨
      r.sem = ConstantFn.null.toFn ∨ ∃ p, r.sem = (SelectFn.mk p).toFn ∧ ∀ leaves outs children,
        DerivesAll emitted (rule.symbolKinds n m) ctx ex r.rhs leaves outs → .ok children ∈ outs →
          p < children.length := by
  have hall := interprets_binarize h huser ctx ex
  refine ⟨fun leaves outs hd => ?_, fun fill hfill => hall.complete hfill (reduceOption_ne_nil h hfill),
    fun r hr => ?_⟩
  · obtain ⟨fill, hfill, hleaves, -, hcomputes⟩ := hall.sound hd
    exact ⟨fill, hfill, hleaves, hcomputes⟩
  · have hcat : ∀ s, IsFreshBetween n m s → isCat s = true := by
      rintro _ ⟨k, -, -, rfl⟩
      exact isCat_freshCat k
    have hselect : ∀ {p : Nat}, p < r.rhs.countP isCat → ∀ leaves outs children,
        DerivesAll emitted (rule.symbolKinds n m) ctx ex r.rhs leaves outs → .ok children ∈ outs →
          p < children.length := fun hp leaves outs children hd hc => by
      rwa [length_of_derivesAll hcat hd hc]
    rcases standsIn_binarize h r hr with (hs | hs | ⟨p, hp, hs⟩) | (hs | hs | ⟨p, hp, hs⟩)
    · exact Or.inl hs
    · exact Or.inr (Or.inr (Or.inl hs))
    · exact Or.inr (Or.inr (Or.inr ⟨p, hs, hselect hp⟩))
    · exact Or.inr (Or.inl hs)
    · exact Or.inr (Or.inr (Or.inl hs))
    · exact Or.inr (Or.inr (Or.inr ⟨p, hs, hselect hp⟩))

/-- A child that means its text. -/
def sampleChild (cat : String) (first : Nat) (text : String) : Child where
  cat
  first
  last := first + 1
  formula := .ofString text
  type := .string
  canonical := text

/-- A rule of two arguments with an optional word between them. -/
def sampleSum : Rule where
  lhs := "$Sum"
  rhs := ["$Term", "and", "$Term"]
  sem := (ConcatFn.mk " ").toFn

theorem binarize_computes_sample :
    ∃ emitted m outs, sampleSum.binarize [false, true, false] 0 = .ok (emitted, m) ∧
      Derives emitted (sampleSum.symbolKinds 0 m) {} default "$Sum"
        [.child (sampleChild "$Term" 0 "b"), .child (sampleChild "$Term" 1 "c")] outs ∧
      sampleSum.Computes {} default 0 2 [sampleChild "$Term" 0 "b", sampleChild "$Term" 1 "c"]
        (mapOk Child.meaning outs) := by
  obtain ⟨⟨emitted, m⟩, h⟩ : ∃ result, sampleSum.binarize [false, true, false] 0 = .ok result := ⟨_, rfl⟩
  have huser : ∀ s ∈ sampleSum.lhs :: sampleSum.rhs, ¬ IsFreshBetween 0 m s := fun s hs hfresh =>
    absurd (isReserved_of_isFreshBetween hfresh)
      ((by decide +kernel : ∀ s ∈ sampleSum.lhs :: sampleSum.rhs, ¬ IsReserved s) s hs)
  obtain ⟨-, hcomplete, -⟩ := binarize_computes h huser {} default
  obtain ⟨outs, hd, hcomputes⟩ := hcomplete
    [some (.child (sampleChild "$Term" 0 "b")), none, some (.child (sampleChild "$Term" 1 "c"))]
    (.cons ⟨rfl, rfl⟩ (.cons rfl (.cons ⟨rfl, rfl⟩ .nil)))
  exact ⟨emitted, m, outs, h, hd, hcomputes⟩

/-- A rule for a category that is handed out as a fresh one. -/
def collidingLhs : Rule where
  lhs := "$Intermediate1"
  rhs := ["$B", "$C", "$D"]
  sem := (ConcatFn.mk " ").toFn

/-- A rule that takes a category that is handed out as a fresh one. -/
def collidingRhs : Rule where
  lhs := "$A"
  rhs := ["$Intermediate1", "$C", "$D"]
  sem := (ConcatFn.mk " ").toFn

/-- Two categories with the children that stand for them. -/
theorem derivesAll_children {c d : Child} (hc : kinds.given c.cat) (hd : kinds.given d.cat)
    (hcc : isCat c.cat = true) (hcd : isCat d.cat = true) :
    DerivesAll rules kinds ctx ex [c.cat, d.cat] [.child c, .child d] [.ok [c, d]] :=
  .stay (f := .child c) hc hcc.symm (.stay (f := .child d) hd hcd.symm .nil)

/-- If all symbols have to be there, there are as many fillers as symbols. -/
theorem length_reduceOption {slots : List Slot} {fill : List (Option Filler)}
    (h : List.Forall₂ Slot.Admits slots fill) (hall : ∀ slot ∈ slots, slot.optional = false) :
    fill.reduceOption.length = slots.length := by
  induction h with
  | nil => rfl
  | @cons slot filler slots fill hf _ ih =>
    obtain ⟨hslot, hslots⟩ := List.forall_mem_cons.mp hall
    cases filler with
    | none =>
      have hoptional : slot.optional = true := hf
      rw [hslot] at hoptional
      cases hoptional
    | some f => rw [List.reduceOption_cons_of_some, List.length_cons, List.length_cons, ih hslots]

/-- If a symbol of a rule is handed out as a fresh category, some derivation leaves an argument out: here two
children are put together where the rule has three arguments. -/
theorem binarize_computes_not :
    (∃ emitted outs, collidingLhs.binarize [false, false, false] 0 = .ok (emitted, 1) ∧
      Derives emitted (collidingLhs.symbolKinds 0 1) {} default collidingLhs.lhs
        [.child (sampleChild "$B" 0 "b"), .child (sampleChild "$C" 1 "c")] outs ∧
      mapOk Child.meaning outs = [.ok (.ofString "b c", .string)] ∧
      ¬ ∃ fill, List.Forall₂ Slot.Admits (collidingLhs.slotsOf [false, false, false]) fill ∧
        fill.reduceOption = [.child (sampleChild "$B" 0 "b"), .child (sampleChild "$C" 1 "c")]) ∧
    ∃ emitted outs, collidingRhs.binarize [false, false, false] 0 = .ok (emitted, 1) ∧
      Derives emitted (collidingRhs.symbolKinds 0 1) {} default collidingRhs.lhs
        [.child (sampleChild "$Intermediate1" 0 "b"), .child (sampleChild "$D" 1 "d")] outs ∧
      mapOk Child.meaning outs = [.ok (.ofString "b d", .string)] ∧
      ¬ ∃ fill, List.Forall₂ Slot.Admits (collidingRhs.slotsOf [false, false, false]) fill ∧
        fill.reduceOption = [.child (sampleChild "$Intermediate1" 0 "b"), .child (sampleChild "$D" 1 "d")] := by
  have hthree : ∀ {slots : List Slot} {leaves : List Filler}, slots.length ≠ leaves.length →
      (∀ slot ∈ slots, slot.optional = false) →
      ¬ ∃ fill, List.Forall₂ Slot.Admits slots fill ∧ fill.reduceOption = leaves := by
    rintro slots _ hne hall ⟨fill, hfill, rfl⟩
    exact hne (length_reduceOption hfill hall).symm
  have hleft : ∀ rules, DerivesAll rules (collidingLhs.symbolKinds 0 1) {} default ["$B", "$C"] _ _ :=
    fun rules => derivesAll_children (c := sampleChild "$B" 0 "b") (d := sampleChild "$C" 1 "c")
      (show "$B" ∈ _ by decide +kernel) (show "$C" ∈ _ by decide +kernel) (by decide +kernel) (by decide +kernel)
  have hright : ∀ rules,
      DerivesAll rules (collidingRhs.symbolKinds 0 1) {} default ["$Intermediate1", "$D"] _ _ :=
    fun rules => derivesAll_children (c := sampleChild "$Intermediate1" 0 "b") (d := sampleChild "$D" 1 "d")
      (show "$Intermediate1" ∈ _ by decide +kernel) (show "$D" ∈ _ by decide +kernel) (by decide +kernel)
      (by decide +kernel)
  refine ⟨⟨_, _, rfl, .rewrite (r := collidingLhs.derive "$Intermediate1" ["$B", "$C"] collidingLhs.sem)
      List.mem_cons_self (hleft _), rfl, hthree (by decide) (by decide +kernel)⟩,
    _, _, rfl, .rewrite (r := collidingRhs.derive "$A" ["$Intermediate1", "$D"] collidingRhs.sem)
      (List.mem_cons_of_mem _ List.mem_cons_self) (hright _), rfl, hthree (by decide) (by decide +kernel)⟩

end Rule

end Parlance
