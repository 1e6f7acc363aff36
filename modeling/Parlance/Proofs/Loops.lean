import Parlance.Proofs.MacroExpansion

/-!
# `Proofs.Loops` — a loop is its body for each value in turn

A loop over the values of a macro does what its body does after a definition of the macro, value by value. It takes the
macro out first and puts it in again for the first value, where a definition changes it in place. So the two do not go
through the same tables of macros, but through tables in which the same is found, and nothing that is compiled depends
on more than that.

After the loop the macro is what it was before, also if a statement of the body fails or gives it another value.

## Contents
- **Grammars.** `Grammar.AgreeBut`, the same but for the values of some macros.
- **Computations.** `Grammar.Respects`: what is found in the macros is all that matters. One lemma for each way to put
  computations together, then statements, texts and files.
- **Rounds.** `Grammar.loop_agrees`, the loop and the definitions in lockstep.
- **The result.** `Grammar.loop_unrolls`.
-/

namespace Parlance

namespace Grammar

/-! ## Grammars -/

/-- **The same grammar but for the values of some macros.** The other macros may be listed in another order. -/
structure AgreeBut (names : List String) (g g' : Grammar) : Prop where
  rest : { g with macros := g'.macros } = g'
  macros : ∀ name, name ∉ names → g.macros.get? name = g'.macros.get? name

section Agreement

variable {names : List String} {g g' : Grammar} {name : String}

theorem AgreeBut.mono (h : AgreeBut [] g g') : AgreeBut names g g' := ⟨h.rest, fun name _ => h.macros name (by simp)⟩

theorem AgreeBut.options (h : AgreeBut names g g') : g.options = g'.options := by
  rw [← h.rest]

theorem AgreeBut.registry (h : AgreeBut names g g') : g.registry = g'.registry := by
  rw [← h.rest]

/-- A macro gets one value in both. -/
theorem AgreeBut.bindMacro (h : AgreeBut names g g') (name : String) (value : Sexp) :
    AgreeBut names (g.bindMacro name value) (g'.bindMacro name value) where
  rest := congrArg (fun g : Grammar => g.bindMacro name value) h.rest
  macros other hother := by
    unfold Grammar.bindMacro Table.insert
    by_cases hname : other = name
    · rw [hname, Table.get?_update_self, Table.get?_update_self]
    · rw [Table.get?_update_of_ne _ hname, Table.get?_update_of_ne _ hname]
      exact h.macros other hother

/-- After that they agree about it. -/
theorem AgreeBut.bound (h : AgreeBut [name] g g') (value : Sexp) :
    AgreeBut [] (g.bindMacro name value) (g'.bindMacro name value) where
  rest := (h.bindMacro name value).rest
  macros other _ := by
    by_cases hname : other = name
    · unfold Grammar.bindMacro Table.insert
      rw [hname, Table.get?_update_self, Table.get?_update_self]
    · exact (h.bindMacro name value).macros other (by simpa using hname)

/-- What is found after a macro got an old value back. -/
theorem get?_restoreMacro (g : Grammar) (name : String) (value : Option Sexp) (other : String) :
    (g.restoreMacro name value).macros.get? other = if other = name then value else g.macros.get? other := by
  unfold Grammar.restoreMacro Table.insert
  cases value with
  | some value =>
    by_cases hname : other = name
    · rw [if_pos hname, hname]
      exact Table.get?_update_self _ _ _
    · rw [if_neg hname]
      exact Table.get?_update_of_ne _ hname _
  | none =>
    by_cases hname : other = name
    · rw [if_pos hname, hname]
      exact Table.get?_erase_self _ _
    · rw [if_neg hname]
      exact Table.get?_erase_of_ne _ hname

theorem AgreeBut.restoreMacro (h : AgreeBut names g g') (name : String) (value : Option Sexp) :
    AgreeBut names (g.restoreMacro name value) (g'.restoreMacro name value) where
  rest := congrArg (fun g : Grammar => g.restoreMacro name value) h.rest
  macros other hother := by
    rw [get?_restoreMacro, get?_restoreMacro, h.macros other hother]

/-- Only the restored macro changes. -/
theorem agreeBut_restoreMacro (g : Grammar) (name : String) (value : Option Sexp) :
    AgreeBut [name] (g.restoreMacro name value) g where
  rest := rfl
  macros other hother := by
    rw [get?_restoreMacro, if_neg (by simpa using hother)]

theorem AgreeBut.trans {g'' : Grammar} (h : AgreeBut names g g') (h' : AgreeBut names g' g'') :
    AgreeBut names g g'' where
  rest := by
    have hrest := congrArg (fun g : Grammar => { g with macros := g''.macros }) h.rest
    exact hrest.trans h'.rest
  macros name hname := (h.macros name hname).trans (h'.macros name hname)

/-- Where the same is found, trees are expanded alike. -/
theorem AgreeBut.expand (h : AgreeBut [] g g') (tree : Sexp) :
    Grammar.expand g.macros tree = Grammar.expand g'.macros tree := by
  have hleaf : expandLeaf g.macros tree.text = expandLeaf g'.macros tree.text := by
    funext leaf
    unfold expandLeaf
    rw [h.macros leaf (by simp)]
  unfold Grammar.expand
  rw [hleaf]

end Agreement

/-! ## Computations -/

/-- **Two outcomes alike**: the same result, or the same error, and grammars that agree. -/
structure OutcomesAgreeBut (names : List String) (o o' : Except GrammarError Unit × Grammar) : Prop where
  result : o.1 = o'.1
  grammar : AgreeBut names o.2 o'.2

/-- **What is found in the macros is all that matters** to a computation. -/
def Respects (c : Compile Unit) : Prop :=
  ∀ ⦃g g' : Grammar⦄, AgreeBut [] g g' → OutcomesAgreeBut [] (c.run g) (c.run g')

section Computations

variable {names : List String} {c c' : Compile Unit} {g g' : Grammar}

theorem respects_pure : Respects (pure ()) := fun _ _ h => ⟨rfl, h⟩

theorem respects_throw (cause : GrammarError) : Respects (throw cause) := fun _ _ h => ⟨rfl, h⟩

theorem respects_modify {f : Grammar → Grammar} (hf : ∀ ⦃g g' : Grammar⦄, AgreeBut [] g g' → AgreeBut [] (f g) (f g')) :
    Respects (modify f) := fun _ _ h => ⟨rfl, hf h⟩

/-- Computations one after the other have like outcomes if the first ones do, and the second ones do wherever the first
ones succeed. -/
theorem OutcomesAgreeBut.seq {d d' : Compile Unit} {names' : List String}
    (h : OutcomesAgreeBut names (c.run g) (c'.run g')) (hnames : ∀ {g g'}, AgreeBut names g g' → AgreeBut names' g g')
    (hnext : ∀ {after after'}, c.run g = (.ok (), after) → c'.run g' = (.ok (), after') → AgreeBut names after after' →
      OutcomesAgreeBut names' (d.run after) (d'.run after')) :
    OutcomesAgreeBut names' ((do c; d : Compile Unit).run g) ((do c'; d' : Compile Unit).run g') := by
  obtain ⟨hresult, hgrammar⟩ := h
  rcases hrun : c.run g with ⟨cause | ⟨⟩, after⟩ <;> rcases hrun' : c'.run g' with ⟨cause' | ⟨⟩, after'⟩ <;>
    rw [hrun, hrun'] at hresult hgrammar
  case error.error =>
    rw [run_bind_error hrun, run_bind_error hrun']
    exact ⟨hresult, hnames hgrammar⟩
  case error.ok => cases hresult
  case ok.error => cases hresult
  case ok.ok =>
    rw [run_bind_ok hrun, run_bind_ok hrun']
    exact hnext hrun hrun' hgrammar

theorem Respects.seq {d : Compile Unit} (hc : Respects c) (hd : Respects d) : Respects (do c; d) := by
  intro g g' h
  exact (hc h).seq id fun _ _ hafter => hd hafter

/-- What is read off the grammar is the same, and what follows is like. -/
theorem respects_given {α : Type} {read : Grammar → Except GrammarError α} {next : Grammar → α → Compile Unit}
    (hread : ∀ ⦃g g' : Grammar⦄, AgreeBut [] g g' → read g = read g')
    (hnext : ∀ ⦃g g' : Grammar⦄ a, AgreeBut [] g g' → read g = .ok a →
      OutcomesAgreeBut [] ((next g a).run g) ((next g' a).run g')) :
    Respects (do
      let grammar ← get
      let a ← orFail (read grammar)
      next grammar a) := by
  intro g g' h
  show OutcomesAgreeBut [] ((orFail (read g) >>= next g).run g) ((orFail (read g') >>= next g').run g')
  have hsame := hread h
  cases hresult : read g with
  | ok a =>
    rw [← hsame, hresult, run_bind_ok (run_orFail_ok rfl), run_bind_ok (run_orFail_ok rfl)]
    exact hnext a h hresult
  | error cause =>
    rw [← hsame, hresult, run_bind_error (run_orFail_error rfl), run_bind_error (run_orFail_error rfl)]
    exact ⟨rfl, h⟩

theorem respects_forM {α : Type} {f : α → Compile Unit} {items : List α} (h : ∀ item ∈ items, Respects (f item)) :
    Respects (items.forM f) := by
  induction items with
  | nil => exact respects_pure
  | cons item rest ih =>
    rw [List.forall_mem_cons] at h
    exact h.1.seq (ih h.2)

/-- The old value is the same in both, and so is what it is restored to. -/
theorem respects_withMacro {name : String} (hc : Respects c) : Respects (withMacro name c) := by
  intro g g' h
  have hbody := hc (h.restoreMacro name none)
  have houter := h.macros name (by simp)
  refine ⟨hbody.result, ?_⟩
  show AgreeBut [] ((c.run _).2.restoreMacro name _) ((c.run _).2.restoreMacro name _)
  rw [houter]
  exact hbody.grammar.restoreMacro name _

end Computations

section Statements

variable {addPath : String → Compile Unit} {file : Option String}

/-- Adding a rule looks at no macro. -/
theorem AgreeBut.addRule {g g' : Grammar} (h : AgreeBut [] g g') (rule : Rule) (optionals : List Bool) :
    (∃ cause, g.addRule rule optionals = .error cause ∧ g'.addRule rule optionals = .error cause) ∨
      ∃ after after', g.addRule rule optionals = .ok after ∧ g'.addRule rule optionals = .ok after' ∧
        AgreeBut [] after after' := by
  obtain ⟨options, registry, rules, macros, tags, statements, fresh⟩ := g
  obtain ⟨options', registry', rules', macros', tags', statements', fresh'⟩ := g'
  obtain ⟨hrest, hmacros⟩ := h
  cases hrest
  unfold Grammar.addRule
  dsimp only
  split
  · cases hbinarize : rule.binarize optionals fresh with
    | ok result => exact .inr ⟨_, _, rfl, rfl, rfl, hmacros⟩
    | error cause => exact .inl ⟨cause, rfl, rfl⟩
  · cases hsame : rule.unbinarized optionals with
    | ok result => exact .inr ⟨_, _, rfl, rfl, rfl, hmacros⟩
    | error cause => exact .inl ⟨cause, rfl, rfl⟩

theorem respects_compileRule (tree : Sexp) : Respects (compileRule tree) := by
  refine respects_given (fun g g' h => h.expand tree) fun g g' expanded h _ => ?_
  rw [h.registry]
  cases hread : readRule g'.registry tree.text expanded with
  | error cause => exact ⟨rfl, h⟩
  | ok pair =>
    obtain ⟨rule, optionals⟩ := pair
    rw [run_bind_ok (run_orFail_ok rfl), run_bind_ok (run_orFail_ok rfl)]
    rcases h.addRule rule optionals with ⟨cause, hadd, hadd'⟩ | ⟨after, after', hadd, hadd', hafter⟩
    · rw [run_bind_error (run_orFail_error hadd), run_bind_error (run_orFail_error hadd')]
      exact ⟨rfl, h⟩
    · rw [run_bind_ok (run_orFail_ok hadd), run_bind_ok (run_orFail_ok hadd')]
      exact ⟨rfl, hafter⟩

theorem respects_includeAll (haddPath : ∀ path, Respects (addPath path)) (file : String) (tree : Sexp)
    (paths : List Sexp) : Respects (includeAll addPath file tree paths) := by
  induction paths with
  | nil => exact respects_pure
  | cons item rest ih =>
    cases item with
    | leaf path => exact (haddPath _).seq ih
    | list items => exact respects_throw _

mutual
/-- **Carrying a statement out** respects macros. -/
theorem respects_interpret (haddPath : ∀ path, Respects (addPath path)) (s : Statement) :
    Respects (interpret addPath file s) := by
  unfold interpret
  cases s with
  | rule tree => exact respects_compileRule tree
  | inclusion tree paths =>
    cases file with
    | some file => exact respects_includeAll haddPath file tree paths
    | none => exact respects_throw _
  | when condition body =>
    refine respects_given (fun g g' h => by rw [h.options]) fun g g' holds h _ => ?_
    cases holds with
    | true => exact respects_interpretAll haddPath body h
    | false => exact ⟨rfl, h⟩
  | define tree name value =>
    refine respects_given (fun g g' h => h.expand value) fun g g' expanded h _ => ?_
    exact ⟨rfl, h.bindMacro name expanded⟩
  | each name values body =>
    refine respects_given (fun g g' h => h.expand values) fun g g' values h _ => ?_
    refine respects_withMacro (respects_forM fun value _ => ?_) h
    exact (respects_modify fun _ _ h => h.bindMacro name value).seq (respects_interpretAll haddPath body)
  | invalid cause body => exact respects_throw cause
theorem respects_interpretAll (haddPath : ∀ path, Respects (addPath path)) (body : List Statement) :
    Respects (interpretAll addPath file body) := by
  unfold interpretAll
  cases body with
  | nil => exact respects_pure
  | cons s rest => exact (respects_interpret haddPath s).seq (respects_interpretAll haddPath rest)
end

theorem respects_interpretText (haddPath : ∀ path, Respects (addPath path)) (source : String) :
    Respects (interpretText addPath file source) := by
  unfold interpretText
  cases Sexp.readAll source with
  | error cause => exact respects_throw _
  | ok trees =>
    refine respects_forM fun tree _ => (respects_interpret haddPath _).seq (respects_modify fun g g' h => ?_)
    exact ⟨congrArg (fun g : Grammar => g.mention _) h.rest, h.macros⟩

theorem respects_addPath (files : FileSystem) (depth : Nat) (path : String) :
    Respects (Grammar.addPath files depth path) := by
  induction depth generalizing path with
  | zero => exact respects_throw _
  | succ depth ih =>
    unfold Grammar.addPath
    cases files path with
    | error cause => exact respects_throw _
    | ok source =>
      refine (respects_modify fun g g' h => ?_).seq (respects_interpretText ih source)
      exact ⟨congrArg (fun g : Grammar => g.noteFile path source) h.rest, h.macros⟩

end Statements

/-! ## Rounds -/

section Rounds

variable {registry : Registry} {files : FileSystem} {depth : Nat} {addPath : String → Compile Unit}
variable {file : Option String} {name : String} {value : Sexp} {body : List Statement} {g g' : Grammar}

theorem interpretAll_append (body rest : List Statement) :
    interpretAll addPath file (body ++ rest) = (do
      interpretAll addPath file body
      interpretAll addPath file rest) := by
  induction body with
  | nil => simp [interpretAll]
  | cons s body ih => simp [interpretAll, ih]

theorem interpretAll_flatMap {α : Type} (f : α → List Statement) (items : List α) :
    interpretAll addPath file (items.flatMap f) = items.forM fun item => interpretAll addPath file (f item) := by
  induction items with
  | nil => simp [interpretAll]
  | cons item rest ih =>
    rw [List.flatMap_cons, interpretAll_append, ih]
    rfl

/-- Statements keep macros expanded, whatever files they include. -/
theorem Expanded.statements (h : g.Expanded registry) (files : FileSystem) (depth : Nat) (file : Option String)
    (hbody : Statement.AllNamed body) :
    ((interpretAll (Grammar.addPath files depth) file body).run g).2.Expanded registry := by
  have hkeeps : (statementsWalk (pathWalk files depth) file body).Keeps (Expanded registry) :=
    keeps_statementsWalk (keeps_pathWalk files depth) body hbody
  have hlast := hkeeps.last h
  rw [run_statementsWalk, run_pathWalk] at hlast
  exact hlast

/-- A definition whose value needs no expansion binds its macro. -/
theorem Expanded.run_define (h : g.Expanded registry) (hvalue : value.MacroFree) (tree : Sexp) :
    (interpret addPath file (.define tree name value)).run g = (.ok (), g.bindMacro name value) := by
  have hexpand := expand_eq_self h.macros hvalue
  unfold interpret
  show (orFail (expand g.macros value) >>= fun value => set (g.bindMacro name value)).run g = _
  rw [run_bind_ok (run_orFail_ok hexpand)]
  rfl

/-- A loop whose values need no expansion runs through them. -/
theorem Expanded.run_each (h : g.Expanded registry) {values : List Sexp} (hvalues : ∀ value ∈ values, value.MacroFree) :
    (interpret addPath file (.each name (.list values) body)).run g =
      (withMacro name (values.forM fun value => do
        modify fun grammar => grammar.bindMacro name value
        interpretAll addPath file body)).run g := by
  have hexpand : expand g.macros (.list values) = .ok (.list values) :=
    expand_eq_self h.macros (Sexp.macroFree_list.mpr hvalues)
  rw [interpret]
  show (orFail (expand g.macros (.list values)) >>= _).run g = _
  rw [run_bind_ok (run_orFail_ok hexpand)]
  rfl

/-- **One value.** The loop gives it to its macro, and a definition does so too. -/
theorem round_agrees (h : AgreeBut [name] g g') (hg' : g'.Expanded registry) (hvalue : value.MacroFree) (tree : Sexp) :
    OutcomesAgreeBut []
      ((do
        modify fun grammar => grammar.bindMacro name value
        interpretAll (Grammar.addPath files depth) file body : Compile Unit).run g)
      ((interpretAll (Grammar.addPath files depth) file (.define tree name value :: body)).run g') := by
  have hbind : (modify fun grammar => grammar.bindMacro name value : Compile Unit).run g =
      (.ok (), g.bindMacro name value) := rfl
  rw [interpretAll, run_bind_ok hbind, run_bind_ok (hg'.run_define hvalue tree)]
  exact respects_interpretAll (respects_addPath files depth) body (h.bound value)

/-- **The loop and the definitions in lockstep.** A round that fails ends both. -/
theorem loop_agrees (files : FileSystem) (depth : Nat) (file : Option String)
    (hname : Statement.isMacroName name = true) (hbody : Statement.AllNamed body) (define : Sexp → Sexp)
    (values : List Sexp) (hvalues : ∀ value ∈ values, value.MacroFree) (h : AgreeBut [name] g g')
    (hg' : g'.Expanded registry) :
    OutcomesAgreeBut [name]
      ((values.forM fun value => do
        modify fun grammar => grammar.bindMacro name value
        interpretAll (Grammar.addPath files depth) file body : Compile Unit).run g)
      ((values.forM fun value =>
        interpretAll (Grammar.addPath files depth) file (.define (define value) name value :: body)).run g') := by
  induction values generalizing g g' with
  | nil => exact ⟨rfl, h⟩
  | cons value rest ih =>
    rw [List.forall_mem_cons] at hvalues
    refine (round_agrees h hg' hvalues.1 (define value)).seq AgreeBut.mono fun _ hrun' hafter => ?_
    have hround : Statement.AllNamed (.define (define value) name value :: body) := ⟨hname, hbody⟩
    have hexpanded := hg'.statements files depth file hround
    rw [hrun'] at hexpanded
    exact ih hvalues.2 hafter.mono hexpanded

end Rounds

end Grammar

/-! ## The result -/

namespace Statement

/-- The loop that gives a macro the values one after another, and carries its body out for each. -/
def loopTree (name : String) (values body : List Sexp) : Sexp :=
  .form "for" (.leaf name :: .list values :: body)

/-- The same without a loop: for each value a definition, and then the body. -/
def unrolledTrees (name : String) (values body : List Sexp) : List Sexp :=
  values.flatMap fun value => .form "def" [.leaf name, value] :: body

section Reading

variable {name : String} {values body : List Sexp}

theorem ofSexps_append (trees rest : List Sexp) : ofSexps (trees ++ rest) = ofSexps trees ++ ofSexps rest := by
  induction trees with
  | nil => simp [ofSexps]
  | cons tree trees ih => simp [ofSexps, ih]

theorem ofSexps_flatMap {α : Type} (f : α → List Sexp) (items : List α) :
    ofSexps (items.flatMap f) = items.flatMap fun item => ofSexps (f item) := by
  induction items with
  | nil => simp [ofSexps]
  | cons item rest ih => rw [List.flatMap_cons, List.flatMap_cons, ofSexps_append, ih]

theorem ofSexp_loopTree (hname : isMacroName name = true) (hbody : body ≠ []) :
    ofSexp (loopTree name values body) = .each name (.list values) (ofSexps body) := by
  obtain ⟨first, rest, rfl⟩ := List.exists_cons_of_ne_nil hbody
  simp [loopTree, Sexp.form, ofSexp, ofSexps, hname]

theorem ofSexp_define (hname : isMacroName name = true) (value : Sexp) :
    ofSexp (.form "def" [.leaf name, value]) = .define (.form "def" [.leaf name, value]) name value := by
  simp [Sexp.form, ofSexp, hname]

theorem ofSexps_unrolledTrees (hname : isMacroName name = true) :
    ofSexps (unrolledTrees name values body) =
      values.flatMap fun value => .define (.form "def" [.leaf name, value]) name value :: ofSexps body := by
  unfold unrolledTrees
  rw [ofSexps_flatMap]
  congr 1
  funext value
  rw [ofSexps, ofSexp_define hname]

end Reading

end Statement

namespace Grammar

open Statement

/-- **A loop is its body for each value in turn, and leaves its macro as it was.** Take any grammar that compiling texts
and files can lead to, also one in the middle of a loop or after a failure. A loop over values that need no expansion,
and the definitions and bodies that it stands for, succeed alike or fail with the same error. They leave the same rules,
fresh categories, tags and statements, and the same values of all macros but that of the loop. This macro has the same
value after the loop as before, or again none, however the body ended and whatever it did to the macro. -/
theorem loop_unrolls (options : GrammarOptions) (registry : Registry) (requests : List Request) (files : FileSystem)
    (depth : Nat) (file : Option String) (name : String) (values body : List Sexp) (hname : isMacroName name = true)
    (hvalues : ∀ value ∈ values, value.MacroFree) (hbody : body ≠ []) :
    ∀ g ∈ (Grammar.new options registry).moments requests,
      let looped := (interpret (addPath files depth) file (ofSexp (loopTree name values body))).run g
      let unrolled := (interpretAll (addPath files depth) file (ofSexps (unrolledTrees name values body))).run g
      looped.1 = unrolled.1 ∧ looped.2.AgreeBut [name] unrolled.2 ∧
        looped.2.macros.get? name = g.macros.get? name := by
  intro g hg
  have hexpanded : g.Expanded registry :=
    forall_mem_moments (fun request _ => request.keeps_walk) (expanded_new options) g hg
  have hrounds := loop_agrees files depth file hname (allNamed_ofSexps body)
    (fun value => .form "def" [.leaf name, value]) values hvalues (agreeBut_restoreMacro g name none) hexpanded
  dsimp only
  rw [ofSexp_loopTree hname hbody, hexpanded.run_each hvalues, ofSexps_unrolledTrees hname, interpretAll_flatMap]
  refine ⟨hrounds.result, (agreeBut_restoreMacro _ name _).trans hrounds.grammar, ?_⟩
  exact (get?_restoreMacro _ name _ name).trans (if_pos rfl)

/-- A text that leaves a value of `@verb`. -/
def valueRequest : Request := .text (fun _ => .error .missing) 0 "(def @verb old)" none

/-- Two values, of which the second one is no symbol of a rule. -/
def verbValues : List Sexp := [.leaf "go", .list [.list [.leaf "run"]]]

/-- A body that gives `@verb` other values itself, with an inner loop over it. -/
def verbBody : List Sexp :=
  [.form "rule" [.leaf "$A", .list [.leaf "@verb"], .leaf "found"],
    .form "def" [.leaf "@verb", .leaf "walk"],
    .form "for" [.leaf "@verb", .list [.leaf "jump"],
      .form "rule" [.leaf "$B", .list [.leaf "@verb"], .leaf "found"]],
    .form "def" [.leaf "@last", .leaf "@verb"]]

/-- The second round fails, and still the old value is back. -/
theorem loop_unrolls_failing :
    let g := (Grammar.new).answer [valueRequest]
    let addPath := addPath (fun _ => .error .missing) 1
    let looped := (interpret addPath none (ofSexp (loopTree "@verb" verbValues verbBody))).run g
    let unrolled := (interpretAll addPath none (ofSexps (unrolledTrees "@verb" verbValues verbBody))).run g
    (looped.2.rules.map Rule.text = ["$A -> go (ConstantFn found)", "$B -> jump (ConstantFn found)"] ∧
        looped.1.isOk = false ∧ (looped.2.macros.get? "@last").map Sexp.text = some "walk" ∧
        (g.macros.get? "@verb").map Sexp.text = some "old") ∧
      looped.1 = unrolled.1 ∧ looped.2.AgreeBut ["@verb"] unrolled.2 ∧
      looped.2.macros.get? "@verb" = g.macros.get? "@verb" := by
  have hvalues : ∀ value ∈ verbValues, value.MacroFree := by decide
  have hreached := answer_mem_moments (Grammar.new) [valueRequest]
  refine ⟨by decide +kernel, ?_⟩
  exact loop_unrolls {} .standard [valueRequest] (fun _ => .error .missing) 1 none "@verb" verbValues verbBody
    (by decide) hvalues (by simp [verbBody]) _ hreached

end Grammar

end Parlance
