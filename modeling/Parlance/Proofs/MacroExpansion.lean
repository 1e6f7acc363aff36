import Parlance.Proofs.MacroFree
import Parlance.Proofs.Walk

/-!
# `Proofs.MacroExpansion` — no macro survives its expansion

The values of macros are expanded before they are kept, and the values that a loop runs through are parts of an expanded
tree. While the loop runs, its macro has these values, and afterwards it has its old one, also if the body fails. So the
values need no expansion at any time, and what is compiled has no macro left in it.

## Contents
- **Statements.** `Statement.Named`: only names of macros are given values.
- **The invariant.** `Grammar.Expanded`, kept by each act.
- **Walks.** It is kept all along the walk of a statement, a text and a file.
- **The result.** `Grammar.expanded_of_mem_moments`.
-/

namespace Parlance

/-! ## Statements -/

namespace Statement

mutual
/-- **A statement that gives values to names of macros only.** -/
def Named : Statement → Prop
  | rule _ => True
  | inclusion _ _ => True
  | .when _ body => AllNamed body
  | define _ name _ => isMacroName name = true
  | each name _ body => isMacroName name = true ∧ AllNamed body
  | invalid _ _ => True
/-- The same of several statements. -/
def AllNamed : List Statement → Prop
  | [] => True
  | s :: rest => Named s ∧ AllNamed rest
end

mutual
/-- What is read off a tree is such a statement. -/
theorem named_ofSexp (tree : Sexp) : (ofSexp tree).Named := by
  unfold ofSexp
  split
  case h_1 => trivial
  case h_2 rest =>
    dsimp only
    split <;> trivial
  case h_3 => trivial
  case h_4 => trivial
  case h_5 condition body => exact allNamed_ofSexps body
  case h_6 rest =>
    dsimp only
    split
    case h_1 name value =>
      split
      case isTrue hname => exact hname
      case isFalse => trivial
    case h_2 => trivial
  case h_7 name values body =>
    have hbody := allNamed_ofSexps body
    dsimp only
    split
    case h_1 name first rest heq =>
      split
      case isTrue hname => exact ⟨hname, hbody⟩
      case isFalse => trivial
    case h_2 => trivial
  case h_8 => trivial
  case h_9 => trivial
theorem allNamed_ofSexps (trees : List Sexp) : AllNamed (ofSexps trees) := by
  cases trees with
  | nil => trivial
  | cons tree rest => exact ⟨named_ofSexp tree, allNamed_ofSexps rest⟩
end

end Statement

/-! ## The invariant -/

namespace Grammar

/-- **A grammar whose macros need no expansion**, and in whose rules no macro is left. -/
structure Expanded (registry : Registry) (grammar : Grammar) : Prop where
  macros : MacrosExpanded grammar.macros
  same : grammar.registry = registry
  rules : ∀ r ∈ grammar.rules, r.MacroFree registry

section Acts

variable {registry : Registry} {grammar after : Grammar} {name : String} {value : Sexp}

theorem expanded_new (options : GrammarOptions) : (Grammar.new options registry).Expanded registry where
  macros := macrosExpanded_empty
  same := rfl
  rules _ hr := nomatch hr

theorem Expanded.bindMacro (h : grammar.Expanded registry) (hname : Statement.isMacroName name = true)
    (hvalue : value.MacroFree) : (grammar.bindMacro name value).Expanded registry :=
  { h with macros := h.macros.insert hname hvalue }

theorem Expanded.clearMacro (h : grammar.Expanded registry) (name : String) :
    (grammar.restoreMacro name none).Expanded registry :=
  { h with macros := h.macros.erase name }

/-- The value that a macro had before is given back to it. -/
theorem Expanded.restoreMacro (h : after.Expanded registry) (hbefore : grammar.Expanded registry) (name : String) :
    (after.restoreMacro name (grammar.macros.get? name)).Expanded registry := by
  cases hvalue : grammar.macros.get? name with
  | none => exact h.clearMacro name
  | some value =>
    obtain ⟨hname, hfree⟩ := hbefore.macros.get hvalue
    exact h.bindMacro hname hfree

theorem Expanded.addRule {rule : Rule} {optionals : List Bool} (h : grammar.Expanded registry)
    (hrule : rule.MacroFree registry) (hadd : grammar.addRule rule optionals = .ok after) :
    after.Expanded registry := by
  obtain ⟨rules, fresh, hrules, rfl⟩ := macroFree_addRule hrule hadd
  exact { h with rules := List.forall_mem_append.mpr ⟨h.rules, hrules⟩ }

/-- A rule is compiled from its expanded statement. -/
theorem Expanded.compileRule (h : grammar.Expanded registry) (tree : Sexp) :
    ((compileRule tree).run grammar).2.Expanded registry := by
  show ((orFail (expand grammar.macros tree) >>= _).run grammar).2.Expanded registry
  refine of_orFail_bind h fun expanded hexpand => of_orFail_bind h fun pair hread => ?_
  obtain ⟨rule, optionals⟩ := pair
  refine of_orFail_bind h fun after hadd => ?_
  have hfree := expand_macroFree h.macros hexpand
  rw [h.same] at hread
  exact h.addRule (macroFree_readRule hfree hread) hadd

end Acts

/-! ## Walks -/

section Walks

variable {registry : Registry} {addPath : String → Walk} {file : Option String}

theorem keeps_includeWalk (haddPath : ∀ path, (addPath path).Keeps (Expanded registry)) (file : String) (tree : Sexp)
    (paths : List Sexp) : (includeWalk addPath file tree paths).Keeps (Expanded registry) := by
  induction paths with
  | nil => exact Walk.Keeps.stay
  | cons item rest ih =>
    cases item with
    | leaf path => exact (haddPath _).seq ih
    | list items => exact Walk.Keeps.fail _

mutual
/-- **Carrying a statement out** keeps the invariant at every moment. -/
theorem keeps_statementWalk (haddPath : ∀ path, (addPath path).Keeps (Expanded registry)) (s : Statement)
    (hs : s.Named) : (statementWalk addPath file s).Keeps (Expanded registry) := by
  unfold statementWalk
  cases s with
  | rule tree => exact Walk.Keeps.act fun grammar h => h.compileRule tree
  | inclusion tree paths =>
    cases file with
    | some file => exact keeps_includeWalk haddPath file tree paths
    | none => exact Walk.Keeps.fail _
  | when condition body =>
    refine Walk.Keeps.given fun _ holds _ _ => ?_
    cases holds with
    | true => exact keeps_statementsWalk haddPath body hs
    | false => exact Walk.Keeps.stay
  | define tree name value =>
    refine Walk.Keeps.given fun grammar value hgrammar hvalue => Walk.Keeps.act fun g hg => ?_
    exact hg.bindMacro hs (expand_macroFree hgrammar.macros hvalue)
  | each name values body =>
    obtain ⟨hname, hbody⟩ := hs
    refine Walk.Keeps.given fun grammar values hgrammar hvalues => Walk.Keeps.within ?_
      (fun g hg => hg.clearMacro name) fun g g' hg hg' => hg'.restoreMacro hg name
    -- each value is a part of the expanded tree
    have hfree := expand_macroFree hgrammar.macros hvalues
    refine Walk.Keeps.inTurn (List.forall_mem_map.mpr fun value hvalue => ?_)
    exact (Walk.Keeps.act fun g hg => hg.bindMacro hname (hfree.of_mem_children hvalue)).seq
      (keeps_statementsWalk haddPath body hbody)
  | invalid cause body => exact Walk.Keeps.fail cause
theorem keeps_statementsWalk (haddPath : ∀ path, (addPath path).Keeps (Expanded registry)) (body : List Statement)
    (hbody : Statement.AllNamed body) : (statementsWalk addPath file body).Keeps (Expanded registry) := by
  unfold statementsWalk
  cases body with
  | nil => exact Walk.Keeps.stay
  | cons s rest => exact (keeps_statementWalk haddPath s hbody.1).seq (keeps_statementsWalk haddPath rest hbody.2)
end

theorem keeps_textWalk (haddPath : ∀ path, (addPath path).Keeps (Expanded registry)) (source : String) :
    (textWalk addPath file source).Keeps (Expanded registry) := by
  unfold textWalk
  cases Sexp.readAll source with
  | error cause => exact Walk.Keeps.fail _
  | ok trees =>
    refine Walk.Keeps.inTurn (List.forall_mem_map.mpr fun tree _ => ?_)
    exact (keeps_statementWalk haddPath _ (Statement.named_ofSexp tree)).seq
      (Walk.Keeps.act fun _ h => ⟨h.macros, h.same, h.rules⟩)

theorem keeps_pathWalk (files : FileSystem) (depth : Nat) (path : String) :
    (pathWalk files depth path).Keeps (Expanded registry) := by
  induction depth generalizing path with
  | zero => exact Walk.Keeps.fail _
  | succ depth ih =>
    unfold pathWalk
    cases files path with
    | error cause => exact Walk.Keeps.fail _
    | ok source =>
      exact (Walk.Keeps.act fun _ h => ⟨h.macros, h.same, h.rules⟩).seq (keeps_textWalk ih source)

theorem Request.keeps_walk (request : Request) : request.walk.Keeps (Expanded registry) := by
  cases request with
  | text files depth source context =>
    have hnote : (Walk.act (modify fun grammar => { grammar with statements := grammar.statements ++ [source] })).Keeps
        (Expanded registry) := Walk.Keeps.act fun _ h => ⟨h.macros, h.same, h.rules⟩
    exact hnote.seq (keeps_textWalk (keeps_pathWalk files depth) source)
  | file files depth path => exact keeps_pathWalk files depth path

end Walks

/-! ## The result -/

/-- **Expanding macros is complete.** Whatever texts and files are read, and however deeply these include each other, at
every moment on the way, inside loops and included files and after failures, macros have names of macros, and values
that no name of a macro occurs in. So a tree that can be expanded has no macro left in it then, and expanding it again
changes nothing. No macro is left in the symbols of a rule that was compiled, nor in the tree that its function was
built from, nor in the one that it is written as. -/
theorem expanded_of_mem_moments (options : GrammarOptions) (registry : Registry) (requests : List Request) :
    ∀ g ∈ (Grammar.new options registry).moments requests,
      MacrosExpanded g.macros ∧
      (∀ tree tree', expand g.macros tree = .ok tree' → tree'.MacroFree ∧ expand g.macros tree' = .ok tree') ∧
      ∀ r ∈ g.rules, r.MacroFree registry ∧ (registry.Plain → r.sem.tree.MacroFree) := by
  intro g hg
  have hexpanded : g.Expanded registry :=
    forall_mem_moments (fun request _ => request.keeps_walk) (expanded_new options) g hg
  refine ⟨hexpanded.macros, fun tree tree' h => ?_, fun r hr => ?_⟩
  · have hfree := expand_macroFree hexpanded.macros h
    exact ⟨hfree, expand_eq_self hexpanded.macros hfree⟩
  · have hrule := hexpanded.rules r hr
    exact ⟨hrule, hrule.tree⟩

/-- A text with a loop over a macro, in which another macro gets a value and a file is included. -/
def sampleSource : String :=
  "(def @what thing) (for @verb (go run) (def @phrase (call @verb @what)) " ++
    "(rule $A (@verb) (ConstantFn @phrase)) (include more))"

/-- The file, with a statement that is carried out and one that fails. -/
def sampleFile : String := "(rule $B (@verb) (ConstantFn @phrase)) (rule $C (@missing) thing)"

/-- The text, and a statement that uses what is left of it. -/
def sampleRequests : List Request :=
  [.text (fun _ => .ok sampleFile) 1 sampleSource (some "main"),
    .text (fun _ => .error .missing) 0 "(rule $D (@phrase) @what)" none]

/-- Inside the loop, after the statement that fails. -/
theorem expanded_of_mem_moments_sample :
    ∃ g ∈ (Grammar.new).moments sampleRequests,
      g.macros.keys = ["@what", "@verb", "@phrase"] ∧
        g.rules.map Rule.text = ["$A -> go (ConstantFn (call go thing))", "$B -> go (ConstantFn (call go thing))"] ∧
        MacrosExpanded g.macros ∧ ∀ r ∈ g.rules, r.sem.tree.MacroFree := by
  have hmoment : ((Grammar.new).moments sampleRequests)[20]?.map (fun g => (g.macros.keys, g.rules.map Rule.text)) =
      some (["@what", "@verb", "@phrase"],
        ["$A -> go (ConstantFn (call go thing))", "$B -> go (ConstantFn (call go thing))"]) := by decide +kernel
  obtain ⟨g, hat, hview⟩ := Option.map_eq_some_iff.mp hmoment
  obtain ⟨hkeys, htexts⟩ := Prod.mk.inj hview
  have hg := List.mem_of_getElem? hat
  obtain ⟨hmacros, -, hrules⟩ := expanded_of_mem_moments {} .standard sampleRequests g hg
  exact ⟨g, hg, hkeys, htexts, hmacros, fun r hr => (hrules r hr).2 Registry.plain_standard⟩

end Grammar

end Parlance
