import Parlance.Grammar.Compile

/-!
# `Proofs.Walk` — every grammar that a compilation goes through

A compilation that fails keeps what was done before, and a loop works on a grammar that nobody sees afterwards. What is
to hold of the grammar at any time is therefore stated of all the grammars that a compilation goes through.

A walk is a computation together with these grammars. Walks are put together like computations are, and the walk of a
statement follows the statement.

## Contents
- **Computations.** What they do one after the other.
- **Walks.** `Walk`, and the ways to put walks together.
- **What walks keep.** `Walk.Keeps`, with a lemma for each of these ways.
- **Compiling.** `Grammar.statementWalk`, `textWalk` and `pathWalk`, whose computations are those of the program.
- **Requests.** `Request`, and `Grammar.moments` for several of them.
-/

namespace Parlance

/-! ## Computations -/

section Computations

variable {α : Type} {x : Compile α} {f : α → Compile Unit} {grammar after : Grammar} {a : α} {cause : GrammarError}

/-- What comes after a step that succeeds starts from the grammar that the step leaves. -/
theorem run_bind_ok (h : x.run grammar = (.ok a, after)) : (x >>= f).run grammar = (f a).run after := by
  show (x.run >>= ExceptT.bindCont f : StateM Grammar _).run grammar = _
  rw [StateT.run_bind]
  show (x.run grammar >>= fun p => (ExceptT.bindCont f p.1).run p.2 : Id _) = _
  rw [h]
  rfl

/-- Nothing comes after a step that fails. -/
theorem run_bind_error (h : x.run grammar = (.error cause, after)) :
    (x >>= f).run grammar = (.error cause, after) := by
  show (x.run >>= ExceptT.bindCont f : StateM Grammar _).run grammar = _
  rw [StateT.run_bind]
  show (x.run grammar >>= fun p => (ExceptT.bindCont f p.1).run p.2 : Id _) = _
  rw [h]
  rfl

theorem run_orFail_ok {read : Except GrammarError α} (h : read = .ok a) :
    (Grammar.orFail read).run grammar = (.ok a, grammar) := by
  subst h
  rfl

theorem run_orFail_error {read : Except GrammarError α} (h : read = .error cause) :
    (Grammar.orFail read).run grammar = (.error cause, grammar) := by
  subst h
  rfl

/-- A computation that needs a result leaves the grammar as it is where there is none. -/
theorem of_orFail_bind {P : Grammar → Prop} {read : Except GrammarError α} (hgrammar : P grammar)
    (h : ∀ a, read = .ok a → P ((f a).run grammar).2) : P ((Grammar.orFail read >>= f).run grammar).2 := by
  cases hread : read with
  | ok a =>
    rw [run_bind_ok (run_orFail_ok rfl)]
    exact h a hread
  | error cause =>
    rw [run_bind_error (run_orFail_error rfl)]
    exact hgrammar

end Computations

/-! ## Walks -/

/-- **A computation with the grammars that it goes through**, among them the one that it leaves. -/
structure Walk where
  run : Compile Unit
  through : Grammar → List Grammar
  last_mem : ∀ grammar, (run.run grammar).2 ∈ through grammar

namespace Walk

variable {α : Type}

/-- A computation that changes the grammar at most once. -/
def act (run : Compile Unit) : Walk where
  run
  through grammar := [grammar, (run.run grammar).2]
  last_mem _ := List.mem_cons_of_mem _ (List.mem_singleton_self _)

/-- Nothing is done. -/
def stay : Walk := act (pure ())

/-- One walk after the other, if the first one succeeds. -/
def seq (first second : Walk) : Walk where
  run := do
    first.run
    second.run
  through grammar :=
    first.through grammar ++
      match first.run.run grammar with
      | (.ok (), after) => second.through after
      | (.error _, _) => []
  last_mem grammar := by
    rcases h : first.run.run grammar with ⟨cause | ⟨⟩, after⟩
    · rw [run_bind_error h]
      have hlast := first.last_mem grammar
      rw [h] at hlast
      exact List.mem_append_left _ hlast
    · rw [run_bind_ok h]
      exact List.mem_append_right _ (second.last_mem after)

/-- Walks one after another, until one of them fails. -/
def inTurn : List Walk → Walk
  | [] => stay
  | walk :: rest => walk.seq (inTurn rest)

/-- A walk that depends on what can be read off the grammar. -/
def given (read : Grammar → Except GrammarError α) (next : α → Walk) : Walk where
  run := do
    let grammar ← get
    let a ← Grammar.orFail (read grammar)
    (next a).run
  through grammar :=
    match read grammar with
    | .ok a => (next a).through grammar
    | .error _ => [grammar]
  last_mem grammar := by
    show ((Grammar.orFail (read grammar) >>= fun a => (next a).run).run grammar).2 ∈ _
    cases h : read grammar with
    | ok a =>
      rw [run_bind_ok (run_orFail_ok rfl)]
      exact (next a).last_mem grammar
    | error cause =>
      rw [run_bind_error (run_orFail_error rfl)]
      exact List.mem_singleton_self _

/-- A walk for which a macro has no value at first, and the old one afterwards. -/
def within (name : String) (body : Walk) : Walk where
  run := Grammar.withMacro name body.run
  through grammar :=
    grammar :: body.through (grammar.restoreMacro name none) ++
      [((Grammar.withMacro name body.run).run grammar).2]
  last_mem _ := List.mem_append_right _ (List.mem_singleton_self _)

/-- A walk within a macro is run with the macro undone afterwards. -/
theorem run_within {name : String} {body : Walk} : (within name body).run = Grammar.withMacro name body.run := rfl

theorem run_inTurn_map {β : Type} (f : β → Walk) (items : List β) :
    (inTurn (items.map f)).run = items.forM fun item => (f item).run := by
  induction items with
  | nil => rfl
  | cons item rest ih =>
    show ((f item).run >>= fun _ => (inTurn (rest.map f)).run) = _
    rw [ih]
    rfl

/-- What is read may be used together with the grammar that it was read off. -/
theorem run_given {read : Grammar → Except GrammarError α} {next : α → Walk} {body : Grammar → α → Compile Unit}
    (h : ∀ grammar a, (next a).run.run grammar = (body grammar a).run grammar) :
    (given read next).run = (do
      let grammar ← get
      let a ← Grammar.orFail (read grammar)
      body grammar a) := by
  funext grammar
  show (Grammar.orFail (read grammar) >>= fun a => (next a).run).run grammar =
    (Grammar.orFail (read grammar) >>= body grammar).run grammar
  cases read grammar with
  | ok a =>
    rw [run_bind_ok (run_orFail_ok rfl), run_bind_ok (run_orFail_ok rfl)]
    exact h grammar a
  | error cause => rw [run_bind_error (run_orFail_error rfl), run_bind_error (run_orFail_error rfl)]

/-! ## What walks keep -/

/-- **Whatever holds at the start holds all along.** -/
def Keeps (P : Grammar → Prop) (walk : Walk) : Prop := ∀ grammar, P grammar → ∀ g ∈ walk.through grammar, P g

section Keeping

variable {P : Grammar → Prop}

/-- **What a walk keeps** holds of the grammar that its run ends with. -/
theorem Keeps.last {walk : Walk} (h : walk.Keeps P) {grammar : Grammar} (hg : P grammar) :
    P (walk.run.run grammar).2 := h grammar hg _ (walk.last_mem grammar)

theorem Keeps.act {run : Compile Unit} (h : ∀ grammar, P grammar → P (run.run grammar).2) : (act run).Keeps P := by
  intro grammar hgrammar g hg
  rcases List.mem_cons.mp hg with rfl | hg
  · exact hgrammar
  · rw [List.mem_singleton.mp hg]
    exact h grammar hgrammar

theorem Keeps.stay : stay.Keeps P := Keeps.act fun _ h => h

/-- Failing changes nothing. -/
theorem Keeps.fail (cause : GrammarError) : (Walk.act (throw cause)).Keeps P := Keeps.act fun _ h => h

theorem Keeps.seq {first second : Walk} (h : first.Keeps P) (h' : second.Keeps P) : (first.seq second).Keeps P := by
  intro grammar hgrammar g hg
  have hlast := h.last hgrammar
  rcases List.mem_append.mp hg with hg | hg
  · exact h grammar hgrammar g hg
  · split at hg
    case h_1 after heq =>
      rw [heq] at hlast
      exact h' after hlast g hg
    case h_2 => cases hg

/-- Walks that are made in turn keep what each of them keeps. -/
theorem Keeps.inTurn {walks : List Walk} (h : ∀ walk ∈ walks, walk.Keeps P) : (inTurn walks).Keeps P := by
  induction walks with
  | nil => exact Keeps.stay
  | cons walk rest ih =>
    rw [List.forall_mem_cons] at h
    exact h.1.seq (ih h.2)

/-- What is kept may depend on what is read. -/
theorem Keeps.given {read : Grammar → Except GrammarError α} {next : α → Walk}
    (h : ∀ grammar a, P grammar → read grammar = .ok a → (next a).Keeps P) : (given read next).Keeps P := by
  intro grammar hgrammar g hg
  dsimp only [Walk.given] at hg
  split at hg
  case h_1 a heq => exact h grammar a hgrammar heq grammar hgrammar g hg
  case h_2 =>
    rw [List.mem_singleton.mp hg]
    exact hgrammar

/-- A walk within a macro keeps what the walk itself and the undoing of the macro keep. -/
theorem Keeps.within {name : String} {body : Walk} (hbody : body.Keeps P)
    (hclear : ∀ grammar, P grammar → P (grammar.restoreMacro name none))
    (hrestore : ∀ grammar g, P grammar → P g → P (g.restoreMacro name (grammar.macros.get? name))) :
    (within name body).Keeps P := by
  intro grammar hgrammar g hg
  have hcleared := hclear grammar hgrammar
  rcases List.mem_append.mp hg with hg | hg
  · rcases List.mem_cons.mp hg with rfl | hg
    · exact hgrammar
    · exact hbody _ hcleared g hg
  · rw [List.mem_singleton.mp hg]
    exact hrestore grammar _ hgrammar (hbody.last hcleared)

end Keeping

end Walk

/-! ## Compiling -/

namespace Grammar

/-- The walk of an inclusion. -/
def includeWalk (addPath : String → Walk) (file : String) (tree : Sexp) : List Sexp → Walk
  | [] => .stay
  | .leaf path :: rest => (addPath (Path.sibling file path)).seq (includeWalk addPath file tree rest)
  | .list _ :: _ => .act (throw (Statement.malformed tree "include paths must be leaves"))

mutual
/-- The walk of a statement, given those of the files that are included. -/
def statementWalk (addPath : String → Walk) (file : Option String) : Statement → Walk
  | .rule tree => .act (compileRule tree)
  | .inclusion tree paths =>
    match file with
    | some file => includeWalk addPath file tree paths
    | none => .act (throw (.noIncludeContext tree.text))
  | .when condition body =>
    .given (fun grammar => condition.holds grammar.options.tags) fun holds =>
      if holds then statementsWalk addPath file body else .stay
  | .define _ name value =>
    .given (fun grammar => expand grammar.macros value) fun value =>
      .act (modify fun grammar => grammar.bindMacro name value)
  | .each name values body =>
    .given (fun grammar => expand grammar.macros values) fun values =>
      .within name <| .inTurn <| values.children.map fun value =>
        (Walk.act (modify fun grammar => grammar.bindMacro name value)).seq (statementsWalk addPath file body)
  | .invalid cause _ => .act (throw cause)
/-- The walk of several statements. -/
def statementsWalk (addPath : String → Walk) (file : Option String) : List Statement → Walk
  | [] => .stay
  | s :: rest => (statementWalk addPath file s).seq (statementsWalk addPath file rest)
end

/-- The walk of the statements of a text. -/
def textWalk (addPath : String → Walk) (file : Option String) (source : String) : Walk :=
  match Sexp.readAll source with
  | .error cause => .act (throw (.sexp cause))
  | .ok trees =>
    .inTurn <| trees.map fun tree =>
      (statementWalk addPath file (Statement.ofSexp tree)).seq
        (.act (modify fun grammar => grammar.mention (Statement.ofSexp tree).tags))

/-- The walk of a file and those that it includes. -/
def pathWalk (files : FileSystem) : Nat → String → Walk
  | 0, path => .act (throw (.tooDeep path))
  | depth + 1, path =>
    match files path with
    | .error cause => .act (throw (.unreadable path cause))
    | .ok source =>
      (Walk.act (modify fun grammar => grammar.noteFile path source)).seq
        (textWalk (pathWalk files depth) (some path) source)

section Runs

variable {addPath : String → Walk} {file : Option String}

theorem run_includeWalk (file : String) (tree : Sexp) (paths : List Sexp) :
    (includeWalk addPath file tree paths).run = includeAll (fun path => (addPath path).run) file tree paths := by
  induction paths with
  | nil => rfl
  | cons item rest ih =>
    cases item with
    | leaf path =>
      show ((addPath _).run >>= fun _ => (includeWalk addPath file tree rest).run) = _
      rw [ih]
      rfl
    | list items => rfl

mutual
/-- The walk of a statement carries it out. -/
theorem run_statementWalk (s : Statement) :
    (statementWalk addPath file s).run = interpret (fun path => (addPath path).run) file s :=
  match s with
  | .rule tree => rfl
  | .inclusion tree paths => by
    unfold statementWalk interpret
    cases file with
    | some file => exact run_includeWalk file tree paths
    | none => rfl
  | .when condition body => by
    unfold statementWalk interpret
    rw [← run_statementsWalk body]
    refine Walk.run_given fun grammar holds => ?_
    cases holds with
    | true => rfl
    | false => rfl
  | .define tree name value => by
    unfold statementWalk interpret
    exact Walk.run_given fun grammar value => rfl
  | .each name values body => by
    unfold statementWalk interpret
    rw [← run_statementsWalk body]
    refine Walk.run_given fun grammar values => ?_
    rw [Walk.run_within, Walk.run_inTurn_map]
    rfl
  | .invalid cause body => rfl
theorem run_statementsWalk (body : List Statement) :
    (statementsWalk addPath file body).run = interpretAll (fun path => (addPath path).run) file body :=
  match body with
  | [] => rfl
  | s :: rest => by
    unfold statementsWalk interpretAll
    rw [← run_statementWalk s, ← run_statementsWalk rest]
    rfl
end

theorem run_textWalk (source : String) :
    (textWalk addPath file source).run = interpretText (fun path => (addPath path).run) file source := by
  unfold textWalk interpretText
  cases Sexp.readAll source with
  | error cause => rfl
  | ok trees =>
    dsimp only
    rw [Walk.run_inTurn_map]
    congr 1
    funext tree
    rw [← run_statementWalk]
    rfl

/-- **The walk through a file** is run as the file is added. -/
theorem run_pathWalk (files : FileSystem) (depth : Nat) :
    (fun path => (pathWalk files depth path).run) = Grammar.addPath files depth := by
  induction depth with
  | zero => rfl
  | succ depth ih =>
    funext path
    unfold pathWalk Grammar.addPath
    cases files path with
    | error cause => rfl
    | ok source =>
      dsimp only
      rw [← ih, ← run_textWalk]
      rfl

end Runs

/-! ## Requests -/

/-- What a grammar may be asked to read, and how deeply the files in it may include each other. -/
inductive Request where
  /-- The statements of a text, which may stand in a file. -/
  | text (files : FileSystem) (depth : Nat) (source : String) (context : Option String)
  /-- A file. -/
  | file (files : FileSystem) (depth : Nat) (path : String)

/-- The program for a request. -/
def Request.run : Request → Compile Unit
  | .text files depth source context => addStatements files source context depth
  | .file files depth path => addFile files path depth

/-- The walk of a request. -/
def Request.walk : Request → Walk
  | .text files depth source context =>
    (Walk.act (modify fun grammar => { grammar with statements := grammar.statements ++ [source] })).seq
      (textWalk (pathWalk files depth) context source)
  | .file files depth path => pathWalk files depth path

/-- **The walk of a request** is run as the request is. -/
theorem Request.run_walk (request : Request) : request.walk.run = request.run := by
  cases request with
  | text files depth source context =>
    show _ = addStatements files source context depth
    unfold addStatements
    rw [← run_pathWalk, ← run_textWalk]
    rfl
  | file files depth path => exact congrFun (run_pathWalk files depth) path

/-- The grammar after requests one after another, also after those that fail. -/
def answer (grammar : Grammar) (requests : List Request) : Grammar :=
  requests.foldl (fun grammar request => (request.run.run grammar).2) grammar

/-- **Every grammar that requests lead through**, from a grammar on. -/
def moments (grammar : Grammar) : List Request → List Grammar
  | [] => [grammar]
  | request :: rest => request.walk.through grammar ++ moments (request.run.run grammar).2 rest

/-- The last of these is the one that the requests leave. -/
theorem answer_mem_moments (grammar : Grammar) (requests : List Request) :
    grammar.answer requests ∈ grammar.moments requests := by
  induction requests generalizing grammar with
  | nil => exact List.mem_singleton_self _
  | cons request rest ih => exact List.mem_append_right _ (ih _)

/-- **Whatever the walk of each request keeps** holds at all moments. -/
theorem forall_mem_moments {P : Grammar → Prop} {requests : List Request}
    (h : ∀ request ∈ requests, request.walk.Keeps P) {grammar : Grammar} (hgrammar : P grammar) :
    ∀ g ∈ grammar.moments requests, P g := by
  induction requests generalizing grammar with
  | nil => exact List.forall_mem_singleton.mpr hgrammar
  | cons request rest ih =>
    rw [List.forall_mem_cons] at h
    have hlast := h.1.last hgrammar
    rw [request.run_walk] at hlast
    exact List.forall_mem_append.mpr ⟨h.1 grammar hgrammar, ih h.2 hlast⟩

end Grammar

end Parlance
