import Parlance.Proofs.Walk

/-!
# `Proofs.Plan` — a compilation up to the files that it includes

A compilation is defined for a number of files that may be inside each other. To say what it does without such a number,
it is taken apart where it includes a file. What it does up to there is a plan: either it has ended, or it wants a file
included into a grammar, and for each outcome of that there is a plan for the rest.

Plans are put together like computations are. The plan of a statement follows the statement, and carrying it out, with
any way to include files, is carrying out the statement.

## Contents
- **Plans.** `Plan`, `Plan.run`, and the ways to put plans together.
- **Following.** `Plan.Follows`, with a lemma for each of these ways.
- **Compiling.** `Grammar.statementPlan`, `textPlan` and `filePlan`, and `Grammar.run_filePlan`.
-/

namespace Parlance

/-! ## Plans -/

/-- What a compilation leaves: whether it succeeded, and the grammar. -/
abbrev Grammar.Outcome := Except GrammarError Unit × Grammar

open Grammar (Outcome)

/-- **A compilation up to the files that it includes.** -/
inductive Plan where
  /-- It has ended. -/
  | done (outcome : Outcome)
  /-- It includes a file into a grammar, and goes on with what that leaves. -/
  | ask (path : String) (grammar : Grammar) (next : Outcome → Plan)

namespace Plan

variable {α : Type}

/-- A plan, and one for each of its outcomes. -/
def bind : Plan → (Outcome → Plan) → Plan
  | done outcome, f => f outcome
  | ask path grammar next, f => ask path grammar fun outcome => (next outcome).bind f

/-- Carries a plan out, given how a file is included. -/
def run (addPath : String → Compile Unit) : Plan → Outcome
  | done outcome => outcome
  | ask path grammar next => (next ((addPath path).run grammar)).run addPath

/-- A computation that includes no file. -/
def act (c : Compile Unit) (grammar : Grammar) : Plan := done (c.run grammar)

/-- A file, and nothing after it. -/
def inclusion (path : String) (grammar : Grammar) : Plan := ask path grammar done

/-- One plan after the other, if the first one succeeds. -/
def seq (first second : Grammar → Plan) (grammar : Grammar) : Plan :=
  (first grammar).bind fun
    | (.ok (), after) => second after
    | (.error cause, after) => done (.error cause, after)

/-- Plans one after another, until one of them fails. -/
def inTurn : List (Grammar → Plan) → Grammar → Plan
  | [] => act (pure ())
  | first :: rest => seq first (inTurn rest)

/-- A plan that depends on what can be read off the grammar. -/
def given (read : Grammar → Except GrammarError α) (next : α → Grammar → Plan) (grammar : Grammar) : Plan :=
  match read grammar with
  | .ok a => next a grammar
  | .error cause => done (.error cause, grammar)

/-- A plan for which a macro has no value at first, and the old one afterwards. -/
def within (name : String) (body : Grammar → Plan) (grammar : Grammar) : Plan :=
  (body (grammar.restoreMacro name none)).bind fun outcome =>
    done (outcome.1, outcome.2.restoreMacro name (grammar.macros.get? name))

/-! ## Following -/

/-- **A plan for a computation**: carrying it out is running the computation, however files are included. -/
def Follows (plan : Grammar → Plan) (c : (String → Compile Unit) → Compile Unit) : Prop :=
  ∀ addPath grammar, (plan grammar).run addPath = (c addPath).run grammar

section Following

variable {addPath : String → Compile Unit} {plan plan' : Grammar → Plan}
variable {c c' : (String → Compile Unit) → Compile Unit}

theorem run_bind (p : Plan) (f : Outcome → Plan) : (p.bind f).run addPath = (f (p.run addPath)).run addPath := by
  induction p with
  | done outcome => rfl
  | ask path grammar next ih => exact ih _

theorem Follows.act (c : Compile Unit) : Follows (act c) fun _ => c := by
  intro addPath grammar
  rfl

theorem Follows.inclusion (path : String) : Follows (inclusion path) fun addPath => addPath path := by
  intro addPath grammar
  rfl

theorem Follows.seq (h : Follows plan c) (h' : Follows plan' c') :
    Follows (seq plan plan') (fun addPath => do
      c addPath
      c' addPath) := by
  intro addPath grammar
  unfold Plan.seq
  rw [run_bind, h addPath grammar]
  rcases hrun : (c addPath).run grammar with ⟨cause | ⟨⟩, after⟩
  · rw [run_bind_error hrun]
    rfl
  · rw [run_bind_ok hrun]
    exact h' addPath after

theorem Follows.inTurn {f : α → Grammar → Plan} {c : α → (String → Compile Unit) → Compile Unit}
    (h : ∀ item, Follows (f item) (c item)) (items : List α) :
    Follows (inTurn (items.map f)) fun addPath => items.forM fun item => c item addPath := by
  induction items with
  | nil => exact Follows.act _
  | cons item rest ih => exact (h item).seq ih

/-- What is read may be used together with the grammar that it was read off. -/
theorem Follows.given {read : Grammar → Except GrammarError α} {next : α → Grammar → Plan}
    {body : (String → Compile Unit) → Grammar → α → Compile Unit}
    (h : ∀ addPath grammar a, (next a grammar).run addPath = (body addPath grammar a).run grammar) :
    Follows (given read next) (fun addPath => do
      let grammar ← get
      let a ← Grammar.orFail (read grammar)
      body addPath grammar a) := by
  intro addPath grammar
  show _ = (Grammar.orFail (read grammar) >>= body addPath grammar).run grammar
  unfold Plan.given
  cases read grammar with
  | ok a =>
    rw [run_bind_ok (run_orFail_ok rfl)]
    exact h addPath grammar a
  | error cause =>
    rw [run_bind_error (run_orFail_error rfl)]
    rfl

theorem Follows.within (h : Follows plan c) (name : String) :
    Follows (within name plan) fun addPath => Grammar.withMacro name (c addPath) := by
  intro addPath grammar
  unfold Plan.within
  rw [run_bind, h addPath]
  rfl

end Following

end Plan

/-! ## Compiling -/

namespace Grammar

open Plan

/-- The plan of an inclusion. -/
def includePlan (file : String) (tree : Sexp) : List Sexp → Grammar → Plan
  | [] => act (pure ())
  | .leaf path :: rest => seq (inclusion (Path.sibling file path)) (includePlan file tree rest)
  | .list _ :: _ => act (throw (Statement.malformed tree "include paths must be leaves"))

mutual
/-- The plan of a statement. -/
def statementPlan (file : Option String) : Statement → Grammar → Plan
  | .rule tree => act (compileRule tree)
  | .inclusion tree paths =>
    match file with
    | some file => includePlan file tree paths
    | none => act (throw (.noIncludeContext tree.text))
  | .when condition body =>
    given (fun grammar => condition.holds grammar.options.tags) fun holds =>
      if holds then statementsPlan file body else act (pure ())
  | .define _ name value =>
    given (fun grammar => expand grammar.macros value) fun value =>
      act (modify fun grammar => grammar.bindMacro name value)
  | .each name values body =>
    given (fun grammar => expand grammar.macros values) fun values =>
      within name <| inTurn <| values.children.map fun value =>
        seq (act (modify fun grammar => grammar.bindMacro name value)) (statementsPlan file body)
  | .invalid cause _ => act (throw cause)
/-- The plan of several statements. -/
def statementsPlan (file : Option String) : List Statement → Grammar → Plan
  | [] => act (pure ())
  | s :: rest => seq (statementPlan file s) (statementsPlan file rest)
end

/-- The plan of the statements of a text. -/
def textPlan (file : Option String) (source : String) : Grammar → Plan :=
  match Sexp.readAll source with
  | .error cause => act (throw (.sexp cause))
  | .ok trees =>
    inTurn <| trees.map fun tree =>
      seq (statementPlan file (Statement.ofSexp tree))
        (act (modify fun grammar => grammar.mention (Statement.ofSexp tree).tags))

/-- The plan of a file. -/
def filePlan (files : FileSystem) (path : String) : Grammar → Plan :=
  match files path with
  | .error cause => act (throw (.unreadable path cause))
  | .ok source =>
    seq (act (modify fun grammar => grammar.noteFile path source)) (textPlan (some path) source)

section Runs

variable {file : Option String}

theorem follows_includePlan (file : String) (tree : Sexp) (paths : List Sexp) :
    Follows (includePlan file tree paths) fun addPath => includeAll addPath file tree paths := by
  induction paths with
  | nil => exact Follows.act _
  | cons item rest ih =>
    cases item with
    | leaf path => exact (Follows.inclusion _).seq ih
    | list items => exact Follows.act _

mutual
/-- The plan of a statement carries it out. -/
theorem follows_statementPlan (s : Statement) :
    Follows (statementPlan file s) fun addPath => interpret addPath file s := by
  unfold statementPlan interpret
  cases s with
  | rule tree => exact Follows.act _
  | inclusion tree paths =>
    cases file with
    | some file => exact follows_includePlan file tree paths
    | none => exact Follows.act _
  | when condition body =>
    refine Follows.given fun addPath grammar holds => ?_
    cases holds with
    | true => exact follows_statementsPlan body addPath grammar
    | false => rfl
  | define tree name value =>
    refine Follows.given fun addPath grammar value => ?_
    rfl
  | each name values body =>
    refine Follows.given fun addPath grammar values => ?_
    have hrounds := Follows.inTurn (fun value => (Follows.act (modify fun grammar => grammar.bindMacro name value)).seq
      (follows_statementsPlan body)) values.children
    exact hrounds.within name addPath grammar
  | invalid cause body => exact Follows.act _
theorem follows_statementsPlan (body : List Statement) :
    Follows (statementsPlan file body) fun addPath => interpretAll addPath file body := by
  unfold statementsPlan interpretAll
  cases body with
  | nil => exact Follows.act _
  | cons s rest => exact (follows_statementPlan s).seq (follows_statementsPlan rest)
end

theorem follows_textPlan (source : String) :
    Follows (textPlan file source) fun addPath => interpretText addPath file source := by
  unfold textPlan interpretText
  cases Sexp.readAll source with
  | error cause => exact Follows.act _
  | ok trees =>
    refine Follows.inTurn (fun tree => ?_) trees
    exact (follows_statementPlan (Statement.ofSexp tree)).seq (Follows.act _)

/-- **The plan of a file** reads it, where the files that it includes may go one less deep. -/
theorem run_filePlan (files : FileSystem) (depth : Nat) (path : String) (grammar : Grammar) :
    (filePlan files path grammar).run (addPath files depth) = (addPath files (depth + 1) path).run grammar := by
  unfold filePlan
  rw [addPath]
  cases files path with
  | error cause => rfl
  | ok source => exact (Follows.act _).seq (follows_textPlan source) (addPath files depth) grammar

end Runs

end Grammar

end Parlance
