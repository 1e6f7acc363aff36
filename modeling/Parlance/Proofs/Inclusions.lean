import Mathlib
import Parlance.Proofs.Fold
import Parlance.Proofs.Plan

/-!
# `Proofs.Inclusions` — when reading a file comes to an end

Reading a file reads the files that it includes, wherever their statements are carried out, and nothing keeps a file
from including one that is being read. So reading comes to an end if inclusions do not go on inside each other forever,
and then its outcome is the same however deep they are allowed to go.

If they do go on forever, then every limit to their depth is reached. Each file that is read on the way adds at least a
line to the statements that a grammar keeps, and no statement is ever taken away. So the outcome has as many statements
as inclusions were allowed, and no outcome is that of all limits.

There are only so many files, and so endless inclusions come back to one of them while it is being read.

## Contents
- **Ends.** `Plan.Ends`, what is left in the end, and `Plan.Asks`, what is included before.
- **Inclusions.** `Grammar.IncludedIn`, and `Grammar.exists_ends_iff`: a file is read to the end if inclusions inside
  each other end.
- **Growth.** `Plan.Grows`: statements are kept. `Grammar.ends_or_grown` for a limited depth.
- **The result.** `Grammar.returns_iff`, `Grammar.reading_returns_iff`.
-/

namespace Parlance

open Grammar (Outcome filePlan addPath)

/-! ## Ends -/

namespace Plan

/-- **What a plan leaves in the end**, if each file that it includes is read to the end. -/
inductive Ends (files : FileSystem) : Plan → Outcome → Prop
  | done (outcome : Outcome) : Ends files (.done outcome) outcome
  | ask {path : String} {grammar : Grammar} {next : Outcome → Plan} {reply outcome : Outcome} :
      Ends files (filePlan files path grammar) reply → Ends files (next reply) outcome →
        Ends files (.ask path grammar next) outcome

/-- **What a plan comes to include**: each file after the ones before it are read to the end. -/
inductive Asks (files : FileSystem) : Plan → String × Grammar → Prop
  | now (path : String) (grammar : Grammar) (next : Outcome → Plan) :
      Asks files (.ask path grammar next) (path, grammar)
  | later {path : String} {grammar : Grammar} {next : Outcome → Plan} {reply : Outcome} {reading : String × Grammar} :
      Ends files (filePlan files path grammar) reply → Asks files (next reply) reading →
        Asks files (.ask path grammar next) reading

section Ending

variable {files : FileSystem} {plan : Plan} {outcome outcome' : Outcome}

/-- A plan that ends does so whenever enough inclusions inside each other are allowed. -/
theorem Ends.run (h : Ends files plan outcome) : ∃ depth, ∀ more ≥ depth, plan.run (addPath files more) = outcome := by
  induction h with
  | done outcome => exact ⟨0, fun _ _ => rfl⟩
  | ask _ _ ihfile ihnext =>
    obtain ⟨depth, hfile⟩ := ihfile
    obtain ⟨depth', hnext⟩ := ihnext
    refine ⟨max (depth + 1) depth', fun more hmore => ?_⟩
    obtain ⟨hmore, hmore'⟩ := Nat.max_le.mp hmore
    obtain ⟨less, rfl⟩ := Nat.exists_eq_add_of_le' hmore
    have hreply := hfile (less + depth) (Nat.le_add_left _ _)
    rw [Grammar.run_filePlan] at hreply
    rw [Plan.run, ← Nat.add_assoc, hreply]
    exact hnext _ hmore'

/-- It ends in one way only. -/
theorem Ends.unique (h : Ends files plan outcome) (h' : Ends files plan outcome') : outcome = outcome' := by
  obtain ⟨depth, hrun⟩ := h.run
  obtain ⟨depth', hrun'⟩ := h'.run
  rw [← hrun (max depth depth') (Nat.le_max_left _ _), hrun' _ (Nat.le_max_right _ _)]

/-- A plan ends if all the files end that it comes to include. -/
theorem exists_ends_of_asks (plan : Plan)
    (h : ∀ reading, Asks files plan reading → ∃ reply, Ends files (filePlan files reading.1 reading.2) reply) :
    ∃ outcome, Ends files plan outcome := by
  induction plan with
  | done outcome => exact ⟨outcome, Ends.done outcome⟩
  | ask path grammar next ih =>
    obtain ⟨reply, hreply⟩ := h _ (Asks.now path grammar next)
    obtain ⟨outcome, hnext⟩ := ih reply fun reading hreading => h reading (Asks.later hreply hreading)
    exact ⟨outcome, Ends.ask hreply hnext⟩

end Ending

end Plan

/-! ## Inclusions -/

namespace Grammar

open Plan

/-- **An inclusion**: reading the outer file into the outer grammar comes to include the inner file into the inner
grammar. -/
def IncludedIn (files : FileSystem) (inner outer : String × Grammar) : Prop :=
  Asks files (filePlan files outer.1 outer.2) inner

/-- **Endless inclusions**: each file comes to include the next one. -/
def Endless (files : FileSystem) (chain : Nat → String × Grammar) : Prop :=
  ∀ n, IncludedIn files (chain (n + 1)) (chain n)

section Inclusions

variable {files : FileSystem} {plan : Plan} {outcome : Outcome} {reading : String × Grammar}

/-- A file is read to the end if inclusions inside it end. -/
theorem exists_ends_of_acc (h : Acc (IncludedIn files) reading) :
    ∃ outcome, Ends files (filePlan files reading.1 reading.2) outcome := by
  induction h with
  | intro reading _ ih => exact exists_ends_of_asks _ ih

/-- And only then: nothing that is included before the end has endless inclusions in it. -/
theorem acc_of_asks (h : Ends files plan outcome) (hasks : Asks files plan reading) :
    Acc (IncludedIn files) reading := by
  induction h generalizing reading with
  | done outcome => cases hasks
  | ask hreply _ ihfile ihnext =>
    cases hasks with
    | now path grammar next => exact Acc.intro _ fun inner hinner => ihfile hinner
    | later hreply' hnext =>
      obtain rfl := hreply.unique hreply'
      exact ihnext hnext

/-- **A file is read to the end** if and only if no inclusions inside it are endless. -/
theorem exists_ends_iff :
    (∃ outcome, Ends files (filePlan files reading.1 reading.2) outcome) ↔
      ¬∃ chain, chain 0 = reading ∧ Endless files chain := by
  have hchain : ¬Acc (IncludedIn files) reading ↔ ∃ chain, chain 0 = reading ∧ Endless files chain :=
    not_acc_iff_exists_descending_chain
  rw [← hchain, not_not]
  constructor
  · rintro ⟨outcome, hends⟩
    exact Acc.intro _ fun inner hinner => acc_of_asks hends hinner
  · exact exists_ends_of_acc

end Inclusions

end Grammar

/-! ## Growth -/

namespace Plan

/-- A grammar with at least so many statements. -/
def Holding (n : Nat) (grammar : Grammar) : Prop := n ≤ grammar.statements.length

/-- **At least so many statements**, and never fewer than before, if no file takes any away. -/
def Grows : Plan → Nat → Prop
  | done outcome, n => Holding n outcome.2
  | ask _ grammar next, n =>
    Holding n grammar ∧
      ∀ outcome : Outcome, grammar.statements.length ≤ outcome.2.statements.length →
        (next outcome).Grows outcome.2.statements.length

/-- No statement is taken away. -/
def Growing (plan : Grammar → Plan) : Prop := ∀ grammar, (plan grammar).Grows grammar.statements.length

section Growth

variable {α : Type} {p : Plan} {f : Outcome → Plan} {plan plan' : Grammar → Plan} {m n : Nat}

theorem Grows.mono (h : p.Grows n) (hle : m ≤ n) : p.Grows m := by
  cases p with
  | done outcome => exact hle.trans h
  | ask path grammar next => exact ⟨hle.trans h.1, h.2⟩

theorem Grows.bind (h : p.Grows n)
    (hf : ∀ outcome : Outcome, n ≤ outcome.2.statements.length → (f outcome).Grows outcome.2.statements.length) :
    (p.bind f).Grows n := by
  induction p generalizing n with
  | done outcome => exact (hf outcome h).mono h
  | ask path grammar next ih =>
    refine ⟨h.1, fun outcome houtcome => ih outcome (h.2 outcome houtcome) fun after hafter => hf after ?_⟩
    exact h.1.trans (houtcome.trans hafter)

/-- Carried out, a plan leaves that many statements. -/
theorem Grows.run {addPath : String → Compile Unit} (h : p.Grows n)
    (haddPath : ∀ path (grammar : Grammar),
      grammar.statements.length ≤ ((addPath path).run grammar).2.statements.length) :
    n ≤ (p.run addPath).2.statements.length := by
  induction p generalizing n with
  | done outcome => exact h
  | ask path grammar next ih =>
    have hreply := haddPath path grammar
    exact h.1.trans (hreply.trans (ih _ (h.2 _ hreply)))

theorem Growing.act {c : Compile Unit}
    (h : ∀ grammar : Grammar, grammar.statements.length ≤ (c.run grammar).2.statements.length) : Growing (act c) := h

/-- Failing changes nothing. -/
theorem Growing.fail (cause : GrammarError) : Growing (Plan.act (throw cause)) := Growing.act fun _ => le_rfl

theorem Growing.stay : Growing (Plan.act (pure ())) := Growing.act fun _ => le_rfl

theorem Growing.inclusion (path : String) : Growing (inclusion path) := fun _ => ⟨le_rfl, fun _ _ => le_rfl⟩

theorem Growing.seq (h : Growing plan) (h' : Growing plan') : Growing (seq plan plan') := by
  intro grammar
  refine (h grammar).bind fun outcome _ => ?_
  rcases outcome with ⟨cause | ⟨⟩, after⟩
  · exact le_rfl
  · exact h' after

theorem Growing.inTurn {plans : List (Grammar → Plan)} (h : ∀ plan ∈ plans, Growing plan) : Growing (inTurn plans) := by
  induction plans with
  | nil => exact Growing.stay
  | cons plan rest ih =>
    rw [List.forall_mem_cons] at h
    exact h.1.seq (ih h.2)

theorem Growing.given {read : Grammar → Except GrammarError α} {next : α → Grammar → Plan}
    (h : ∀ a, Growing (next a)) : Growing (given read next) := by
  intro grammar
  unfold Plan.given
  cases read grammar with
  | ok a => exact h a grammar
  | error cause => exact Growing.fail cause grammar

/-- A macro is no statement. -/
theorem Growing.within (h : Growing plan) (name : String) : Growing (within name plan) := by
  intro grammar
  exact (h (grammar.restoreMacro name none)).bind fun outcome _ => le_rfl

end Growth

end Plan

namespace Grammar

open Plan

section Growth

variable {file : Option String}

/-- A rule is no statement. -/
theorem addRule_statements {grammar after : Grammar} {rule : Rule} {optionals : List Bool}
    (h : grammar.addRule rule optionals = .ok after) : after.statements = grammar.statements := by
  unfold addRule at h
  split at h
  · obtain ⟨⟨rules, fresh⟩, -, h⟩ := bind_eq_ok.mp h
    rw [← Except.ok.inj h]
  · obtain ⟨rules, -, h⟩ := bind_eq_ok.mp h
    rw [← Except.ok.inj h]

theorem growing_compileRule (tree : Sexp) : Growing (act (compileRule tree)) := by
  refine Growing.act fun grammar => ?_
  have hheld : Holding grammar.statements.length grammar := le_rfl
  show Holding grammar.statements.length ((orFail (expand grammar.macros tree) >>= _).run grammar).2
  refine of_orFail_bind hheld fun _ _ => of_orFail_bind hheld fun _ _ => of_orFail_bind hheld fun after hadd => ?_
  exact (congrArg List.length (addRule_statements hadd)).ge

theorem growing_includePlan (file : String) (tree : Sexp) (paths : List Sexp) :
    Growing (includePlan file tree paths) := by
  induction paths with
  | nil => exact Growing.stay
  | cons item rest ih =>
    cases item with
    | leaf path => exact (Growing.inclusion _).seq ih
    | list items => exact Growing.fail _

mutual
/-- **Carrying a statement out** takes no statement away. -/
theorem growing_statementPlan (s : Statement) : Growing (statementPlan file s) := by
  unfold statementPlan
  cases s with
  | rule tree => exact growing_compileRule tree
  | inclusion tree paths =>
    cases file with
    | some file => exact growing_includePlan file tree paths
    | none => exact Growing.fail _
  | when condition body =>
    refine Growing.given fun holds => ?_
    cases holds with
    | true => exact growing_statementsPlan body
    | false => exact Growing.stay
  | define tree name value => exact Growing.given fun value => Growing.act fun _ => le_rfl
  | each name values body =>
    refine Growing.given fun values => (Growing.inTurn (List.forall_mem_map.mpr fun value _ => ?_)).within name
    exact (Growing.act fun _ => le_rfl).seq (growing_statementsPlan body)
  | invalid cause body => exact Growing.fail cause
theorem growing_statementsPlan (body : List Statement) : Growing (statementsPlan file body) := by
  unfold statementsPlan
  cases body with
  | nil => exact Growing.stay
  | cons s rest => exact (growing_statementPlan s).seq (growing_statementsPlan rest)
end

theorem growing_textPlan (source : String) : Growing (textPlan file source) := by
  unfold textPlan
  cases Sexp.readAll source with
  | error cause => exact Growing.fail _
  | ok trees =>
    refine Growing.inTurn (List.forall_mem_map.mpr fun tree _ => ?_)
    exact (growing_statementPlan _).seq (Growing.act fun _ => le_rfl)

/-- **A file that is read** adds at least the line with its path. -/
theorem grows_filePlan {files : FileSystem} {path source : String} (h : files path = .ok source) (grammar : Grammar) :
    (filePlan files path grammar).Grows (grammar.statements.length + 1) := by
  have htext : Growing (textPlan (some path) source) := growing_textPlan source
  unfold filePlan
  rw [h]
  refine (htext (grammar.noteFile path source)).mono ?_
  simp only [noteFile, List.length_append, List.length_cons]
  omega

theorem growing_filePlan (files : FileSystem) (path : String) : Growing (filePlan files path) := by
  intro grammar
  cases h : files path with
  | error cause =>
    unfold filePlan
    rw [h]
    exact le_rfl
  | ok source => exact (grows_filePlan h grammar).mono (Nat.le_succ _)

/-- Reading a file takes no statement away, however deep inclusions may go. -/
theorem statements_le_addPath (files : FileSystem) (depth : Nat) (path : String) (grammar : Grammar) :
    grammar.statements.length ≤ ((addPath files depth path).run grammar).2.statements.length := by
  induction depth generalizing path grammar with
  | zero => exact le_rfl
  | succ depth ih =>
    rw [← run_filePlan]
    exact (growing_filePlan files path grammar).run ih

/-- A plan that ends if files do, and leaves as many statements as they do if not. -/
theorem ends_or_grown_of_grows {files : FileSystem} {depth : Nat}
    (hfiles : ∀ path (grammar : Grammar),
      Ends files (filePlan files path grammar) ((addPath files depth path).run grammar) ∨
        grammar.statements.length + depth ≤ ((addPath files depth path).run grammar).2.statements.length)
    {p : Plan} {n : Nat} (h : p.Grows n) :
    Ends files p (p.run (addPath files depth)) ∨
      n + depth ≤ (p.run (addPath files depth)).2.statements.length := by
  induction p generalizing n with
  | done outcome => exact .inl (Ends.done outcome)
  | ask path grammar next ih =>
    have hle := statements_le_addPath files depth path grammar
    have hnext := h.2 _ hle
    rcases hfiles path grammar with hends | hgrown
    · rcases ih _ hnext with hrest | hrest
      · exact .inl (Ends.ask hends hrest)
      · have hn := h.1.trans hle
        exact .inr ((Nat.add_le_add_right hn depth).trans hrest)
    · have hrest := hnext.run (statements_le_addPath files depth)
      have hn := Nat.add_le_add_right h.1 depth
      exact .inr (hn.trans (hgrown.trans hrest))

/-- **With a limited depth** a file is either read to the end, or leaves a statement more for each file that was
allowed. -/
theorem ends_or_grown (files : FileSystem) (depth : Nat) (path : String) (grammar : Grammar) :
    Ends files (filePlan files path grammar) ((addPath files depth path).run grammar) ∨
      grammar.statements.length + depth ≤ ((addPath files depth path).run grammar).2.statements.length := by
  induction depth generalizing path grammar with
  | zero => exact .inr le_rfl
  | succ depth ih =>
    rw [← run_filePlan]
    cases h : files path with
    | error cause =>
      have hdone : filePlan files path grammar = .done (.error (.unreadable path cause), grammar) := by
        unfold filePlan
        rw [h]
        rfl
      rw [hdone]
      exact .inl (Ends.done _)
    | ok source =>
      refine (ends_or_grown_of_grows ih (grows_filePlan h grammar)).imp_right fun hgrown => ?_
      rw [Nat.add_right_comm] at hgrown
      exact hgrown

end Growth

/-! ## The result -/

section Result

variable {files : FileSystem} {path : String} {grammar : Grammar}

/-- **Reading a file returns** if and only if inclusions inside it are not endless. -/
theorem returns_iff :
    (∃ depth outcome, ∀ more ≥ depth, (addPath files more path).run grammar = outcome) ↔
      ¬∃ chain, chain 0 = (path, grammar) ∧ Endless files chain := by
  rw [← exists_ends_iff]
  constructor
  · rintro ⟨depth, outcome, hrun⟩
    -- so deep that the outcome has too few statements not to have ended
    have hmore := hrun (max depth (outcome.2.statements.length + 1)) (Nat.le_max_left _ _)
    have hgrown := ends_or_grown files (max depth (outcome.2.statements.length + 1)) path grammar
    rw [hmore] at hgrown
    refine ⟨outcome, hgrown.resolve_right fun hle => ?_⟩
    omega
  · rintro ⟨outcome, hends⟩
    obtain ⟨depth, hrun⟩ := hends.run
    refine ⟨depth + 1, outcome, fun more hmore => ?_⟩
    obtain ⟨less, rfl⟩ := Nat.exists_eq_add_of_le' hmore
    rw [← Nat.add_assoc, ← run_filePlan]
    exact hrun _ (Nat.le_add_left _ _)

/-- A file that includes others can be read. -/
theorem exists_source_of_includedIn {inner outer : String × Grammar} (h : IncludedIn files inner outer) :
    ∃ source, files outer.1 = .ok source := by
  unfold IncludedIn filePlan at h
  cases hsource : files outer.1 with
  | ok source => exact ⟨source, rfl⟩
  | error cause =>
    rw [hsource] at h
    cases h

/-- A path that can be read leads to the place of a file. -/
theorem exists_place_of_ofTable {table : Table String} {source : String}
    (h : FileSystem.ofTable table path = .ok source) :
    ∃ entry ∈ FileSystem.entries table, FileSystem.locate table path = .ok entry.1 := by
  unfold FileSystem.ofTable at h
  split at h
  case h_1 => cases h
  case h_2 place hplace =>
    split at h
    case h_2 => cases h
    case h_1 text htext =>
      obtain ⟨entry, hentry, -⟩ := Option.map_eq_some_iff.mp htext
      have hname := List.find?_some hentry
      rw [beq_iff_eq] at hname
      exact ⟨entry, List.mem_of_find?_eq_some hentry, by rw [hplace, hname]⟩

/-- **Endless inclusions come back to a file**, since there are only so many of them. -/
theorem exists_again_of_endless {table : Table String} {chain : Nat → String × Grammar}
    (h : Endless (.ofTable table) chain) :
    ∃ first again place, first < again ∧ FileSystem.locate table (chain first).1 = .ok place ∧
      FileSystem.locate table (chain again).1 = .ok place := by
  have hplaces : ∀ n, ∃ entry ∈ FileSystem.entries table, FileSystem.locate table (chain n).1 = .ok entry.1 := by
    intro n
    obtain ⟨source, hsource⟩ := exists_source_of_includedIn (h n)
    exact exists_place_of_ofTable hsource
  choose entry hentry hlocate using hplaces
  have hfinite := List.finite_toSet (FileSystem.entries table)
  obtain ⟨first, again, hlt, hsame⟩ := hfinite.exists_lt_map_eq_of_forall_mem hentry
  exact ⟨first, again, (entry first).1, hlt, hlocate first, hsame ▸ hlocate again⟩

end Result

/-- A file whose first statement is an inclusion. -/
theorem includedIn_first {files : FileSystem} {file path source : String} {tree : Sexp} {trees paths : List Sexp}
    {grammar : Grammar} (hsource : files file = .ok source) (htrees : Sexp.readAll source = .ok (tree :: trees))
    (hfirst : Statement.ofSexp tree = .inclusion tree (.leaf path :: paths)) :
    IncludedIn files (Path.sibling file path, grammar.noteFile file source) (file, grammar) := by
  unfold IncludedIn filePlan
  rw [hsource]
  unfold textPlan
  dsimp only
  rw [htrees]
  dsimp only
  rw [List.map_cons, hfirst]
  exact Asks.now _ _ _

/-- **When reading a file returns.** Take any files, and a file that is read into any grammar. Reading it returns, with
success or an error and in each case with one grammar however deep inclusions are allowed to go, if and only if the
inclusions that are carried out are not endless. Endless inclusions come back to a file that is still being read. So
reading returns if no file comes to include itself, directly or through others. -/
theorem reading_returns_iff (table : Table String) (path : String) (grammar : Grammar) :
    ((∃ depth outcome, ∀ more ≥ depth, (addPath (.ofTable table) more path).run grammar = outcome) ↔
        ¬∃ chain, chain 0 = (path, grammar) ∧ Endless (.ofTable table) chain) ∧
      ∀ chain, Endless (.ofTable table) chain →
        ∃ first again place, first < again ∧ FileSystem.locate table (chain first).1 = .ok place ∧
          FileSystem.locate table (chain again).1 = .ok place :=
  ⟨returns_iff, fun _ h => exists_again_of_endless h⟩

/-- A file that includes itself. -/
def selfIncluding : Table String := ⟨[("a.grammar", "(include a.grammar)")]⟩

/-- What is read when it has been begun so many times. -/
def selfReading (n : Nat) : String × Grammar :=
  ("a.grammar", n.repeat (fun grammar => grammar.noteFile "a.grammar" "(include a.grammar)") .new)

theorem endless_selfReading : Endless (.ofTable selfIncluding) selfReading := by
  intro n
  have hsource : FileSystem.ofTable selfIncluding "a.grammar" = .ok "(include a.grammar)" := by cbv
  have htrees : Sexp.readAll "(include a.grammar)" = .ok [.list [.leaf "include", .leaf "a.grammar"]] := by cbv
  have hsibling : Path.sibling "a.grammar" "a.grammar" = "a.grammar" := by decide +kernel
  have hinner : IncludedIn _ _ (selfReading n) := includedIn_first hsource htrees rfl
  rw [hsibling] at hinner
  exact hinner

/-- Its inclusions come back to it. -/
theorem reading_returns_iff_again :
    Endless (.ofTable selfIncluding) selfReading ∧
      ∃ first again place, first < again ∧ FileSystem.locate selfIncluding (selfReading first).1 = .ok place ∧
        FileSystem.locate selfIncluding (selfReading again).1 = .ok place :=
  ⟨endless_selfReading, (reading_returns_iff selfIncluding "a.grammar" .new).2 selfReading endless_selfReading⟩

/-- **A file that includes itself** is never read to the end. -/
theorem reading_never_returns :
    ¬∃ depth outcome, ∀ more ≥ depth, (addPath (.ofTable selfIncluding) more "a.grammar").run .new = outcome := by
  rw [returns_iff, not_not]
  exact ⟨selfReading, rfl, endless_selfReading⟩

end Grammar

end Parlance
