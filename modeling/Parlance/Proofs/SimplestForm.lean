import Parlance.Proofs.Meet
import Parlance.Proofs.Fold
import Parlance.SemType.Text
import Parlance.Semantics.Basic
import Parlance.Typing.Inference

/-!
# `Proofs.SimplestForm` — types stay in simplest form

Types are compared by structure: that two unions are the same, or that a type is `bottom`, is seen by their form
only. So whatever makes types out of types in simplest form has to make types in that form. Reading does so from any
text, and inference from any formula, if what is known about names is in that form.

## Contents
- **Functions.** Applying, reversing, and the check before a join.
- **Reading.** `ReadingKeeps`, induction on what is read, and `simplified_ofSexp`.
- **Inference.** `Keeps`, what a run of inference does to a scope in simplest form, and `keeps_infer`.
- **All of them.** `simplified_everywhere`.
-/

namespace Parlance

namespace SemType

variable {h : Hierarchy} {t u : SemType}

/-! ## Functions -/

theorem applyAll_eq_map (h : Hierarchy) (ms : List SemType) (t : SemType) :
    applyAll h ms t = ms.map fun m => apply h m t := by
  induction ms with
  | nil => rfl
  | cons m rest ih => rw [applyAll, ih, List.map_cons]

theorem reverseAll_eq_map (ms : List SemType) : reverseAll ms = ms.map reverse := by
  induction ms with
  | nil => rfl
  | cons m rest ih => rw [reverseAll, ih, List.map_cons]

/-- A union is applied member by member, and what they give is brought to simplest form. -/
theorem apply_union (h : Hierarchy) (ms : List SemType) (t : SemType) :
    apply h (union ms) t = unionOf (ms.map fun m => apply h m t) := by
  rw [apply, applyAll_eq_map]

/-- A union is reversed member by member, and what that gives is brought to simplest form. -/
theorem reverse_union (ms : List SemType) : reverse (union ms) = unionOf (ms.map reverse) := by
  rw [reverse, reverseAll_eq_map]

/-- What a function gives is in simplest form, whatever it is applied to. -/
theorem simplified_apply (h : Hierarchy) (ht : Simplified t) (argument : SemType) :
    Simplified (apply h t argument) := by
  induction ht with
  | top => exact .top
  | atomic name => exact simplified_bottom
  | func _ hr =>
    rw [apply]
    split
    · exact hr
    · exact simplified_bottom
  | union _ _ _ _ ih =>
    rw [apply_union]
    refine simplified_unionOf fun u hu => ?_
    obtain ⟨m, hm, rfl⟩ := List.mem_map.mp hu
    exact ih m hm

/-- To reverse a function swaps its parts; what is no function becomes `bottom`. -/
theorem simplified_reverse (ht : Simplified t) : Simplified (reverse t) := by
  induction ht with
  | top => exact .top
  | atomic name => exact simplified_bottom
  | func ha hr => exact .func hr ha
  | union _ _ _ _ ih =>
    rw [reverse_union]
    refine simplified_unionOf fun u hu => ?_
    obtain ⟨m, hm, rfl⟩ := List.mem_map.mp hu
    exact ih m hm

theorem simplified_argType (h : Hierarchy) (ht : Simplified t) : Simplified (argType h t) :=
  simplified_apply h (simplified_reverse ht) top

theorem simplified_retType (h : Hierarchy) (ht : Simplified t) : Simplified (retType h t) :=
  simplified_apply h ht top

end SemType

open SemType

/-- The check before a join answers with what the binary gives, or with `bottom`. -/
theorem JoinCheck.simplified_check (how : JoinCheck) {binary : SemType} (hb : Simplified binary) (unary : SemType)
    (h : Hierarchy) : Simplified (how.check binary unary h) := by
  unfold check
  split
  case h_1 => exact simplified_apply h hb _
  case h_2 => exact simplified_bottom
  case h_3 =>
    split
    · split
      · exact simplified_retType h hb
      · exact simplified_bottom
    · exact simplified_apply h hb _

/-! ## Reading -/

namespace SemType

/-- Only what was read comes out. -/
theorem mem_of_allFromRight {α ε : Type} {l : List (Except ε α)} {results : List α}
    (h : allFromRight l = .ok results) : ∀ a ∈ results, .ok a ∈ l := by
  induction l generalizing results with
  | nil =>
    obtain rfl := Except.ok.inj h
    simp
  | cons r rest ih =>
    obtain ⟨later, hlater, h⟩ := bind_eq_ok.mp h
    obtain ⟨a, rfl, h⟩ := bind_eq_ok.mp h
    obtain rfl := Except.ok.inj h
    intro b hb
    rcases List.mem_cons.mp hb with rfl | hb
    · exact List.mem_cons_self
    · exact List.mem_cons_of_mem _ (ih hlater b hb)

/-- **What reading keeps**: a property of the types that leaves stand for, which functions and unions inherit. No leaf
stands for an atomic type with the name `top`. -/
structure ReadingKeeps (P : SemType → Prop) : Prop where
  top : P top
  atomic : ∀ name, name ≠ "top" → P (atomic name)
  func : ∀ a r, P a → P r → P (func a r)
  unionOf : ∀ ts, (∀ t ∈ ts, P t) → P (unionOf ts)

namespace ReadingKeeps

variable {P : SemType → Prop}

/-- Types in a row make a function to a function. -/
theorem arrows (keeps : ReadingKeeps P) {t : SemType} {ts : List SemType} (h : ∀ u ∈ t :: ts, P u) :
    P (arrows t ts) := by
  induction ts generalizing t with
  | nil => exact h t List.mem_cons_self
  | cons u rest ih =>
    have hrest : ∀ v ∈ u :: rest, P v := fun v hv => h v (List.mem_cons_of_mem _ hv)
    exact keeps.func _ _ (h t List.mem_cons_self) (ih hrest)

mutual
/-- **What is read has every property that reading keeps.** -/
theorem ofSexp (keeps : ReadingKeeps P) (tree : Sexp) {t : SemType} (h : ofSexp tree = .ok t) : P t := by
  cases tree with
  | leaf name =>
    rw [SemType.ofSexp] at h
    obtain rfl := Except.ok.inj h
    split
    case isTrue => exact keeps.top
    case isFalse hname => exact keeps.atomic name (by simpa using hname)
  | list items =>
    cases items with
    | nil =>
      rw [SemType.ofSexp] at h
      cases h
    | cons head rest =>
      rw [SemType.ofSexp] at h
      split at h
      case h_1 =>
        obtain ⟨ts, hts, h⟩ := bind_eq_ok.mp h
        obtain rfl := Except.ok.inj h
        refine keeps.unionOf ts fun u hu => ?_
        obtain ⟨r, hr, rfl⟩ := exists_of_mem_mapM hts hu
        exact keeps.ofEach rest hr
      case h_2 =>
        split at h
        case isTrue => cases h
        case isFalse =>
          obtain ⟨ts, hts, h⟩ := bind_eq_ok.mp h
          split at h
          case h_1 =>
            obtain rfl := Except.ok.inj h
            exact keeps.arrows fun u hu => keeps.ofEach rest (mem_of_allFromRight hts u hu)
          case h_2 => cases h
      case h_3 => cases h
theorem ofEach (keeps : ReadingKeeps P) (trees : List Sexp) {t : SemType} (h : .ok t ∈ ofEach trees) : P t := by
  cases trees with
  | nil => cases h
  | cons tree rest =>
    rw [SemType.ofEach] at h
    rcases List.mem_cons.mp h with h | h
    · exact keeps.ofSexp tree h.symm
    · exact keeps.ofEach rest h
end

theorem read (keeps : ReadingKeeps P) {text : String} {t : SemType} (h : read text = .ok t) : P t := by
  unfold SemType.read readWith at h
  split at h
  · exact keeps.ofSexp _ h
  · cases h

end ReadingKeeps

/-- Simplest form is such a property: all unions that are read are made by `unionOf`. -/
theorem readingKeeps_simplified : ReadingKeeps Simplified where
  top := .top
  atomic name _ := .atomic name
  func _ _ ha hr := .func ha hr
  unionOf _ := simplified_unionOf

/-- **What is read is in simplest form.** -/
theorem simplified_ofSexp (tree : Sexp) {t : SemType} (h : ofSexp tree = .ok t) : Simplified t :=
  readingKeeps_simplified.ofSexp tree h

theorem simplified_read {text : String} {t : SemType} (h : read text = .ok t) : Simplified t :=
  readingKeeps_simplified.read h

end SemType

/-! ## Inference -/

/-- Everything that is known about names is in simplest form. -/
structure TypeLookup.Simplified (lookup : TypeLookup) : Prop where
  entity {id : String} {t : SemType} : lookup.entity? id = some t → SemType.Simplified t
  property {id : String} {t : SemType} : lookup.property? id = some t → SemType.Simplified t

namespace Typing

variable {s : Setting} {β γ : Type} {P : β → Prop} {Q : γ → Prop}

/-- All types in a scope are in simplest form. -/
def Scope.Simplified (scope : Scope) : Prop := ∀ entry ∈ scope, SemType.Simplified entry.2

/-- A run that leaves a scope in simplest form in that form, and comes to what satisfies `P`, if it comes to
anything. -/
def Keeps (P : β → Prop) (run : Inference β) : Prop :=
  ∀ scope b scope', scope.Simplified → run.run scope = some (b, scope') → P b ∧ scope'.Simplified

theorem Keeps.pure {b : β} (h : P b) : Keeps P (pure b) := by
  intro scope b' scope' hs hrun
  obtain ⟨rfl, rfl⟩ := Prod.mk.inj (Option.some.inj hrun)
  exact ⟨h, hs⟩

theorem Keeps.failure : Keeps P failure := by
  intro scope b scope' _ hrun
  cases hrun

/-- **One run after another** keeps what both of them keep. -/
theorem Keeps.bind {run : Inference β} {next : β → Inference γ} (h : Keeps P run)
    (hnext : ∀ b, P b → Keeps Q (next b)) : Keeps Q (run >>= next) := by
  intro scope c scope' hs hrun
  rw [StateT.run_bind] at hrun
  obtain ⟨⟨b, middle⟩, hb, hrun⟩ := Option.bind_eq_some_iff.mp hrun
  obtain ⟨hp, hm⟩ := h scope b middle hs hb
  exact hnext b hp middle c scope' hm hrun

theorem Keeps.modify {f : Scope → Scope} (h : ∀ scope : Scope, scope.Simplified → (f scope).Simplified) :
    Keeps (fun _ => True) (modify f : Inference Unit) := by
  intro scope b scope' hs hrun
  obtain ⟨-, rfl⟩ := Prod.mk.inj (Option.some.inj hrun)
  exact ⟨trivial, h scope hs⟩

/-- What is demanded is given back as it is, unless it is `bottom`. -/
theorem keeps_demand {t : SemType} (ht : Simplified t) : Keeps Simplified (demand t) := by
  unfold demand
  split
  · exact .pure ht
  · exact .failure

/-! ### Variables -/

/-- What a scope says of a variable is in simplest form. -/
theorem Scope.Simplified.of_find {scope : Scope} (hs : scope.Simplified) {x : String} {t : SemType}
    (h : scope.find? x = some t) : SemType.Simplified t := by
  induction scope with
  | nil => cases h
  | cons entry rest ih =>
    unfold Scope.find? at h
    split at h
    · obtain rfl := Option.some.inj h
      exact hs entry List.mem_cons_self
    · exact ih (fun e he => hs e (List.mem_cons_of_mem _ he)) h

/-- The type of one variable is replaced by one in simplest form. -/
theorem Scope.Simplified.set {scope : Scope} (hs : scope.Simplified) {t : SemType} (ht : SemType.Simplified t)
    (x : String) : (scope.set x t).Simplified := by
  induction scope with
  | nil => exact hs
  | cons entry rest ih =>
    have hrest : Scope.Simplified rest := fun e he => hs e (List.mem_cons_of_mem _ he)
    unfold Scope.set
    intro e he
    split at he
    · rcases List.mem_cons.mp he with rfl | he
      · exact ht
      · exact hrest e he
    · rcases List.mem_cons.mp he with rfl | he
      · exact hs _ List.mem_cons_self
      · exact ih hrest e he

/-- **A variable is narrowed** to the meet of what was known of it and what is expected. -/
theorem keeps_narrow {t : SemType} (ht : Simplified t) (s : Setting) (x : String) :
    Keeps Simplified (narrow s x t) := by
  intro scope u scope' hs hrun
  unfold narrow at hrun
  rw [StateT.run_bind] at hrun
  obtain ⟨⟨seen, middle⟩, hget, hrun⟩ := Option.bind_eq_some_iff.mp hrun
  -- reading the scope leaves it as it is
  obtain ⟨rfl, rfl⟩ := Prod.mk.inj (Option.some.inj hget)
  dsimp only at hrun
  split at hrun
  case h_1 known hknown =>
    have hmeet := simplified_meet s.hierarchy known t (hs.of_find hknown) ht
    have hkeeps := Keeps.bind (.modify fun _ hold => hold.set hmeet x) fun _ _ => keeps_demand hmeet
    exact hkeeps _ _ _ hs hrun
  case h_2 =>
    split at hrun
    · exact keeps_demand ht _ _ _ hs hrun
    · exact Keeps.failure (P := Simplified) _ _ _ hs hrun

/-- A bound variable may be anything at first, and is forgotten in the end. -/
theorem keeps_withVariable {body : Inference SemType} (h : Keeps Simplified body) (x : String) :
    Keeps Simplified (withVariable x body) := by
  apply Keeps.bind
  · apply Keeps.modify
    intro scope hs entry he
    rcases List.mem_cons.mp he with rfl | he
    · exact .top
    · exact hs entry he
  intro _ _
  apply Keeps.bind h
  intro t ht
  apply Keeps.bind
  · apply Keeps.modify
    intro scope hs entry he
    exact hs entry (List.mem_of_mem_tail he)
  intro _ _
  exact .pure ht

/-! ### Names and values -/

theorem simplified_numberOrDate : Simplified numberOrDate := by
  apply simplified_unionOf
  intro t ht
  rcases List.mem_pair.mp ht with rfl | rfl
  · exact .atomic _
  · exact .atomic _

/-- The types of the names with a meaning of their own are in simplest form. -/
theorem simplified_special {id : String} {t : SemType} (h : special? id = some t) : Simplified t := by
  unfold special? at h
  split at h
  case h_1 =>
    obtain rfl := Option.some.inj h
    exact .atomic _
  case h_2 | h_3 =>
    obtain rfl := Option.some.inj h
    exact .func (.atomic _) (.atomic _)
  case h_4 | h_5 | h_6 | h_7 =>
    obtain rfl := Option.some.inj h
    exact .func simplified_numberOrDate simplified_numberOrDate
  case h_8 => cases h

/-- So are those of the arguments and results of known functions. -/
theorem simplified_signature {name : String} {arguments : List SemType} {result : SemType}
    (h : signature? name = some (arguments, result)) : ∀ t ∈ result :: arguments, Simplified t := by
  -- the types in signatures are all atomic
  unfold signature? at h
  split at h
  case h_5 => cases h
  all_goals
    obtain ⟨rfl, rfl⟩ := Prod.mk.inj (Option.some.inj h)
    intro t ht
    simp only [List.mem_cons, List.not_mem_nil, or_false] at ht
    rcases ht with rfl | rfl | rfl <;> exact .atomic _

theorem keeps_demand_meet (h : Hierarchy) {t u : SemType} (ht : Simplified t) (hu : Simplified u) :
    Keeps Simplified (demand (t.meet h u)) :=
  keeps_demand (simplified_meet h t u ht hu)

/-- **Names** have the types that are known of them, or those that any name has. -/
theorem keeps_inferName (hl : s.lookup.Simplified) (id : String) {t : SemType} (ht : Simplified t) :
    Keeps Simplified (inferName s id t) := by
  unfold inferName
  split
  case h_1 special hspecial => exact keeps_demand_meet _ ht (simplified_special hspecial)
  case h_2 =>
    split
    case isTrue =>
      apply keeps_demand_meet _ ht
      cases h : s.lookup.entity? id with
      | none => exact .atomic _
      | some u => exact hl.entity h
    case isFalse =>
      apply keeps_demand_meet _ ht
      split
      case isTrue =>
        cases h : s.lookup.property? (Relation.reverse id) with
        | none => exact .func (.atomic _) (.atomic _)
        | some u => exact simplified_reverse (hl.property h)
      case isFalse =>
        cases h : s.lookup.property? id with
        | none => exact .func (.atomic _) (.atomic _)
        | some u => exact hl.property h

theorem keeps_inferValue (hl : s.lookup.Simplified) (v : Value) {t : SemType} (ht : Simplified t) :
    Keeps Simplified (inferValue s v t) := by
  cases v with
  | name id => exact keeps_inferName hl id ht
  | error => exact .failure
  | _ => exact keeps_demand_meet _ ht (.atomic _)

/-! ### Formulas -/

mutual
/-- **Inference keeps to simplest form**: with an expected type in that form it narrows the scope to types in that
form, and comes to one. -/
theorem keeps_infer (hl : s.lookup.Simplified) (f : Formula) {t : SemType} (ht : Simplified t) :
    Keeps Simplified (infer s f t) := by
  cases f with
  | var x =>
    rw [infer]
    exact keeps_narrow ht s x
  | value v =>
    rw [infer]
    exact keeps_inferValue hl v ht
  | join relation child =>
    rw [infer]
    split
    case h_1 name _ => exact keeps_demand_meet _ ht (.atomic name)
    case h_2 =>
      split
      case isTrue =>
        apply Keeps.bind (keeps_infer hl child simplified_numberOrDate)
        intro childType hchild
        exact keeps_demand_meet _ ht hchild
      case isFalse =>
        apply Keeps.bind (keeps_infer hl relation (.func .top ht))
        intro relationType hrelation
        apply Keeps.bind (keeps_infer hl child (simplified_argType _ hrelation))
        intro childType hchild
        -- the relation is looked at once more, now that its argument is known
        apply Keeps.bind (keeps_infer hl relation (.func hchild ht))
        intro relationType hrelation
        exact keeps_demand (simplified_retType _ hrelation)
  | merge _ left right =>
    rw [infer]
    apply Keeps.bind (keeps_demand_meet _ ht (.atomic _))
    intro t ht
    apply Keeps.bind (keeps_infer hl left ht)
    intro t ht
    exact keeps_infer hl right ht
  | mark x body =>
    rw [infer]
    apply Keeps.bind (keeps_demand_meet _ ht (.atomic _))
    intro t ht
    apply keeps_withVariable
    apply Keeps.bind (keeps_infer hl body ht)
    intro bodyType hbody
    exact keeps_narrow hbody s x
  | lambda x body =>
    rw [infer]
    apply keeps_withVariable
    apply Keeps.bind (keeps_infer hl body (simplified_retType _ ht))
    intro bodyType hbody
    -- the body may have narrowed the variable, so what comes out is the argument type from the scope
    apply Keeps.bind (keeps_narrow (simplified_argType _ ht) s x)
    intro varType hvar
    exact .pure (.func hvar hbody)
  | not child =>
    rw [infer]
    apply Keeps.bind (keeps_demand_meet _ ht (.atomic _))
    intro t ht
    exact keeps_infer hl child ht
  | aggregate mode child =>
    rw [infer]
    apply Keeps.bind (keeps_infer hl child (.atomic _))
    intro childType hchild
    split
    · exact keeps_demand_meet _ (.atomic _) ht
    · exact keeps_demand_meet _ (simplified_meet _ _ _ simplified_numberOrDate ht) hchild
  | arithmetic _ left right =>
    rw [infer]
    apply Keeps.bind (keeps_infer hl left ht)
    intro t ht
    apply Keeps.bind (keeps_infer hl right ht)
    intro t ht
    exact keeps_demand_meet _ ht simplified_numberOrDate
  | reverse child =>
    rw [infer]
    apply Keeps.bind (keeps_infer hl child (simplified_reverse ht))
    intro reversed hreversed
    exact keeps_demand (simplified_reverse hreversed)
  | superlative _ rank count head relation =>
    rw [infer]
    apply Keeps.bind (keeps_infer hl rank (.atomic _))
    intro _ _
    apply Keeps.bind (keeps_infer hl count (.atomic _))
    intro _ _
    apply Keeps.bind (keeps_demand_meet _ ht (.atomic _))
    intro t ht
    apply Keeps.bind (keeps_infer hl head ht)
    intro t ht
    apply Keeps.bind (keeps_infer hl relation (.func simplified_numberOrDate ht))
    intro relationType hrelation
    exact keeps_infer hl head (simplified_retType _ hrelation)
  | call function arguments =>
    rw [infer]
    split
    case h_1 => exact .pure simplified_bottom
    case h_2 =>
      split
      case h_1 => exact .pure (.atomic _)
      case h_2 argumentTypes resultType hsignature =>
        have htypes := simplified_signature hsignature
        split
        · exact .pure simplified_bottom
        apply Keeps.bind (keeps_inferArguments hl arguments fun u hu => htypes u (List.mem_cons_of_mem _ hu))
        intro _ _
        exact keeps_demand_meet _ ht (htypes _ List.mem_cons_self)
/-- Arguments are inferred one after the other, each with the type from the signature. -/
theorem keeps_inferArguments (hl : s.lookup.Simplified) (arguments : List Formula) {types : List SemType}
    (ht : ∀ t ∈ types, Simplified t) : Keeps (fun _ => True) (inferArguments s arguments types) := by
  cases arguments with
  | nil =>
    -- the equation for an end of either list asks that not both go on
    rw [inferArguments]
    · exact .pure trivial
    · simp
  | cons argument rest =>
    cases types with
    | nil =>
      rw [inferArguments]
      · exact .pure trivial
      · simp
    | cons t types =>
      rw [inferArguments]
      apply Keeps.bind (keeps_infer hl argument (ht t List.mem_cons_self))
      intro _ _
      exact keeps_inferArguments hl rest fun u hu => ht u (List.mem_cons_of_mem _ hu)
end

/-- **What a formula is inferred to be is in simplest form.** -/
theorem simplified_inferType (hl : s.lookup.Simplified) (f : Formula) : Simplified (inferType s f) := by
  unfold inferType
  split
  case h_1 t scope hrun =>
    have hempty : Scope.Simplified [] := fun _ h => absurd h List.not_mem_nil
    exact (keeps_infer hl f .top [] t scope hempty hrun).1
  case h_2 => exact simplified_bottom

end Typing

/-! ## All of them -/

/-- **Types stay in simplest form.** Whatever makes a type makes one in simplest form: reading does from any tree and
any text, operations on types do from types in that form, and inference does for any formula if all that is known
about names is in that form. -/
theorem simplified_everywhere (h : Hierarchy) :
    (∀ tree t, ofSexp tree = .ok t → Simplified t) ∧ (∀ text t, SemType.read text = .ok t → Simplified t) ∧
    (∀ ts, (∀ t ∈ ts, Simplified t) → Simplified (unionOf ts)) ∧
    (∀ a b, Simplified a → Simplified b →
      Simplified (meet h a b) ∧ Simplified (apply h a b) ∧
      ∀ how : JoinCheck, Simplified (how.check a b h)) ∧
    (∀ t, Simplified t → Simplified (reverse t) ∧ Simplified (argType h t) ∧ Simplified (retType h t)) ∧
    ∀ lookup : TypeLookup, lookup.Simplified → ∀ (freeAllowed : Bool) (f : Formula),
      Simplified (Typing.inferType { lookup, hierarchy := h, freeAllowed } f) := by
  refine ⟨?reading, ?readingText, ?union, ?binary, ?unary, ?inference⟩
  case reading => exact fun tree t => simplified_ofSexp tree
  case readingText => exact fun text t => simplified_read
  case union => exact fun ts hts => simplified_unionOf hts
  case binary =>
    intro a b ha hb
    exact ⟨simplified_meet h a b ha hb, simplified_apply h ha b, fun how => how.simplified_check ha b h⟩
  case unary =>
    intro t ht
    exact ⟨simplified_reverse ht, simplified_argType h ht, simplified_retType h ht⟩
  case inference =>
    intro lookup hl freeAllowed f
    exact Typing.simplified_inferType hl f

/-- What lies in something lies in a city or a country; every entity is one of the two. -/
def sampleLookup : TypeLookup where
  entity? _ := some samplePlace
  property? _ := some (func samplePlace samplePlace)

theorem simplified_everywhere_sample :
    Simplified samplePlace ∧ sampleLookup.Simplified ∧
      Simplified (meet .standard samplePlace (func samplePlace samplePlace)) ∧
      Simplified (reverse (func samplePlace samplePlace)) ∧
      Simplified (unionOf [samplePlace, int, func samplePlace samplePlace]) ∧
      Simplified (Typing.inferType { lookup := sampleLookup, hierarchy := .standard, freeAllowed := true }
        (.lambda "x" (.join (.value (.name "fb:place.in" none)) (.var "x")))) := by
  have hplace : Simplified samplePlace := by
    apply Simplified.union
    · intro m hm
      rcases List.mem_pair.mp hm with rfl | rfl
      · exact .atomic _
      · exact .atomic _
    · decide
    · unfold Before
      decide
    · decide
  have hfunction : Simplified (func samplePlace samplePlace) := .func hplace hplace
  have hlookup : sampleLookup.Simplified := by
    constructor
    · intro _ t h
      exact Option.some.inj h ▸ hplace
    · intro _ t h
      exact Option.some.inj h ▸ hfunction
  obtain ⟨-, -, hunion, hbinary, hunary, hinfer⟩ := simplified_everywhere .standard
  refine ⟨hplace, hlookup, (hbinary _ _ hplace hfunction).1, (hunary _ hfunction).1, ?_, hinfer _ hlookup _ _⟩
  apply hunion
  intro t ht
  simp only [List.mem_cons, List.not_mem_nil, or_false] at ht
  rcases ht with rfl | rfl | rfl
  · exact hplace
  · exact .atomic _
  · exact hfunction

end Parlance
