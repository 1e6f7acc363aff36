import Parlance.Grammar.Compile
import Parlance.Proofs.Binarize
import Parlance.Proofs.Table

/-!
# `Proofs.MacroFree` — expanding macros once is enough

Expanding a tree replaces its leaves by the values of macros, and does not look at the values again. That is enough if
no value has a leaf that names a macro. Then the expanded tree has none either, and expanding it again leaves it as it
is. What is read off an expanded statement is made of its leaves: the symbols of a rule, and the tree of its semantic
function. Bringing the rule to two symbols adds fresh categories, and functions for pairs that have no leaves of a
grammar in them.

## Contents
- **Trees.** `Sexp.MacroFree`.
- **Expanding.** `MacrosExpanded`, `expand_macroFree` and `expand_eq_self`.
- **Functions.** `Registry.Plain`: functions are written with the leaves that they were read from.
- **Rules.** `Rule.MadeOf`, kept by bringing a rule to two symbols, and `Rule.MacroFree` of the rule that is read off an
  expanded statement.
-/

namespace Parlance

/-! ## Trees -/

namespace Sexp

/-- **No leaf names a macro.** -/
def MacroFree (tree : Sexp) : Prop := ∀ leaf ∈ tree.leaves, Statement.isMacroName leaf = false

instance (tree : Sexp) : Decidable tree.MacroFree :=
  inferInstanceAs (Decidable (∀ leaf ∈ tree.leaves, Statement.isMacroName leaf = false))

theorem leavesList_eq (items : List Sexp) : leavesList items = items.flatMap leaves := by
  induction items with
  | nil => rfl
  | cons item rest ih => rw [leavesList, ih, List.flatMap_cons]

variable {tree item : Sexp} {items : List Sexp} {text : String} {i n : Nat}

@[simp] theorem macroFree_leaf : (leaf text).MacroFree ↔ Statement.isMacroName text = false := by
  simp [MacroFree, leaves]

@[simp] theorem macroFree_list : (list items).MacroFree ↔ ∀ item ∈ items, item.MacroFree := by
  unfold MacroFree
  rw [leaves, leavesList_eq]
  simp only [List.mem_flatMap]
  constructor
  · intro h item hitem leaf hleaf
    exact h leaf ⟨item, hitem, hleaf⟩
  · rintro h leaf ⟨item, hitem, hleaf⟩
    exact h item hitem leaf hleaf

@[simp] theorem macroFree_form : (form text items).MacroFree ↔
    Statement.isMacroName text = false ∧ ∀ item ∈ items, item.MacroFree := by
  unfold form
  rw [macroFree_list, List.forall_mem_cons, macroFree_leaf]

theorem MacroFree.of_mem_children (h : tree.MacroFree) (hitem : item ∈ tree.children) : item.MacroFree := by
  cases tree with
  | leaf text => cases hitem
  | list items => exact macroFree_list.mp h item hitem

theorem MacroFree.childLeaf (h : tree.MacroFree) (hi : tree.childLeaf? i = some text) :
    Statement.isMacroName text = false := by
  obtain ⟨item, hitem, hleaf⟩ := Option.bind_eq_some_iff.mp hi
  have hfree := h.of_mem_children (List.mem_of_getElem? hitem)
  cases item with
  | leaf other =>
    obtain rfl := Option.some.inj hleaf
    exact macroFree_leaf.mp hfree
  | list items => cases hleaf

mutual
/-- Replacing the leaves by trees without names of macros gives such a tree. -/
theorem macroFree_mapLeaves {ε : Type} {f : String → Except ε Sexp}
    (hf : ∀ leaf value, f leaf = .ok value → value.MacroFree) :
    ∀ (tree : Sexp) {tree' : Sexp}, tree.mapLeaves f = .ok tree' → tree'.MacroFree
  | .leaf text, _, h => hf text _ h
  | .list items, tree', h => by
    rw [mapLeaves] at h
    obtain ⟨items', hitems, h⟩ := bind_eq_ok.mp h
    obtain rfl := Except.ok.inj h
    exact macroFree_list.mpr (macroFree_mapLeavesList hf items hitems)
theorem macroFree_mapLeavesList {ε : Type} {f : String → Except ε Sexp}
    (hf : ∀ leaf value, f leaf = .ok value → value.MacroFree) :
    ∀ (items : List Sexp) {items' : List Sexp}, mapLeavesList f items = .ok items' → ∀ item ∈ items', item.MacroFree
  | [], _, h => by
    rw [mapLeavesList] at h
    obtain rfl := Except.ok.inj h
    exact fun _ hitem => nomatch hitem
  | item :: rest, _, h => by
    rw [mapLeavesList] at h
    obtain ⟨item', hitem, h⟩ := bind_eq_ok.mp h
    obtain ⟨rest', hrest, h⟩ := bind_eq_ok.mp h
    obtain rfl := Except.ok.inj h
    exact List.forall_mem_cons.mpr ⟨macroFree_mapLeaves hf item hitem, macroFree_mapLeavesList hf rest hrest⟩
end

mutual
/-- Replacing each leaf by itself changes nothing. -/
theorem mapLeaves_eq_self {ε : Type} {f : String → Except ε Sexp} :
    ∀ tree : Sexp, (∀ leaf ∈ tree.leaves, f leaf = .ok (.leaf leaf)) → tree.mapLeaves f = .ok tree
  | .leaf text, h => h text (List.mem_singleton_self _)
  | .list items, h => by
    rw [mapLeaves, mapLeavesList_eq_self items h]
    rfl
theorem mapLeavesList_eq_self {ε : Type} {f : String → Except ε Sexp} :
    ∀ items : List Sexp, (∀ leaf ∈ leavesList items, f leaf = .ok (.leaf leaf)) → mapLeavesList f items = .ok items
  | [], _ => rfl
  | item :: rest, h => by
    have hitem := mapLeaves_eq_self item fun leaf hleaf => h leaf (List.mem_append_left _ hleaf)
    have hrest := mapLeavesList_eq_self rest fun leaf hleaf => h leaf (List.mem_append_right _ hleaf)
    rw [mapLeavesList, hitem, hrest]
    rfl
end

end Sexp

/-! ## Expanding -/

/-- **Macros whose values need no expansion.** -/
def MacrosExpanded (macros : Table Sexp) : Prop :=
  ∀ entry ∈ macros.toList, Statement.isMacroName entry.1 = true ∧ entry.2.MacroFree

section Expanding

variable {macros : Table Sexp} {tree tree' value : Sexp} {name : String}

theorem macrosExpanded_empty : MacrosExpanded .empty := fun _ h => nomatch h

theorem MacrosExpanded.insert (h : MacrosExpanded macros) (hname : Statement.isMacroName name = true)
    (hvalue : value.MacroFree) : MacrosExpanded (macros.insert name value) := by
  rintro ⟨k, v⟩ hentry
  rcases Table.mem_put hentry with hentry | ⟨rfl, rfl⟩
  · exact h (k, v) hentry
  · exact ⟨hname, hvalue⟩

theorem MacrosExpanded.erase (h : MacrosExpanded macros) (name : String) : MacrosExpanded (macros.erase name) :=
  fun entry hentry => h entry (List.mem_filter.mp hentry).1

theorem MacrosExpanded.get (h : MacrosExpanded macros) (hget : macros.get? name = some value) :
    Statement.isMacroName name = true ∧ value.MacroFree := h (name, value) (Table.mem_of_find hget)

/-- **Expanding a tree leaves no name of a macro in it.** -/
theorem expand_macroFree (h : MacrosExpanded macros) (hexpand : Grammar.expand macros tree = .ok tree') :
    tree'.MacroFree := by
  refine Sexp.macroFree_mapLeaves (fun leaf value hleaf => ?_) tree hexpand
  unfold Grammar.expandLeaf at hleaf
  split at hleaf
  case h_1 value' hget =>
    obtain rfl := Except.ok.inj hleaf
    exact (h.get hget).2
  case h_2 hget =>
    split at hleaf
    case isTrue => cases hleaf
    case isFalse hname =>
      obtain rfl := Except.ok.inj hleaf
      exact Sexp.macroFree_leaf.mpr (Bool.eq_false_iff.mpr hname)

/-- **A tree without names of macros** is expanded already. -/
theorem expand_eq_self (h : MacrosExpanded macros) (htree : tree.MacroFree) :
    Grammar.expand macros tree = .ok tree := by
  refine Sexp.mapLeaves_eq_self tree fun leaf hleaf => ?_
  have hname := htree leaf hleaf
  unfold Grammar.expandLeaf
  split
  case h_1 value hget =>
    rw [(h.get hget).1] at hname
    cases hname
  case h_2 => rw [hname, if_neg Bool.false_ne_true]

end Expanding

/-! ## Functions -/

/-- Numbers are written in digits. -/
theorem isMacroName_toString (n : Nat) : Statement.isMacroName (toString n) = false := by
  have hdigits : (toString n).toList = Nat.toDigits 10 n := by simp [Nat.repr]
  unfold Statement.isMacroName
  rw [hdigits, beq_eq_false_iff_ne]
  intro hhead
  have hat := List.mem_of_mem_head? (Option.mem_def.mpr hhead)
  have hdigit := Nat.isDigit_of_mem_toDigits (by decide) (by decide) hat
  exact absurd hdigit (by decide)

section Functions

variable {tree : Sexp}

/-- A constant is written as it was read. -/
theorem ConstantFn.tree_ofSexp {fn : ConstantFn} (h : ofSexp tree = .ok fn) : fn.toFn.tree = tree := by
  unfold ofSexp at h
  split at h
  · obtain ⟨f, -, h⟩ := bind_eq_ok.mp h
    obtain rfl := Except.ok.inj h
    rfl
  · obtain ⟨f, -, h⟩ := bind_eq_ok.mp h
    obtain ⟨t, -, h⟩ := bind_eq_ok.mp h
    obtain rfl := Except.ok.inj h
    rfl
  · cases h

/-- The options of a join do not change how it is written. -/
theorem JoinFn.tree_readOption (join : JoinFn) (option : Sexp) (join' : JoinFn)
    (h : readOption join option = .ok join') : join'.tree = join.tree := by
  unfold readOption at h
  split at h
  all_goals try (rw [← Except.ok.inj h])
  all_goals try (cases h)
  · obtain ⟨f, -, h⟩ := bind_eq_ok.mp h
    rw [← Except.ok.inj h]
  · obtain ⟨f, -, h⟩ := bind_eq_ok.mp h
    obtain ⟨t, -, h⟩ := bind_eq_ok.mp h
    rw [← Except.ok.inj h]

theorem JoinFn.tree_ofSexp {fn : JoinFn} (h : ofSexp tree = .ok fn) : fn.toFn.tree = tree := by
  unfold ofSexp at h
  dsimp only at h
  split at h
  case isTrue => cases h
  case isFalse =>
    obtain ⟨join, hjoin, h⟩ := bind_eq_ok.mp h
    split at h
    case isTrue => cases h
    case isFalse =>
      rw [← Except.ok.inj h]
      exact eq_of_foldlM_eq_ok JoinFn.tree_readOption hjoin

theorem MergeFn.tree_ofSexp {fn : MergeFn} (h : ofSexp tree = .ok fn) : fn.toFn.tree = tree := by
  unfold ofSexp at h
  dsimp only at h
  split at h
  case isTrue => cases h
  case isFalse =>
    split at h
    case h_2 => cases h
    case h_1 =>
      split at h
      · obtain rfl := Except.ok.inj h
        rfl
      · obtain ⟨f, -, h⟩ := bind_eq_ok.mp h
        obtain rfl := Except.ok.inj h
        rfl

theorem LexiconFn.tree_readArgument (fn : LexiconFn) (argument : Sexp) (fn' : LexiconFn)
    (h : readArgument fn argument = .ok fn') : fn'.tree = fn.tree := by
  unfold readArgument at h
  split at h
  · obtain ⟨t, -, h⟩ := bind_eq_ok.mp h
    rw [← Except.ok.inj h]
  · cases h

theorem LexiconFn.tree_ofSexp {fn : LexiconFn} (h : ofSexp tree = .ok fn) : fn.toFn.tree = tree := by
  unfold ofSexp at h
  dsimp only at h
  split at h
  case isTrue => cases h
  case isFalse => exact eq_of_foldlM_eq_ok LexiconFn.tree_readArgument h

theorem ConcatFn.macroFree_ofSexp {fn : ConcatFn} (htree : tree.MacroFree) (h : ofSexp tree = .ok fn) :
    fn.toFn.tree.MacroFree := by
  unfold ofSexp at h
  split at h
  case isFalse => cases h
  case isTrue =>
    split at h
    case h_2 => cases h
    case h_1 delimiter hleaf =>
      obtain rfl := Except.ok.inj h
      have hdelimiter := Sexp.macroFree_leaf.mpr (htree.childLeaf hleaf)
      exact Sexp.macroFree_form.mpr ⟨by decide, List.forall_mem_singleton.mpr hdelimiter⟩

theorem IdentityFn.macroFree_toFn (fn : IdentityFn) : fn.toFn.tree.MacroFree :=
  Sexp.macroFree_list.mpr (List.forall_mem_singleton.mpr (by decide))

theorem SelectFn.macroFree_toFn (fn : SelectFn) : fn.toFn.tree.MacroFree := by
  have hposition := Sexp.macroFree_leaf.mpr (isMacroName_toString fn.position)
  exact Sexp.macroFree_form.mpr ⟨by decide, List.forall_mem_singleton.mpr hposition⟩

/-- The tags that may be asked for are not names of macros. -/
theorem NumberFn.macroFree_ofSexp {fn : NumberFn} (h : ofSexp tree = .ok fn) : fn.toFn.tree.MacroFree := by
  have hknown : ∀ tag ∈ knownTags, Statement.isMacroName tag = false := by decide
  suffices htags : ∀ tag ∈ fn.requests.getD [], tag ∈ knownTags by
    refine Sexp.macroFree_form.mpr ⟨by decide, fun item hitem => ?_⟩
    obtain ⟨tag, htag, rfl⟩ := List.mem_map.mp hitem
    exact Sexp.macroFree_leaf.mpr (hknown tag (htags tag htag))
  unfold ofSexp at h
  dsimp only at h
  split at h
  case isTrue => cases h
  case isFalse =>
    split at h
    case isTrue =>
      rw [← Except.ok.inj h]
      exact fun _ htag => nomatch htag
    case isFalse =>
      obtain ⟨requests, hrequests, h⟩ := bind_eq_ok.mp h
      rw [← Except.ok.inj h]
      intro tag htag
      obtain ⟨request, -, hrequest⟩ := exists_of_mem_mapM hrequests htag
      split at hrequest
      case h_2 => cases hrequest
      case h_1 tag' hleaf =>
        split at hrequest
        case isFalse => cases hrequest
        case isTrue hmem =>
          rw [← Except.ok.inj hrequest]
          exact List.contains_iff_mem.mp hmem

end Functions

namespace Registry

/-- **A registry that writes functions with the leaves that they were read from.** -/
def Plain (registry : Registry) : Prop :=
  ∀ name reader, registry.readers.get? name = some reader →
    ∀ tree sem, tree.MacroFree → reader tree = .ok sem → sem.tree.MacroFree

theorem Plain.build {registry : Registry} (h : registry.Plain) {tree : Sexp} {sem : SemanticFn} (htree : tree.MacroFree)
    (hbuild : registry.build tree = .ok sem) : sem.tree.MacroFree := by
  unfold Registry.build at hbuild
  split at hbuild
  case h_1 => cases hbuild
  case h_2 name hname =>
    split at hbuild
    case h_1 => cases hbuild
    case h_2 reader hreader => exact h name reader hreader tree sem htree hbuild

/-- **The functions of the language** are written in this way. -/
theorem plain_standard : standard.Plain := by
  intro name reader hreader tree sem htree hsem
  have hentry := Table.mem_of_find hreader
  simp only [standard, List.mem_cons, List.not_mem_nil, or_false, Prod.mk.injEq] at hentry
  rcases hentry with ⟨-, rfl⟩ | ⟨-, rfl⟩ | ⟨-, rfl⟩ | ⟨-, rfl⟩ | ⟨-, rfl⟩ | ⟨-, rfl⟩ | ⟨-, rfl⟩ | ⟨-, rfl⟩
  all_goals obtain ⟨fn, hfn, rfl⟩ := map_eq_ok.mp hsem
  · exact (ConstantFn.tree_ofSexp hfn) ▸ htree
  · exact IdentityFn.macroFree_toFn fn
  · exact fn.macroFree_toFn
  · exact ConcatFn.macroFree_ofSexp htree hfn
  · exact NumberFn.macroFree_ofSexp hfn
  · exact (JoinFn.tree_ofSexp hfn) ▸ htree
  · exact (MergeFn.tree_ofSexp hfn) ▸ htree
  · exact (LexiconFn.tree_ofSexp hfn) ▸ htree

end Registry

/-! ## Rules -/

/-- The functions that pairs have instead of the function of their rule. -/
def pairingFns : List SemanticFn :=
  [(SelectFn.mk 0).toFn, (SelectFn.mk 1).toFn, ConstantFn.null.toFn, JoinFn.forwardBetaReduce.toFn]

theorem macroFree_pairingFns : ∀ f ∈ pairingFns, f.tree.MacroFree := by decide +kernel

/-- **What becomes of trees in which no macro is left**: the functions built from them, and those of pairs. -/
def Registry.Makes (registry : Registry) (sem : SemanticFn) : Prop :=
  sem ∈ pairingFns ∨ ∃ tree : Sexp, tree.MacroFree ∧ registry.build tree = .ok sem

namespace Rule

/-- **A rule made of symbols and a function of given kinds.** -/
structure MadeOf (S : String → Prop) (F : SemanticFn → Prop) (rule : Rule) : Prop where
  lhs : S rule.lhs
  rhs : ∀ symbol ∈ rule.rhs, S symbol
  sem : F rule.sem

section MadeOf

variable {S : String → Prop} {F : SemanticFn → Prop} {rule : Rule} {optionals : List Bool}

theorem sem_pairFn {sem : SemanticFn} (hpairing : ∀ f ∈ pairingFns, F f) (hsem : F sem) (left right : Slot)
    (hasLeft : Bool) : F (pairFn sem left right hasLeft) := by
  unfold pairFn
  split
  · exact hsem
  · split
    · exact hpairing _ (by simp [pairingFns])
    · split
      · exact hpairing _ (by simp [pairingFns])
      · exact hpairing _ (by simp [pairingFns])

theorem madeOf_pairRules (hpairing : ∀ f ∈ pairingFns, F f) (hsem : F rule.sem) {lhs : String} (hlhs : S lhs)
    {left right : Slot} (hleft : S left.symbol) (hright : S right.symbol) :
    ∀ r ∈ rule.pairRules lhs left right, r.MadeOf S F := by
  intro r hr
  rw [pairRules_eq] at hr
  obtain ⟨⟨l, b⟩, -, rfl⟩ := List.mem_map.mp hr
  refine ⟨hlhs, fun symbol hsymbol => ?_, sem_pairFn hpairing hsem left right l⟩
  have hshown : ∀ slot : Slot, ∀ present, symbol ∈ slot.shown present → symbol = slot.symbol := by
    intro slot present h
    unfold Slot.shown at h
    split at h
    · exact List.mem_singleton.mp h
    · cases h
  rcases List.mem_append.mp hsymbol with h | h
  · exact hshown left l h ▸ hleft
  · exact hshown right b h ▸ hright

/-- Pairing slots keeps to their symbols and to the fresh categories. -/
theorem madeOf_pairUp (hfresh : ∀ n, S (freshCat n)) (hpairing : ∀ f ∈ pairingFns, F f) (hlhs : S rule.lhs)
    (hsem : F rule.sem) {slots : List Slot} (hslots : ∀ slot ∈ slots, S slot.symbol) {left : Slot}
    (hleft : S left.symbol) (applied : Bool) (n : Nat) :
    ∀ r ∈ (rule.pairUp left applied n slots).1, r.MadeOf S F := by
  induction slots generalizing left applied n with
  | nil =>
    intro r hr
    unfold pairUp at hr
    split at hr
    · cases hr
    · rw [List.mem_singleton.mp hr]
      exact ⟨hlhs, fun symbol hsymbol => List.mem_singleton.mp hsymbol ▸ hleft, hsem⟩
  | cons right rest ih =>
    rw [pairUp]
    dsimp only
    generalize (rest.isEmpty && (applied || (left.required && right.required))) = atEnd
    have hcat : S (if atEnd then rule.lhs else freshCat (n + 1)) := by
      split
      · exact hlhs
      · exact hfresh (n + 1)
    intro r hr
    rcases List.mem_append.mp hr with hr | hr
    · exact madeOf_pairRules hpairing hsem hcat hleft (hslots right List.mem_cons_self) r hr
    · exact ih (fun slot hslot => hslots slot (List.mem_cons_of_mem _ hslot)) hcat _ _ r hr

theorem madeOf_cascade (hfresh : ∀ n, S (freshCat n)) (hpairing : ∀ f ∈ pairingFns, F f) (hrule : rule.MadeOf S F)
    {slots : List Slot} (hslots : ∀ slot ∈ slots, S slot.symbol) (n : Nat) :
    ∀ r ∈ (rule.cascade slots n).1, r.MadeOf S F := by
  unfold cascade
  split
  case h_1 first second rest =>
    exact madeOf_pairUp hfresh hpairing hrule.lhs hrule.sem
      (fun slot hslot => hslots slot (List.mem_cons_of_mem _ hslot)) (hslots first List.mem_cons_self) false n
  case h_2 => exact fun r hr => List.mem_singleton.mp hr ▸ hrule

/-- **Bringing a rule to two symbols keeps to its symbols and function**, to the fresh categories and to the functions
of pairs. -/
theorem madeOf_binarize (hfresh : ∀ n, S (freshCat n)) (hpairing : ∀ f ∈ pairingFns, F f) (hrule : rule.MadeOf S F)
    {n : Nat} {result : List Rule × Nat} (h : rule.binarize optionals n = .ok result) :
    ∀ r ∈ result.1, r.MadeOf S F := by
  obtain ⟨hlen, -, hresult⟩ := binarize_eq_ok h
  have hslots : ∀ slot ∈ rule.slotsOf optionals, S slot.symbol := fun slot hslot =>
    hrule.rhs _ (map_symbol_slotsOf hlen ▸ List.mem_map_of_mem hslot)
  rcases hresult with rfl | ⟨before, first, after, hsplit, -, rfl⟩
  · exact madeOf_cascade hfresh hpairing hrule hslots n
  -- both cascades are those of rules made of the same symbols, with a fresh category for what the first one makes
  rw [hsplit, List.forall_mem_append, List.forall_mem_cons] at hslots
  obtain ⟨hbefore, hfirst, hafter⟩ := hslots
  have hinner : ∀ slot ∈ before ++ [first], S slot.symbol :=
    List.forall_mem_append.mpr ⟨hbefore, List.forall_mem_singleton.mpr hfirst⟩
  have houter : ∀ slot ∈ Slot.ofSymbol (freshCat (n + 1)) false :: after, S slot.symbol :=
    List.forall_mem_cons.mpr ⟨hfresh (n + 1), hafter⟩
  have hinnerRule : (rule.innerRule before first n).MadeOf S F :=
    ⟨hfresh (n + 1), List.forall_mem_map.mpr hinner, hrule.sem⟩
  have happly : JoinFn.forwardBetaReduce.toFn ∈ pairingFns := by simp [pairingFns]
  have houterRule : (rule.outerRule after n).MadeOf S F :=
    ⟨hrule.lhs, List.forall_mem_map.mpr houter, hpairing _ happly⟩
  intro r hr
  rcases List.mem_append.mp hr with hr | hr
  · exact madeOf_cascade hfresh hpairing hinnerRule hinner (n + 1) r hr
  · exact madeOf_cascade hfresh hpairing houterRule houter _ r hr

end MadeOf

/-- A rule that is used as it is gives itself. -/
theorem unbinarized_eq_ok {rule : Rule} {optionals : List Bool} {result : List Rule}
    (h : rule.unbinarized optionals = .ok result) : result = [rule] := by
  unfold unbinarized at h
  split at h
  case isTrue => cases h
  case isFalse =>
    split at h
    case isTrue => cases h
    case isFalse => exact (Except.ok.inj h).symm

/-- **A rule in which no macro is left**, nor in the tree that its function was built from. -/
def MacroFree (registry : Registry) (rule : Rule) : Prop :=
  rule.MadeOf (fun symbol => Statement.isMacroName symbol = false) registry.Makes

/-- The function is written without macros as well, if the registry writes functions as they were read. -/
theorem MacroFree.tree {registry : Registry} {rule : Rule} (h : rule.MacroFree registry) (hregistry : registry.Plain) :
    rule.sem.tree.MacroFree := by
  rcases h.sem with hpairing | ⟨tree, htree, hbuild⟩
  · exact macroFree_pairingFns _ hpairing
  · exact hregistry.build htree hbuild

theorem isMacroName_freshCat (n : Nat) : Statement.isMacroName (freshCat n) = false := by
  obtain ⟨rest, hrest⟩ := isReserved_freshCat n
  unfold Statement.isMacroName
  rw [← hrest]
  rfl

end Rule

namespace Grammar

variable {registry : Registry} {rule : Rule} {optionals : List Bool}

/-- **Adding a rule in which no macro is left** adds such rules, and changes nothing else that compiling looks at. -/
theorem macroFree_addRule {grammar after : Grammar} (hrule : rule.MacroFree registry)
    (h : grammar.addRule rule optionals = .ok after) :
    ∃ rules fresh, (∀ r ∈ rules, r.MacroFree registry) ∧
      after = { grammar with rules := grammar.rules ++ rules, fresh } := by
  unfold addRule at h
  split at h
  case isTrue =>
    obtain ⟨⟨rules, fresh⟩, hresult, h⟩ := bind_eq_ok.mp h
    have hmade : ∀ r ∈ rules, r.MacroFree registry :=
      Rule.madeOf_binarize Rule.isMacroName_freshCat (fun f hf => Or.inl hf) hrule hresult
    exact ⟨rules, fresh, hmade, (Except.ok.inj h).symm⟩
  case isFalse =>
    obtain ⟨rules, hresult, h⟩ := bind_eq_ok.mp h
    obtain rfl := Rule.unbinarized_eq_ok hresult
    exact ⟨[rule], grammar.fresh, List.forall_mem_singleton.mpr hrule, (Except.ok.inj h).symm⟩

theorem macroFree_functionTree {tree : Sexp} (h : tree.MacroFree) : (functionTree tree).MacroFree := by
  unfold functionTree
  split
  case h_1 text => exact Sexp.macroFree_form.mpr ⟨by decide, List.forall_mem_singleton.mpr h⟩
  case h_2 rest =>
    have harg : (Sexp.form "arg0" [.list (.leaf "lambda" :: rest)]).MacroFree :=
      Sexp.macroFree_form.mpr ⟨by decide, List.forall_mem_singleton.mpr h⟩
    refine Sexp.macroFree_form.mpr ⟨by decide, ?_⟩
    rw [List.forall_mem_cons, List.forall_mem_cons, List.forall_mem_singleton]
    exact ⟨by decide, by decide, harg⟩
  case h_3 => exact h

theorem macroFree_readSymbol {tree item : Sexp} {symbol : String × Bool} (h : item.MacroFree)
    (hread : readSymbol tree item = .ok symbol) : Statement.isMacroName symbol.1 = false := by
  unfold readSymbol at hread
  split at hread
  case h_1 text =>
    obtain rfl := Except.ok.inj hread
    exact Sexp.macroFree_leaf.mp h
  case h_2 text marks =>
    obtain rfl := Except.ok.inj hread
    exact Sexp.macroFree_leaf.mp (Sexp.macroFree_list.mp h _ List.mem_cons_self)
  case h_3 => cases hread

/-- **The rule that an expanded statement gives** has no macro in it. -/
theorem macroFree_readRule {source : String} {tree : Sexp} (htree : tree.MacroFree)
    (h : readRule registry source tree = .ok (rule, optionals)) : rule.MacroFree registry := by
  have hparts : ∀ part ∈ tree.tail 1, part.MacroFree := fun part hpart =>
    htree.of_mem_children (List.mem_of_mem_drop hpart)
  unfold readRule at h
  split at h
  case h_1 lhs items function properties hshape =>
    rw [hshape] at hparts
    obtain ⟨symbols, hsymbols, h⟩ := bind_eq_ok.mp h
    obtain ⟨sem, hsem, h⟩ := bind_eq_ok.mp h
    obtain ⟨info, -, h⟩ := bind_eq_ok.mp h
    obtain ⟨rfl, -⟩ := Prod.mk.inj (Except.ok.inj h)
    have hlhs := hparts (.leaf lhs) (by simp)
    have hitems := hparts (.list items) (by simp)
    have hfunction := hparts function (by simp)
    refine ⟨Sexp.macroFree_leaf.mp hlhs, fun symbol hsymbol => ?_,
      Or.inr ⟨functionTree function, macroFree_functionTree hfunction, hsem⟩⟩
    obtain ⟨pair, hpair, rfl⟩ := List.mem_map.mp hsymbol
    obtain ⟨item, hitem, hread⟩ := exists_of_mem_mapM hsymbols hpair
    exact macroFree_readSymbol (Sexp.macroFree_list.mp hitems item hitem) hread
  case h_2 => cases h
  case h_3 => cases h

end Grammar

end Parlance
