import Parlance.Derivation.Basic

/-!
# `Derivation.Arena` — all derivations of a parse, by number

Derivations are numbered in the order in which they are put in, and the children of one have smaller
numbers than it has. Walks over derivation trees go by that: a child whose number is not smaller is not
followed.

## Contents
- **Access.** `push`, `get?`, `modify`, `sort`.
- **Scores.** `scoreLocal`, from the scores of the children, and `rescore`, from the whole tree.
- **Trees.** `addTreeFeatures`, `treeFeatures`, `allAnchored`.
-/

namespace Parlance

/-- All derivations of a parse. -/
structure Arena (α : Type) where
  items : Array (Derivation α)

namespace Arena

variable {α : Type} [Score α]

/-! ## Access -/

/-- No derivations. -/
def empty : Arena α := ⟨#[]⟩

/-- The number of derivations. -/
def size (arena : Arena α) : Nat := arena.items.size

/-- Puts a derivation in; its number is the size before. -/
def push (arena : Arena α) (d : Derivation α) : Arena α := ⟨arena.items.push d⟩

/-- The derivation with a number. -/
def get? (arena : Arena α) (i : Nat) : Option (Derivation α) := arena.items[i]?

/-- Changes the derivation with a number. -/
def modify (arena : Arena α) (i : Nat) (f : Derivation α → Derivation α) : Arena α :=
  ⟨arena.items.modify i f⟩

/-- The derivation with a number, or one that covers nothing. -/
def get (arena : Arena α) (i : Nat) : Derivation α := (arena.get? i).getD default

/-- The score of the derivation with a number. -/
def score (arena : Arena α) (i : Nat) : α := (arena.get i).score

/-- Numbers of derivations sorted by score. -/
def sort (arena : Arena α) (l : List Nat) : List Nat :=
  l.mergeSort fun i j => (arena.get i).before (arena.get j)

/-! ## Scores -/

/-- The score of a derivation from its own features and the scores of its children. -/
def scoreLocal (arena : Arena α) (w : Weights α) (d : Derivation α) : Derivation α :=
  { d with score := w.dot d.features + Score.sum (d.children.map arena.score) }

mutual
/-- Computes the scores in a derivation tree anew, from the leaves up. -/
def rescore (arena : Arena α) (w : Weights α) (i : Nat) : Arena α × α :=
  let d := arena.get i
  let (arena, score) := rescoreAll arena w i (w.dot d.features) d.children
  (arena.modify i fun d => { d with score }, score)
termination_by (i, 1, 0)
/-- Adds the scores of children, computed anew, to a sum. -/
def rescoreAll (arena : Arena α) (w : Weights α) (parent : Nat) (total : α) :
    List Nat → Arena α × α
  | [] => (arena, total)
  | c :: rest =>
    if c < parent then
      let (arena, score) := rescore arena w c
      rescoreAll arena w parent (total + score) rest
    else rescoreAll arena w parent total rest
termination_by children => (parent, 0, children.length)
end

/-! ## Trees -/

mutual
/-- Adds a multiple of the features of a derivation tree to a table. -/
def addTreeFeatures (arena : Arena α) (factor : α) (i : Nat) (table : Table α) : Table α :=
  let d := arena.get i
  addTreeFeaturesOfAll arena factor i d.children (Features.addScaled table factor d.features)
termination_by (i, 1, 0)
/-- Adds a multiple of the features of the trees of children to a table. -/
def addTreeFeaturesOfAll (arena : Arena α) (factor : α) (parent : Nat) (children : List Nat)
    (table : Table α) : Table α :=
  match children with
  | [] => table
  | c :: rest =>
    if c < parent then
      addTreeFeaturesOfAll arena factor parent rest (addTreeFeatures arena factor c table)
    else addTreeFeaturesOfAll arena factor parent rest table
termination_by (parent, 0, children.length)
end

/-- The features of a derivation tree. -/
def treeFeatures (arena : Arena α) (i : Nat) : Table α :=
  arena.addTreeFeatures Score.one i .empty

mutual
/-- Whether every rule in a derivation tree is anchored to the utterance. -/
def allAnchored (arena : Arena α) (defaultFloating : Bool) (i : Nat) : Bool :=
  let d := arena.get i
  (d.rule.isNull || !d.rule.isFloating defaultFloating) &&
    allAnchoredIn arena defaultFloating i d.children
termination_by (i, 1, 0)
/-- Whether every rule in the trees of children is anchored to the utterance. -/
def allAnchoredIn (arena : Arena α) (defaultFloating : Bool) (parent : Nat) (children : List Nat) :
    Bool :=
  match children with
  | [] => true
  | c :: rest =>
    (if c < parent then allAnchored arena defaultFloating c else true) &&
      allAnchoredIn arena defaultFloating parent rest
termination_by (parent, 0, children.length)
end

end Arena

end Parlance
