import Parlance.Relation
import Parlance.Sorted
import Parlance.Table

/-!
# `SemType.Hierarchy` — which atomic types lie below which

A hierarchy lists the supertypes of the atomic types that were registered. A type that never was counts
as a type of entities: below itself, below `fb:common.topic` and below `fb:type.any`.
-/

namespace Parlance

/-- The supertypes of each registered type. -/
structure Hierarchy where
  supers : Table (List String)

namespace Hierarchy

/-- The hierarchy in which no type is registered. -/
def bare : Hierarchy := ⟨Table.empty⟩

/-- Registers a type, if it was not, and a supertype of it. -/
def addSupertype (h : Hierarchy) (sub sup : String) : Hierarchy :=
  ⟨h.supers.update sub fun old =>
    let known := old.getD []
    if known.contains sup then known else known ++ [sup]⟩

/-- Registers a type of entities. -/
def addEntity (h : Hierarchy) (t : String) : Hierarchy :=
  ((h.addSupertype t t).addSupertype t Relation.entity).addSupertype t Relation.any

/-- What every unregistered type lies below. -/
def implicit (t : String) : List String := [t, Relation.entity, Relation.any]

/-- Whether a type lies below another one. -/
def isSubtype (h : Hierarchy) (sub sup : String) : Bool :=
  match h.supers.get? sub with
  | some known => known.contains sup
  | none => sup == sub || sup == Relation.entity || sup == Relation.any

/-- The supertypes of a type, itself included, in alphabetic order. -/
def supertypes (h : Hierarchy) (t : String) : List String :=
  ((h.supers.get? t).getD (implicit t)).mergeSort fun a b => decide (a ≤ b)

/-- The types that are registered from the start. -/
def builtin : List String :=
  [Relation.boolean, Relation.int, Relation.float, Relation.date, Relation.text, Relation.number,
    Relation.entity, Relation.any]

/-- The hierarchy to start from: every built-in type lies below itself and `fb:type.any`, and the two
kinds of numbers below numbers. -/
def standard : Hierarchy :=
  let reflexive := builtin.foldl (fun h t => (h.addSupertype t t).addSupertype t Relation.any) bare
  (reflexive.addSupertype Relation.int Relation.number).addSupertype Relation.float Relation.number

instance : Inhabited Hierarchy := ⟨standard⟩

end Hierarchy

end Parlance
