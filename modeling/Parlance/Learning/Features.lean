import Parlance.Score.Basic
import Parlance.Table

/-!
# `Learning.Features` — sparse vectors of named features

A feature is known by its domain and its name, joined to one key. A vector lists its features in the
order in which they were first added.
-/

namespace Parlance

/-- A sparse vector of features. -/
abbrev Features (α : Type) := Table α

namespace Features

/-- The key of a feature. -/
def key (domain name : String) : String := domain ++ " :: " ++ name

variable {α β : Type}

/-- Applies a function to the value of every feature. -/
def convert (f : α → β) (v : Features α) : Features β := Table.map f v

variable [Score α]

/-- Adds to the feature with a key. -/
def addKey (v : Features α) (key : String) (value : α) : Features α :=
  Table.update v key fun old => old.getD Score.zero + value

/-- Adds to a feature. -/
def add (v : Features α) (domain name : String) (value : α) : Features α :=
  addKey v (key domain name) value

/-- Adds a multiple of a vector. -/
def addScaled (v : Features α) (scale : α) (other : Features α) : Features α :=
  other.toList.foldl (fun v (key, value) => addKey v key (scale * value)) v

end Features

end Parlance
