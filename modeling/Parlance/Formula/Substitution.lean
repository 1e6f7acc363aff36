import Parlance.Formula.Basic
import Parlance.Sorted

/-!
# `Formula.Substitution` — free variables and what takes their place

A lambda binds its variable in its body; a mark does not. Substitution replaces the free occurrences of
a variable and renames nothing, so it is meant for formulas without free variables of their own.

## Contents
- **Free variables.** `hasFree` and `freeVars`.
- **Substitution.** `substitute`, and `appliedTo?`, which applies a lambda.
- **Reduction.** `reduce?`, which applies every lambda that a join applies.
-/

namespace Parlance.Formula

/-! ## Free variables -/

mutual
/-- Whether a variable occurs free. -/
def hasFree (x : String) : Formula → Bool
  | value _ => false
  | var y => y == x
  | join r c => hasFree x r || hasFree x c
  | merge _ a b => hasFree x a || hasFree x b
  | not c => hasFree x c
  | lambda y b => y != x && hasFree x b
  | mark _ b => hasFree x b
  | reverse c => hasFree x c
  | aggregate _ c => hasFree x c
  | arithmetic _ a b => hasFree x a || hasFree x b
  | superlative _ r k h s => hasFree x r || hasFree x k || hasFree x h || hasFree x s
  | call f as => hasFree x f || anyHasFree x as
/-- Whether a variable occurs free in one of several formulas. -/
def anyHasFree (x : String) : List Formula → Bool
  | [] => false
  | f :: rest => hasFree x f || anyHasFree x rest
end

mutual
/-- The free variables in the order of their occurrences, those in `bound` left out. -/
def freeOccurrences (bound : List String) : Formula → List String
  | value _ => []
  | var x => if bound.contains x then [] else [x]
  | join r c => freeOccurrences bound r ++ freeOccurrences bound c
  | merge _ a b => freeOccurrences bound a ++ freeOccurrences bound b
  | not c => freeOccurrences bound c
  | lambda x b => freeOccurrences (x :: bound) b
  | mark _ b => freeOccurrences bound b
  | reverse c => freeOccurrences bound c
  | aggregate _ c => freeOccurrences bound c
  | arithmetic _ a b => freeOccurrences bound a ++ freeOccurrences bound b
  | superlative _ r k h s =>
    freeOccurrences bound r ++ freeOccurrences bound k ++ freeOccurrences bound h ++
      freeOccurrences bound s
  | call f as => freeOccurrences bound f ++ freeOccurrencesOfAll bound as
/-- The free variables of several formulas in the order of their occurrences. -/
def freeOccurrencesOfAll (bound : List String) : List Formula → List String
  | [] => []
  | f :: rest => freeOccurrences bound f ++ freeOccurrencesOfAll bound rest
end

/-- The free variables in alphabetic order. -/
def freeVars (f : Formula) : List String := sortedNames (freeOccurrences [] f)

/-! ## Substitution -/

mutual
/-- Replaces the free occurrences of a variable. -/
def substitute (x : String) (replacement : Formula) : Formula → Formula
  | value v => value v
  | var y => if y = x then replacement else var y
  | join r c => join (substitute x replacement r) (substitute x replacement c)
  | merge m a b => merge m (substitute x replacement a) (substitute x replacement b)
  | not c => not (substitute x replacement c)
  | lambda y b => if y = x then lambda y b else lambda y (substitute x replacement b)
  | mark y b => mark y (substitute x replacement b)
  | reverse c => reverse (substitute x replacement c)
  | aggregate m c => aggregate m (substitute x replacement c)
  | arithmetic m a b => arithmetic m (substitute x replacement a) (substitute x replacement b)
  | superlative m r k h s =>
    superlative m (substitute x replacement r) (substitute x replacement k)
      (substitute x replacement h) (substitute x replacement s)
  | call f as => call (substitute x replacement f) (substituteAll x replacement as)
/-- Replaces the free occurrences of a variable in several formulas. -/
def substituteAll (x : String) (replacement : Formula) : List Formula → List Formula
  | [] => []
  | f :: rest => substitute x replacement f :: substituteAll x replacement rest
end

/-- A lambda applied to an argument. -/
def appliedTo? : Formula → Formula → Option Formula
  | lambda x body, argument => some (substitute x argument body)
  | _, _ => none

/-! ## Reduction -/

/-- Applies every lambda that a join applies, the outermost ones first, until none is left. There is no
result if that takes more than `fuel` nested steps. -/
def reduce? : Nat → Formula → Option Formula
  | 0, _ => none
  | _ + 1, value v => some (value v)
  | _ + 1, var x => some (var x)
  | fuel + 1, join r c => do
    let r ← reduce? fuel r
    match r.appliedTo? c with
    | some applied => reduce? fuel applied
    | none => return join r (← reduce? fuel c)
  | fuel + 1, merge m a b => return merge m (← reduce? fuel a) (← reduce? fuel b)
  | fuel + 1, not c => return not (← reduce? fuel c)
  | fuel + 1, lambda x b => return lambda x (← reduce? fuel b)
  | fuel + 1, mark x b => return mark x (← reduce? fuel b)
  | fuel + 1, reverse c => return reverse (← reduce? fuel c)
  | fuel + 1, aggregate m c => return aggregate m (← reduce? fuel c)
  | fuel + 1, arithmetic m a b => return arithmetic m (← reduce? fuel a) (← reduce? fuel b)
  | fuel + 1, superlative m r k h s =>
    return superlative m (← reduce? fuel r) (← reduce? fuel k) (← reduce? fuel h) (← reduce? fuel s)
  | fuel + 1, call f as => return call (← reduce? fuel f) (← as.mapM (reduce? fuel))

/-- The nesting that reduction is given by default. -/
def reductionDepth : Nat := 10000

end Parlance.Formula
