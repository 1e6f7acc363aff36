import Parlance.Formula.Reversal
import Parlance.Proofs.FreeVariables

/-!
# `Proofs.ChainEnds` — the variables of a reversed binary

A binary is reversed by turning its chain of joins round. Each link keeps its variables, and so does a formula that is
only marked as reversed. What stands at the end of the chain is replaced by the variable of the lambda, whatever
variable it was: a chain that ends in another one loses it. So reversal permutes the free occurrences of variables and
leaves out those at the ends of the chains that it turns round.

## Contents
- **Chain ends.** `isChain` and `strayEnds`.
- **Reversal.** `perm_reverseBinary`, and so `freeVars_reverseBinary`.
-/

namespace Parlance.Formula

/-! ## Chain ends -/

/-- Whether a formula is a chain of joins that ends in a variable. -/
def isChain : Formula → Bool
  | join _ c => isChain c
  | var _ => true
  | _ => false

mutual
/-- **The free variables at the ends of the chains that reversal turns round**, those in `bound` left out. A chain that
ends in the variable of its lambda has none of its own. -/
def strayEnds (bound : List String) : Formula → List String
  | lambda x body => if isChain body then strayEndsBelow (x :: bound) body else []
  | _ => []
/-- The free variables at the end of a chain, and at the ends of the chains that its links are. -/
def strayEndsBelow (bound : List String) : Formula → List String
  | join r c => strayEnds bound r ++ strayEndsBelow bound c
  | var x => freeOccurrences bound (var x)
  | _ => []
end

/-! ## Reversal -/

theorem isSome_reverseChain (body result : Formula) : (reverseChain body result).isSome = body.isChain := by
  induction body using children_induction generalizing result with
  | step body ih =>
    cases body with
    | join r c =>
      rw [reverseChain, isChain]
      exact ih c (by simp [children]) _
    | _ => rfl

mutual
/-- **Reversal permutes the free occurrences** of variables, and loses those at the ends of chains. -/
theorem perm_reverseBinary (bound : List String) (f : Formula) :
    (freeOccurrences bound f).Perm (freeOccurrences bound (reverseBinary f) ++ strayEnds bound f) := by
  cases f with
  | lambda x body =>
    have hchain := isSome_reverseChain body (var x)
    rw [reverseBinary]
    cases h : reverseChain body (var x) with
    | none =>
      rw [h] at hchain
      simp [freeOccurrences, strayEnds, ← hchain]
    | some chain =>
      rw [h] at hchain
      have hperm := perm_reverseChain (x :: bound) body h
      -- the variable that takes the place of the end is bound
      simpa [freeOccurrences, strayEnds, ← hchain] using hperm
  | value v => cases v <;> simp [reverseBinary, ofName, Value.ofName, freeOccurrences, strayEnds]
  | _ => simp [reverseBinary, freeOccurrences, strayEnds]
/-- A chain that is turned round in front of `result` has its variables and those of `result`, except for its end. -/
theorem perm_reverseChain (bound : List String) (body : Formula) {result chain : Formula}
    (h : reverseChain body result = some chain) :
    (freeOccurrences bound body ++ freeOccurrences bound result).Perm
      (freeOccurrences bound chain ++ strayEndsBelow bound body) := by
  cases body with
  | join r c =>
    rw [reverseChain] at h
    have hlink := perm_reverseBinary bound r
    have hrest := perm_reverseChain bound c h
    rw [List.perm_iff_count] at hlink hrest ⊢
    intro v
    have hlinkCount := hlink v
    have hrestCount := hrest v
    simp only [freeOccurrences, strayEndsBelow, List.count_append] at hlinkCount hrestCount ⊢
    omega
  | var y =>
    obtain rfl := Option.some.inj h
    exact List.perm_append_comm
  | _ => cases h
end

/-- **The free variables of a reversed binary.** Its free occurrences are those of the binary in another order, without
the ones at the ends of the chains that were turned round. So a reversed binary has no other free variables, and it has
the same ones exactly if each variable at such an end occurs free elsewhere. -/
theorem freeVars_reverseBinary (f : Formula) :
    (freeOccurrences [] f).Perm (freeOccurrences [] (reverseBinary f) ++ strayEnds [] f) ∧
      (∀ v ∈ (reverseBinary f).freeVars, v ∈ f.freeVars) ∧
      ((reverseBinary f).freeVars = f.freeVars ↔ ∀ v ∈ strayEnds [] f, v ∈ (reverseBinary f).freeVars) := by
  have hperm := perm_reverseBinary [] f
  have hmem : ∀ v, v ∈ f.freeVars ↔ v ∈ (reverseBinary f).freeVars ∨ v ∈ strayEnds [] f := by
    intro v
    simp only [freeVars, mem_sortedNames]
    rw [hperm.mem_iff, List.mem_append]
  refine ⟨hperm, fun v hv => (hmem v).mpr (.inl hv), ?_, ?_⟩
  · intro hsame v hv
    rw [hsame]
    exact (hmem v).mpr (.inr hv)
  · intro hends
    refine sortedNames_congr fun v => ?_
    have h := hmem v
    simp only [freeVars, mem_sortedNames] at h hends
    rw [h]
    exact ⟨.inl, fun hv => hv.elim id (hends v)⟩

/-- The parents of someone who is not the one that the lambda is about. -/
def parentsOfOther : Formula := lambda "x" (join (ofName "fb:people.person.parent") (var "y"))

/-- **A chain that ends in another variable than that of its lambda** is no binary, but is turned round all the same and
not marked as reversed. So it loses that variable. -/
theorem freeVars_reverseBinary_not : ¬ ∀ f : Formula, (reverseBinary f).freeVars = f.freeVars := by
  intro h
  have hfree : "y" ∈ parentsOfOther.freeVars := mem_freeVars.mpr (by decide)
  have hlost : hasFree "y" (reverseBinary parentsOfOther) = false := rfl
  rw [← h parentsOfOther, mem_freeVars, hlost] at hfree
  cases hfree

end Parlance.Formula
