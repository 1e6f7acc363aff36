import Parlance.Proofs.Subformulas

/-!
# `Proofs.Renaming` — formulas that differ in bound names

A lambda binds its variable, and for inference so does a mark; the innermost binder of a name hides the others. To
rename a binder is to put another name in its place and in the place of all that it binds. If that name occurred nowhere
before, nothing else changes: each variable still belongs to the binder that it belonged to.

This is said by going down two formulas at a time, with the names of the binders on both sides in pairs. A name on one
side corresponds to a name on the other side if the same pair is the innermost one to have them, or if both are free.

## Contents
- **Names.** `varNames`, `rename`, and `RenamesBinder`: one binder renamed.
- **Correspondence.** `Corresponds` for names and `AlphaEq` for formulas.
- **Renamed formulas.** `renamable`, and so `RenamesBinder.alphaEq`.
-/

namespace Parlance

namespace Formula

variable {f g c d : Formula} {x y z : String} {pairs : List (String × String)} {cs ds : List Formula}

/-! ## Names -/

/-- The name of a variable, or of the variable that a binder binds. -/
def ownNames : Formula → List String
  | var x | lambda x _ | mark x _ => [x]
  | _ => []

/-- The names of all variables in a formula and of all its binders. -/
def varNames (f : Formula) : List String := f.subformulas.flatMap ownNames

/-- The variables that a formula binds in its subformulas. -/
def binders : Formula → List String
  | lambda x _ | mark x _ => [x]
  | _ => []

/-- Puts a name in the place of a variable, wherever no lambda and no mark binds that variable. -/
def rename (x y : String) : Formula → Formula
  | var z => var (if z = x then y else z)
  | f =>
    if x ∈ f.binders then f
    else f.withChildren (f.children.attach.map fun ⟨c, _⟩ => rename x y c)
termination_by f => sizeOf f
decreasing_by exact sizeOf_lt_of_mem_children ‹_›

/-- **One binder renamed**: somewhere in a formula a lambda or a mark gets another name for its variable, and with it
all that it binds. -/
inductive RenamesBinder (y : String) : Formula → Formula → Prop
  | lambda (x : String) (b : Formula) : RenamesBinder y (lambda x b) (lambda y (rename x y b))
  | mark (x : String) (b : Formula) : RenamesBinder y (mark x b) (mark y (rename x y b))
  | inside {f c d : Formula} {before after : List Formula} (hc : f.children = before ++ c :: after)
    (h : RenamesBinder y c d) : RenamesBinder y f (f.withChildren (before ++ d :: after))

/-! ### Kinds of formulas -/

/-- Whether a formula is neither a variable nor a binder. -/
def isPlain : Formula → Bool
  | var _ | lambda _ _ | mark _ _ => false
  | _ => true

theorem binders_of_isPlain (h : f.isPlain = true) : f.binders = [] := by
  cases f with
  | var | lambda | mark => cases h
  | _ => rfl

theorem isPlain_withChildren (cs : List Formula) : (f.withChildren cs).isPlain = f.isPlain := by
  unfold withChildren
  split <;> rfl

theorem name?_withChildren (cs : List Formula) : (f.withChildren cs).name? = f.name? := by
  unfold withChildren
  split <;> rfl

theorem plain?_withChildren (cs : List Formula) : (f.withChildren cs).plain? = f.plain? := by
  unfold withChildren
  split <;> rfl

/-- Induction over the immediate subformulas, with variables and both kinds of binders told apart. -/
@[elab_as_elim]
theorem binder_induction {motive : Formula → Prop} (var : ∀ x, motive (var x))
    (lambda : ∀ x b, motive b → motive (lambda x b)) (mark : ∀ x b, motive b → motive (mark x b))
    (plain : ∀ f, f.isPlain = true → (∀ c ∈ f.children, motive c) → motive f) (f : Formula) : motive f := by
  induction f using children_induction with
  | step f ih =>
    cases f with
    | var x => exact var x
    | lambda x b => exact lambda x b (ih b (by simp [children]))
    | mark x b => exact mark x b (ih b (by simp [children]))
    | _ => exact plain _ rfl ih

theorem mem_varNames : x ∈ f.varNames ↔ x ∈ f.ownNames ∨ ∃ c ∈ f.children, x ∈ c.varNames := by
  simp only [varNames, List.mem_flatMap]
  constructor
  · rintro ⟨g, hg, hx⟩
    rcases mem_subformulas.mp hg with rfl | ⟨c, hc, hg⟩
    · exact .inl hx
    · exact .inr ⟨c, hc, g, hg, hx⟩
  · rintro (hx | ⟨c, hc, g, hg, hx⟩)
    · exact ⟨f, mem_subformulas_self f, hx⟩
    · exact ⟨g, mem_subformulas.mpr (.inr ⟨c, hc, hg⟩), hx⟩

theorem mem_varNames_of_child (hc : c ∈ f.children) (hx : x ∈ c.varNames) : x ∈ f.varNames :=
  mem_varNames.mpr (.inr ⟨c, hc, hx⟩)

@[simp] theorem varNames_lambda (x : String) (b : Formula) : (lambda x b).varNames = x :: b.varNames := by
  rw [varNames, subformulas, visit]
  simp [children, ownNames, varNames, subformulas]

@[simp] theorem varNames_mark (x : String) (b : Formula) : (mark x b).varNames = x :: b.varNames := by
  rw [varNames, subformulas, visit]
  simp [children, ownNames, varNames, subformulas]

@[simp] theorem rename_var : rename x y (var z) = var (if z = x then y else z) := by
  rw [rename]

theorem rename_lambda (b : Formula) :
    rename x y (lambda z b) = lambda z (if x = z then b else rename x y b) := by
  rw [rename]
  · simp only [binders, List.mem_singleton, children, List.attach_cons, withChildren]
    split <;> rfl
  · simp

theorem rename_mark (b : Formula) :
    rename x y (mark z b) = mark z (if x = z then b else rename x y b) := by
  rw [rename]
  · simp only [binders, List.mem_singleton, children, List.attach_cons, withChildren]
    split <;> rfl
  · simp

/-- Any other formula is renamed part by part. -/
theorem rename_of_isPlain (h : f.isPlain = true) :
    rename x y f = f.withChildren (f.children.map (rename x y)) := by
  rw [rename]
  · simp [binders_of_isPlain h]
  · rintro z rfl
    cases h

/-! ## Correspondence -/

/-- Whether two names stand for the same variable below some binders, of which the pairs have the names on both sides,
the innermost first. -/
def Corresponds : List (String × String) → String → String → Prop
  | [], x, y => x = y
  | (a, b) :: pairs, x, y => a = x ∧ b = y ∨ a ≠ x ∧ b ≠ y ∧ Corresponds pairs x y

/-- The names that the innermost binders have. -/
theorem Corresponds.innermost (x y : String) : Corresponds ((x, y) :: pairs) x y := .inl ⟨rfl, rfl⟩

/-- **Formulas that differ in bound names only**, below binders with the names in `pairs`. -/
inductive AlphaEq : List (String × String) → Formula → Formula → Prop
  | var {pairs : List (String × String)} {x y : String} (h : Corresponds pairs x y) : AlphaEq pairs (var x) (var y)
  | lambda {pairs : List (String × String)} {x y : String} {b c : Formula} (h : AlphaEq ((x, y) :: pairs) b c) :
    AlphaEq pairs (lambda x b) (lambda y c)
  | mark {pairs : List (String × String)} {x y : String} {b c : Formula} (h : AlphaEq ((x, y) :: pairs) b c) :
    AlphaEq pairs (mark x b) (mark y c)
  | plain {pairs : List (String × String)} {f : Formula} {ds : List Formula} (hf : f.isPlain = true)
    (hlen : f.children.length = ds.length) (h : ∀ {c d}, (c, d) ∈ f.children.zip ds → AlphaEq pairs c d) :
    AlphaEq pairs f (f.withChildren ds)

/-- Formulas of one kind are equal up to names if their parts are. -/
theorem AlphaEq.of_forall₂ (hf : f.isPlain = true) (h : List.Forall₂ (AlphaEq pairs) f.children ds) :
    AlphaEq pairs f (f.withChildren ds) := by
  obtain ⟨hlen, h⟩ := List.forall₂_iff_zip.mp h
  exact .plain hf hlen h

theorem Corresponds.symm (h : Corresponds pairs x y) : Corresponds (pairs.map Prod.swap) y x := by
  induction pairs with
  | nil => exact Eq.symm h
  | cons p pairs ih =>
    rcases h with ⟨rfl, rfl⟩ | ⟨hx, hy, h⟩
    · exact .inl ⟨rfl, rfl⟩
    · exact .inr ⟨hy, hx, ih h⟩

/-- Equality up to names can be turned round, with the pairs swapped. -/
theorem AlphaEq.symm (h : AlphaEq pairs f g) : AlphaEq (pairs.map Prod.swap) g f := by
  induction h with
  | var h => exact .var h.symm
  | lambda _ ih => exact .lambda ih
  | mark _ ih => exact .mark ih
  | @plain pairs f ds hf hlen _ ih =>
    have hback : (f.withChildren ds).withChildren f.children = f := by
      rw [withChildren_withChildren hlen.symm rfl, withChildren_children]
    conv => arg 3; rw [← hback]
    apply AlphaEq.of_forall₂ ((isPlain_withChildren ds).trans hf)
    rw [children_withChildren hlen.symm]
    have hall := List.forall₂_iff_zip.mpr ⟨hlen, ih⟩
    exact hall.flip

theorem AlphaEq.name?_eq (h : AlphaEq pairs f g) : g.name? = f.name? := by
  cases h with
  | plain => exact name?_withChildren _
  | _ => rfl

theorem AlphaEq.plain?_eq (h : AlphaEq pairs f g) : g.plain? = f.plain? := by
  cases h with
  | plain => exact plain?_withChildren _
  | _ => rfl

/-! ## Renamed formulas -/

/-- A binder that has the same name on both sides. -/
theorem Corresponds.under (z : String) (h : x ≠ z → Corresponds pairs x x) : Corresponds ((z, z) :: pairs) x x := by
  by_cases hz : z = x
  · exact .inl ⟨hz, hz⟩
  · exact .inr ⟨hz, hz, h (Ne.symm hz)⟩

/-- A formula is the same as itself where its names stand for the same variables. -/
theorem AlphaEq.refl (f : Formula) (h : ∀ z ∈ f.varNames, Corresponds pairs z z) : AlphaEq pairs f f := by
  induction f using binder_induction generalizing pairs with
  | var x => exact .var (h x (mem_varNames.mpr (.inl (by simp [ownNames]))))
  | lambda x b ih =>
    exact .lambda (ih fun z hz => .under x fun _ => h z (mem_varNames_of_child (by simp [children]) hz))
  | mark x b ih =>
    exact .mark (ih fun z hz => .under x fun _ => h z (mem_varNames_of_child (by simp [children]) hz))
  | plain f hf ih =>
    have hall : List.Forall₂ (AlphaEq pairs) f.children f.children :=
      List.forall₂_same.mpr fun c hc => ih c hc fun z hz => h z (mem_varNames_of_child hc hz)
    simpa using AlphaEq.of_forall₂ hf hall

/-- Whether a formula that has a variable renamed is the same as before where that variable corresponds to its new
name. -/
def Renamable (x y : String) (f : Formula) : Prop :=
  ∀ {pairs}, Corresponds pairs x y → y ∉ f.varNames → (∀ z ∈ f.varNames, z ≠ x → Corresponds pairs z z) →
    AlphaEq pairs f (rename x y f)

/-- Below a binder of the old name nothing is renamed. -/
theorem Renamable.under {b : Formula} (hb : Renamable x y b) (hxy : Corresponds pairs x y) (hyz : y ≠ z)
    (hfresh : y ∉ b.varNames) (h : ∀ w ∈ b.varNames, w ≠ x → Corresponds pairs w w) :
    AlphaEq ((z, z) :: pairs) b (if x = z then b else rename x y b) := by
  split
  case isTrue heq =>
    subst heq
    exact .refl b fun w hw => .under x (h w hw)
  case isFalse hne =>
    exact hb (.inr ⟨Ne.symm hne, Ne.symm hyz, hxy⟩) hfresh fun w hw hwx => .under z fun _ => h w hw hwx

/-- **Every formula is renamable**, whatever its variables correspond to already. -/
theorem renamable (x y : String) (f : Formula) : Renamable x y f := by
  induction f using binder_induction with
  | var z =>
    intro pairs hxy hfresh h
    rw [rename_var]
    split
    case isTrue heq => exact .var (heq ▸ hxy)
    case isFalse hne => exact .var (h z (mem_varNames.mpr (.inl (by simp [ownNames]))) hne)
  | lambda z b ih =>
    intro pairs hxy hfresh h
    simp only [varNames_lambda, List.mem_cons, not_or] at hfresh h
    rw [rename_lambda]
    exact .lambda (ih.under hxy hfresh.1 hfresh.2 fun w hw => h w (.inr hw))
  | mark z b ih =>
    intro pairs hxy hfresh h
    simp only [varNames_mark, List.mem_cons, not_or] at hfresh h
    rw [rename_mark]
    exact .mark (ih.under hxy hfresh.1 hfresh.2 fun w hw => h w (.inr hw))
  | plain f hf ih =>
    intro pairs hxy hfresh h
    rw [rename_of_isPlain hf]
    apply AlphaEq.of_forall₂ hf
    rw [List.forall₂_map_right_iff, List.forall₂_same]
    intro c hc
    have hchild : ∀ {z}, z ∈ c.varNames → z ∈ f.varNames := mem_varNames_of_child hc
    exact ih c hc hxy (fun hy => hfresh (hchild hy)) fun z hz => h z (hchild hz)

/-- What a binder binds, renamed to a name that does not occur. -/
theorem AlphaEq.renamed (x : String) (hfresh : y ∉ f.varNames) (h : ∀ z ∈ f.varNames, Corresponds pairs z z) :
    AlphaEq ((x, y) :: pairs) f (rename x y f) := by
  refine renamable x y f (.innermost x y) hfresh fun z hz hzx => .inr ⟨Ne.symm hzx, ?_, h z hz⟩
  rintro rfl
  exact hfresh hz

/-- **One binder renamed** to a name that does not occur gives a formula that differs in bound names only. -/
theorem RenamesBinder.alphaEq (hr : RenamesBinder y f g) (hfresh : y ∉ f.varNames)
    (h : ∀ z ∈ f.varNames, Corresponds pairs z z) : AlphaEq pairs f g := by
  induction hr generalizing pairs with
  | lambda x b =>
    simp only [varNames_lambda, List.mem_cons, not_or] at hfresh h
    exact .lambda (.renamed x hfresh.2 fun z hz => h z (.inr hz))
  | mark x b =>
    simp only [varNames_mark, List.mem_cons, not_or] at hfresh h
    exact .mark (.renamed x hfresh.2 fun z hz => h z (.inr hz))
  | @inside f c d before after hc _ ih =>
    have hchild : ∀ e ∈ before ++ c :: after, ∀ z ∈ e.varNames, z ∈ f.varNames :=
      fun e he z => mem_varNames_of_child (hc ▸ he)
    have hnames : ∀ z ∈ c.varNames, z ∈ f.varNames := hchild c (by simp)
    have hd : ∀ {pairs}, (∀ z ∈ c.varNames, Corresponds pairs z z) → AlphaEq pairs c d :=
      ih fun hy => hfresh (hnames y hy)
    have honly : ∀ {b}, [b] = before ++ c :: after → before = [] ∧ c = b ∧ after = [] := by
      intro b hb
      cases before <;> simp_all
    cases f with
    | var x => simp [children] at hc
    | lambda x b =>
      obtain ⟨rfl, rfl, rfl⟩ := honly hc
      exact .lambda (hd fun z hz => .under x fun _ => h z (hnames z hz))
    | mark x b =>
      obtain ⟨rfl, rfl, rfl⟩ := honly hc
      exact .mark (hd fun z hz => .under x fun _ => h z (hnames z hz))
    | _ =>
      apply AlphaEq.of_forall₂ rfl
      rw [hc]
      have hsame : ∀ es ⊆ before ++ c :: after, List.Forall₂ (AlphaEq pairs) es es := fun es hes =>
        List.forall₂_same.mpr fun e he => .refl e fun z hz => h z (hchild e (hes he) z hz)
      have hafter : after ⊆ before ++ c :: after := fun e he => by simp [he]
      exact List.rel_append (hsame before (by simp)) (.cons (hd fun z hz => h z (hnames z hz)) (hsame after hafter))

end Formula

end Parlance
