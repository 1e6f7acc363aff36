import Parlance.Learning.ExpectedCounts
import Parlance.Proofs.Fold
import Parlance.Proofs.Softmax

/-!
# `Proofs.Gradient` — which way learning goes

Each prediction counts with the difference of its shares in two distributions, one over the correct predictions and one
over all of them, or over the wrong ones. The counts of features are sums of these, since the features of a tree times a
number add that multiple of their values to a table.

So a feature counts no more than zero if only wrong predictions have it, and nothing if all have the same of it. If only
correct predictions have it, it counts no less than zero as long as their shares do not shrink by taking the others in.
Each distribution is worked out from its own largest score. Where a wrong prediction has the best score of all, the two
compare only by an exponential that turns sums into products.

## Contents
- **Values of features.** `Scales`, and `Arena.valueAt_weightedFeatures`.
- **What is compared.** `Arena.Compares`, for scores, for their absence and for single predictions.
- **What predictions count.** `Arena.terms` and their signs, and `Arena.exists_of_expectedCounts`.
- **Features.** `Arena.expectedCounts_pointsTowards`.
- **Two arenas.** One in which they do, and one in which they do not, for an exponential that is steep.
-/

namespace Parlance

/-! ## Values of features -/

/-- The value of a feature, zero if it is not there. -/
def Features.valueAt {α : Type} [Score α] (v : Features α) (key : String) : α := (v.get? key).getD Score.zero

theorem Features.valueAt_addKey_self {α : Type} [Score α] (v : Features α) (key : String) (x : α) :
    (v.addKey key x).valueAt key = v.valueAt key + x := by
  unfold valueAt addKey
  rw [Table.get?_update_self]
  rfl

theorem Features.valueAt_addKey_of_ne {α : Type} [Score α] (v : Features α) {key other : String} (h : other ≠ key)
    (x : α) : (v.addKey key x).valueAt other = v.valueAt other := by
  unfold valueAt addKey
  rw [Table.get?_update_of_ne _ h]

/-- The total value of a feature in the tree of a derivation. -/
def Arena.total {α : Type} [Score α] (arena : Arena α) (key : String) (i : Nat) : α :=
  Features.valueAt (arena.treeFeatures i) key

section Field

open FieldScore

variable {K : Type} [Field K] [LinearOrder K] {E : Exponential K} {key : String} {c : K}

/-- **A change of features and the same change times a number**: where the first one comes to a number, so did the value
before, and the second one adds that multiple of the difference. -/
def Scales (key : String) (c : K) (f g : Features (FieldScore E) → Features (FieldScore E)) : Prop :=
  ∀ u x, (f u).valueAt key = of x → ∃ x₀, u.valueAt key = of x₀ ∧
    ∀ w y, w.valueAt key = of y → (g w).valueAt key = of (y + c * (x - x₀))

variable {f g f' g' : Features (FieldScore E) → Features (FieldScore E)}

theorem scales_id : Scales (E := E) key c id id := by
  intro u x hx
  exact ⟨x, hx, fun w y hy => by simpa using hy⟩

theorem Scales.comp (h : Scales key c f g) (h' : Scales key c f' g') : Scales key c (f' ∘ f) (g' ∘ g) := by
  intro u x hx
  obtain ⟨x₁, hx₁, hg'⟩ := h' (f u) x hx
  obtain ⟨x₀, hx₀, hg⟩ := h u x₁ hx₁
  refine ⟨x₀, hx₀, fun w y hy => ?_⟩
  have hboth : y + c * (x₁ - x₀) + c * (x - x₁) = y + c * (x - x₀) := by ring
  rw [← hboth]
  exact hg' (g w) _ (hg w y hy)

theorem scales_addKey (name : String) (value : FieldScore E) :
    Scales key c (fun u => u.addKey name (Score.one * value)) fun w => w.addKey name (of c * value) := by
  intro u x hx
  by_cases hname : key = name
  · subst hname
    rw [Features.valueAt_addKey_self] at hx
    obtain ⟨x₀, d, hx₀, hd, rfl⟩ := add_eq_of hx
    rw [one_eq] at hd
    obtain ⟨one, z, hone, rfl, rfl⟩ := mul_eq_of hd
    obtain rfl := FieldScore.of.inj hone
    refine ⟨x₀, hx₀, fun w y hy => ?_⟩
    rw [Features.valueAt_addKey_self, hy, of_mul, of_add, one_mul, add_sub_cancel_left]
  · rw [Features.valueAt_addKey_of_ne _ hname] at hx
    refine ⟨x, hx, fun w y hy => ?_⟩
    rw [Features.valueAt_addKey_of_ne _ hname, hy, sub_self, mul_zero, add_zero]

theorem scales_foldl {β : Type} {f g : Features (FieldScore E) → β → Features (FieldScore E)} {l : List β}
    (h : ∀ b ∈ l, Scales key c (fun u => f u b) fun w => g w b) :
    Scales key c (fun u => l.foldl f u) fun w => l.foldl g w := by
  induction l with
  | nil => exact scales_id
  | cons b l ih =>
    have hfirst := h b List.mem_cons_self
    exact hfirst.comp (ih fun b' hb' => h b' (List.mem_cons_of_mem _ hb'))

theorem scales_addScaled (v : Features (FieldScore E)) :
    Scales key c (fun u => u.addScaled Score.one v) fun w => w.addScaled (of c) v :=
  scales_foldl fun entry _ => scales_addKey entry.1 entry.2

namespace Arena

variable {arena : Arena (FieldScore E)}

/-- **Adding the features of a tree.** -/
theorem scales_addTreeFeatures (arena : Arena (FieldScore E)) (i : Nat) :
    Scales key c (arena.addTreeFeatures Score.one i) (arena.addTreeFeatures (of c) i) := by
  induction i using Nat.strongRecOn with
  | ind i ih =>
    have hall : ∀ l : List Nat,
        Scales key c (arena.addTreeFeaturesOfAll Score.one i l) (arena.addTreeFeaturesOfAll (of c) i l) := by
      intro l
      induction l with
      | nil =>
        have hnil : ∀ factor : FieldScore E, arena.addTreeFeaturesOfAll factor i [] = id := fun factor =>
          funext fun u => by rw [addTreeFeaturesOfAll, id]
        rw [hnil, hnil]
        exact scales_id
      | cons j l ihl =>
        by_cases hj : j < i
        · have hcons : ∀ factor : FieldScore E, arena.addTreeFeaturesOfAll factor i (j :: l) =
              arena.addTreeFeaturesOfAll factor i l ∘ arena.addTreeFeatures factor j := fun factor =>
            funext fun u => by rw [addTreeFeaturesOfAll, if_pos hj, Function.comp_apply]
          rw [hcons, hcons]
          exact (ih j hj).comp ihl
        · have hcons : ∀ factor : FieldScore E, arena.addTreeFeaturesOfAll factor i (j :: l) =
              arena.addTreeFeaturesOfAll factor i l := fun factor =>
            funext fun u => by rw [addTreeFeaturesOfAll, if_neg hj]
          rw [hcons, hcons]
          exact ihl
    have htree : ∀ factor : FieldScore E, arena.addTreeFeatures factor i =
        arena.addTreeFeaturesOfAll factor i (arena.get i).children ∘
          fun u => Features.addScaled u factor (arena.get i).features := fun factor =>
      funext fun u => by rw [addTreeFeatures, Function.comp_apply]
    rw [htree, htree]
    exact (scales_addScaled _).comp (hall _)

/-- The features of a tree times a number. -/
theorem valueAt_addTreeFeatures {i : Nat} {x y : K} (htotal : arena.total key i = of x) (w : Features (FieldScore E))
    (hw : w.valueAt key = of y) : Features.valueAt (arena.addTreeFeatures (of c) i w) key = of (y + c * x) := by
  obtain ⟨x₀, hx₀, hadd⟩ := arena.scales_addTreeFeatures i Table.empty x htotal
  have hempty : Features.valueAt (Table.empty : Features (FieldScore E)) key = of 0 := zero_eq
  obtain rfl := FieldScore.of.inj (hempty.symm.trans hx₀)
  have hresult := hadd w y hw
  rwa [sub_zero] at hresult

/-- A factor of zero adds nothing, whether its tree is looked at or not. -/
theorem valueAt_weighted {i : Nat} {d x y : K} (htotal : arena.total key i = of x) (w : Features (FieldScore E))
    (hw : w.valueAt key = of y) :
    Features.valueAt (if Score.eq (of d : FieldScore E) Score.zero then w else arena.addTreeFeatures (of d) i w) key =
      of (y + d * x) := by
  by_cases hd : d = 0
  · subst hd
    have hzero : Score.eq (of 0 : FieldScore E) Score.zero = true := by simp [Score.eq, compares]
    rw [if_pos hzero, hw, zero_mul, add_zero]
  · have hnonzero : ¬ Score.eq (of d : FieldScore E) Score.zero = true := by simp [Score.eq, compares, hd]
    rw [if_neg hnonzero]
    exact valueAt_addTreeFeatures htotal w hw

/-- **What the features of a list of trees sum up to.** -/
theorem valueAt_weightedFeatures {terms : List (Nat × K)} {x : Nat → K}
    (h : ∀ term ∈ terms, arena.total key term.1 = of (x term.1)) :
    Features.valueAt (arena.weightedFeatures (terms.map fun term => (term.1, of term.2))) key =
      of (terms.map fun term => term.2 * x term.1).sum := by
  have hfold : ∀ (counts : Features (FieldScore E)) (y : K), counts.valueAt key = of y →
      Features.valueAt ((terms.map fun term => (term.1, (of term.2 : FieldScore E))).foldl (fun counts (i, factor) =>
        if Score.eq factor Score.zero then counts else arena.addTreeFeatures factor i counts) counts) key =
        of (y + (terms.map fun term => term.2 * x term.1).sum) := by
    induction terms with
    | nil =>
      intro counts y hy
      simpa using hy
    | cons term terms ih =>
      intro counts y hy
      rw [List.map_cons, List.map_cons, List.foldl_cons, List.sum_cons, ← add_assoc]
      refine ih (fun term hterm => h term (List.mem_cons_of_mem _ hterm)) _ _ ?_
      exact valueAt_weighted (h term List.mem_cons_self) counts hy
  have hresult := hfold Table.empty 0 zero_eq
  rwa [zero_add] at hresult

end Arena

/-! ## What is compared -/

namespace Arena

variable {arena : Arena (FieldScore E)} {predictions : List Nat} {a b : List (FieldScore E)}

/-- **The logarithms that are compared**: there is one of each kind for every prediction, and what is not correct has no
weight among the correct ones. -/
structure Compares (arena : Arena (FieldScore E)) (predictions : List Nat) (a b : List (FieldScore E)) : Prop where
  length_left : a.length = predictions.length
  length_right : b.length = predictions.length
  defined_left : ∀ w ∈ a, w ≠ undefined
  defined_right : ∀ w ∈ b, w ≠ undefined
  wrong : ∀ (k i : Nat), predictions[k]? = some i → arena.isCorrect i = false → a[k]? = some lowest

/-- The logarithms of some numbers, of those that belong to correct predictions only. -/
def restricted (arena : Arena (FieldScore E)) (y : Nat → K) (i : Nat) : FieldScore E :=
  if arena.isCorrect i then of (y i) else lowest

theorem eq_of_restricted {y : Nat → K} {i : Nat} {x : K} (h : arena.restricted y i = of x) : y i = x := by
  unfold restricted at h
  split at h
  · exact FieldScore.of.inj h
  · cases h

theorem compares_restricted (arena : Arena (FieldScore E)) (predictions : List Nat) (y : Nat → K) :
    arena.Compares predictions (predictions.map (arena.restricted y)) (predictions.map fun i => of (y i)) where
  length_left := List.length_map _
  length_right := List.length_map _
  defined_left w hw := by
    obtain ⟨i, -, rfl⟩ := List.mem_map.mp hw
    unfold restricted
    split
    · exact of_ne_undefined _
    · exact lowest_ne_undefined
  defined_right w hw := by
    obtain ⟨i, -, rfl⟩ := List.mem_map.mp hw
    exact of_ne_undefined _
  wrong k i hk hi := by
    rw [List.getElem?_map, hk]
    exact congrArg some (if_neg (by simp [hi]))

/-- The best of some predictions is one of them. -/
theorem isCorrect_of_bestOf {correct : Bool} {place : Nat} (h : arena.bestOf? correct predictions = some place) :
    ∃ i, predictions[place]? = some i ∧ arena.isCorrect i = correct := by
  unfold bestOf? at h
  obtain ⟨⟨i, place⟩, hbest, rfl⟩ := Option.map_eq_some_iff.mp h
  have hmem : (i, place) ∈ predictions.zipIdx.filter fun x => arena.isCorrect x.1 == correct := by
    refine foldl_induct (P := fun seen best => ∀ x, best = some x → x ∈ seen) _ none (by simp) ?_ _ hbest
    intro seen x rest best _ hseen y hy
    obtain ⟨j, here⟩ := x
    have hcases : best = some y ∨ y = (j, here) := by
      cases best with
      | none => exact .inr (Option.some.inj hy).symm
      | some first =>
        dsimp only at hy
        split at hy
        · exact .inr (Option.some.inj hy).symm
        · exact .inl hy
    rcases hcases with hbest | rfl
    · exact List.mem_append_left _ (hseen y hbest)
    · exact List.mem_append_right _ List.mem_cons_self
  obtain ⟨hplace, hcorrect⟩ := List.mem_filter.mp hmem
  exact ⟨i, List.mk_mem_zipIdx_iff_getElem?.mp hplace, eq_of_beq hcorrect⟩

/-- All the mass is at one place. -/
theorem getElem_oneHot {count k : Nat} (h : k < count) (place : Nat) :
    (oneHot count place : List (FieldScore E))[k]? = some (if k = place then of 0 else lowest) := by
  rw [oneHot, List.getElem?_map, List.getElem?_range h, Option.map_some, zero_eq]
  rfl

theorem ne_undefined_of_mem_oneHot {count place : Nat} {w : FieldScore E} (h : w ∈ oneHot count place) :
    w ≠ undefined := by
  obtain ⟨k, -, rfl⟩ := List.mem_map.mp h
  rw [zero_eq]
  split
  · exact of_ne_undefined _
  · exact lowest_ne_undefined

/-- The place of the best of some predictions is not that of any of the others. -/
theorem oneHot_eq_lowest {correct : Bool} {place k i : Nat} (hbest : arena.bestOf? correct predictions = some place)
    (hk : predictions[k]? = some i) (hi : arena.isCorrect i ≠ correct) :
    (oneHot predictions.length place : List (FieldScore E))[k]? = some lowest := by
  obtain ⟨hlt, -⟩ := List.getElem?_eq_some_iff.mp hk
  obtain ⟨j, hj, hcorrect⟩ := isCorrect_of_bestOf hbest
  have hne : k ≠ place := by
    rintro rfl
    obtain rfl := Option.some.inj (hk.symm.trans hj)
    exact hi hcorrect
  rw [getElem_oneHot hlt, if_neg hne]

theorem compares_oneHot {good : Nat} (hgood : arena.bestOf? true predictions = some good) (bad : Nat) :
    arena.Compares predictions (oneHot predictions.length good) (oneHot predictions.length bad) where
  length_left := by simp [oneHot]
  length_right := by simp [oneHot]
  defined_left _ := ne_undefined_of_mem_oneHot
  defined_right _ := ne_undefined_of_mem_oneHot
  wrong _ _ hk hi := oneHot_eq_lowest hgood hk (by simp [hi])

/-- What the best correct prediction and the best wrong one are compared by. -/
theorem exists_of_logWeights_top {margin : FieldScore E}
    (h : arena.logWeights? predictions .top margin = some (a, b)) :
    ∃ good bad, arena.bestOf? true predictions = some good ∧ arena.bestOf? false predictions = some bad ∧
      a = oneHot predictions.length good ∧ b = oneHot predictions.length bad := by
  unfold logWeights? at h
  simp only [Option.bind_eq_bind, Option.bind_eq_some_iff] at h
  obtain ⟨good, hgood, bad, hbad, h⟩ := h
  split at h
  · cases h
  · obtain ⟨rfl, rfl⟩ := Prod.mk.inj (Option.some.inj h)
    exact ⟨good, bad, hgood, hbad, rfl, rfl⟩

/-- Nothing is counted unless something is compared. -/
theorem exists_logWeights {mode : CountMode} {margin : FieldScore E} {counts : Features (FieldScore E)}
    (h : arena.expectedCounts? predictions mode margin = some counts) :
    ∃ a b, arena.logWeights? predictions mode margin = some (a, b) := by
  unfold expectedCounts? at h
  cases hlogs : arena.logWeights? predictions mode margin with
  | none =>
    rw [hlogs] at h
    split at h <;> cases h
  | some logs => exact ⟨logs.1, logs.2, rfl⟩

section Logarithms

variable [IsStrictOrderedRing K]

theorem ln_reward (arena : Arena (FieldScore E)) (i : Nat) :
    Score.ln (arena.reward i) = if arena.isCorrect i then of 0 else lowest := by
  unfold reward Score.ofBool
  cases arena.isCorrect i with
  | true => exact (congrArg Score.ln one_eq).trans ln_one
  | false => exact (congrArg Score.ln zero_eq).trans ln_zero

/-- Scores are compared with those of the correct predictions. -/
theorem logWeights_standard {y : Nat → K} (hy : ∀ i ∈ predictions, arena.score i = of (y i)) (margin : FieldScore E) :
    arena.logWeights? predictions .standard margin =
      some (predictions.map (arena.restricted y), predictions.map fun i => of (y i)) := by
  have hleft : (predictions.map fun i => arena.score i + Score.ln (arena.reward i)) =
      predictions.map (arena.restricted y) := by
    refine List.map_congr_left fun i hi => ?_
    rw [hy i hi, ln_reward, restricted]
    split
    · rw [of_add, add_zero]
    · rfl
  have hright : predictions.map arena.score = predictions.map fun i => of (y i) := List.map_congr_left hy
  exact congrArg some (Prod.ext hleft hright)

/-- All scores count as zero. -/
theorem logWeights_uniform (arena : Arena (FieldScore E)) (predictions : List Nat) (margin : FieldScore E) :
    arena.logWeights? predictions .uniform margin =
      some (predictions.map (arena.restricted fun _ => 0), predictions.map fun _ => of 0) := by
  have hleft : (predictions.map fun i => Score.ln (arena.reward i)) =
      predictions.map (arena.restricted fun _ => 0) := List.map_congr_left fun i _ => arena.ln_reward i
  have hright : (predictions.map fun _ => (Score.zero : FieldScore E)) = predictions.map fun _ => of 0 :=
    List.map_congr_left fun _ _ => zero_eq
  exact congrArg some (Prod.ext hleft hright)

end Logarithms

/-! ## What predictions count -/

omit [LinearOrder K] in
theorem sum_zipWith_sub {p q : List K} (h : p.length = q.length) :
    (List.zipWith (· - ·) p q).sum = p.sum - q.sum := by
  induction p generalizing q with
  | nil =>
    obtain rfl := List.length_eq_zero_iff.mp h.symm
    simp
  | cons x p ih =>
    cases q with
    | nil => cases h
    | cons y q =>
      rw [List.zipWith_cons_cons, List.sum_cons, List.sum_cons, List.sum_cons, ih (Nat.succ.inj h)]
      ring

/-- What the predictions count, as the difference of their shares. -/
def terms (predictions : List Nat) (m n : K) (a b : List (FieldScore E)) : List (Nat × K) :=
  predictions.zip (List.zipWith (· - ·) (shares m a) (shares n b))

theorem mem_terms {m n : K} {i : Nat} {d : K} (h : (i, d) ∈ terms predictions m n a b) :
    ∃ (k : Nat) (w w' : FieldScore E), predictions[k]? = some i ∧ a[k]? = some w ∧ b[k]? = some w' ∧
      d = mass m w / (a.map (mass m)).sum - mass n w' / (b.map (mass n)).sum := by
  obtain ⟨k, hk⟩ := List.mem_iff_getElem?.mp h
  obtain ⟨hi, hd⟩ := List.getElem?_zip_eq_some.mp hk
  obtain ⟨p, q, hp, hq, rfl⟩ := List.getElem?_zipWith_eq_some.mp hd
  rw [shares, List.getElem?_map] at hp hq
  obtain ⟨w, hw, rfl⟩ := Option.map_eq_some_iff.mp hp
  obtain ⟨w', hw', rfl⟩ := Option.map_eq_some_iff.mp hq
  exact ⟨k, w, w', hi, hw, hw', rfl⟩

section Ordered

variable {m n : K}

theorem Compares.sum_terms (h : arena.Compares predictions a b) (hm : 0 < (a.map (mass m)).sum)
    (hn : 0 < (b.map (mass n)).sum) : ((terms predictions m n a b).map Prod.snd).sum = 0 := by
  have hleft : (shares m a).length = predictions.length := by rw [shares, List.length_map, h.length_left]
  have hright : (shares n b).length = predictions.length := by rw [shares, List.length_map, h.length_right]
  have hlength : (List.zipWith (· - ·) (shares m a) (shares n b)).length ≤ predictions.length := by
    rw [List.length_zipWith, hleft, hright, min_self]
  rw [terms, List.map_snd_zip hlength, sum_zipWith_sub (hleft.trans hright.symm), sum_shares hm, sum_shares hn,
    sub_self]

variable [IsStrictOrderedRing K]

/-- What is not correct counts no more than zero. -/
theorem Compares.terms_wrong (h : arena.Compares predictions a b) (hn : 0 < (b.map (mass n)).sum) {i : Nat} {d : K}
    (hd : (i, d) ∈ terms predictions m n a b) (hi : arena.isCorrect i = false) : d ≤ 0 := by
  obtain ⟨k, w, w', hk, hw, -, rfl⟩ := mem_terms hd
  obtain rfl := Option.some.inj (hw.symm.trans (h.wrong k i hk hi))
  have hshare : 0 ≤ mass n w' / (b.map (mass n)).sum := div_nonneg (mass_nonneg n w') (le_of_lt hn)
  show 0 / _ - _ ≤ 0
  rw [zero_div, zero_sub]
  exact neg_nonpos.mpr hshare

/-- **A correct prediction counts no less than zero**, if what has been taken off makes the same difference for all. -/
theorem terms_restricted {y : Nat → K} {k : K} (hk : 0 < k) (hfactor : ∀ x, E.exp (x - m) = k * E.exp (x - n))
    (hm : 0 < ((predictions.map (arena.restricted y)).map (mass m)).sum)
    (hn : 0 < ((predictions.map fun i => (of (y i) : FieldScore E)).map (mass n)).sum) {i : Nat} {d : K}
    (hd : (i, d) ∈ terms predictions m n (predictions.map (arena.restricted y)) (predictions.map fun i => of (y i)))
    (hi : arena.isCorrect i = true) : 0 ≤ d := by
  obtain ⟨j, w, w', hj, hw, hw', rfl⟩ := mem_terms hd
  rw [List.getElem?_map, hj] at hw hw'
  obtain rfl := Option.some.inj hw
  obtain rfl := Option.some.inj hw'
  have hself : mass m (arena.restricted y i) = k * mass n (of (y i) : FieldScore E) := by
    rw [restricted, if_pos hi]
    exact hfactor _
  have hall : ∀ j, mass m (arena.restricted y j) ≤ k * mass n (of (y j) : FieldScore E) := by
    intro j
    unfold restricted
    split
    · exact le_of_eq (hfactor _)
    · exact mul_nonneg (le_of_lt hk) (mass_nonneg n _)
  rw [List.map_map] at hm hn
  rw [List.map_map, List.map_map]
  have htotal : (predictions.map (mass m ∘ arena.restricted y)).sum ≤
      k * (predictions.map (mass n ∘ fun i => (of (y i) : FieldScore E))).sum := by
    rw [← List.sum_map_mul_left]
    exact List.sum_le_sum fun j _ => hall j
  have hnonneg : 0 ≤ mass n (of (y i) : FieldScore E) := mass_nonneg n _
  refine sub_nonneg.mpr ?_
  rw [hself, div_le_div_iff₀ hn hm]
  calc mass n (of (y i) : FieldScore E) * (predictions.map (mass m ∘ arena.restricted y)).sum
      ≤ mass n (of (y i) : FieldScore E) *
          (k * (predictions.map (mass n ∘ fun i => (of (y i) : FieldScore E))).sum) :=
        mul_le_mul_of_nonneg_left htotal hnonneg
    _ = _ := by ring

/-- Whether a correct prediction has the best score of all. -/
def BestIsCorrect (arena : Arena (FieldScore E)) (predictions : List Nat) : Prop :=
  ∃ i ∈ predictions, arena.isCorrect i = true ∧ ∀ j ∈ predictions, Score.lt (arena.score i) (arena.score j) = false

/-- **Taking off the one maximum or the other makes the same difference to all masses**, if the exponential turns sums
into products, and also if a correct prediction has the best score of all. -/
theorem exists_factor {y : Nat → K} (hy : ∀ i ∈ predictions, arena.score i = of (y i))
    (hm : Score.maximum (predictions.map (arena.restricted y)) = of m)
    (hn : Score.maximum (predictions.map fun i => (of (y i) : FieldScore E)) = of n)
    (h : E.IsMultiplicative ∨ arena.BestIsCorrect predictions) :
    ∃ k, 0 < k ∧ ∀ x, E.exp (x - m) = k * E.exp (x - n) := by
  rcases h with hmul | ⟨i, hi, hcorrect, hbest⟩
  · refine ⟨E.exp (n - m), E.exp_pos _, fun x => ?_⟩
    rw [← hmul, add_comm, sub_add_sub_cancel]
  · -- both maxima are the score of that prediction
    obtain ⟨hmemLeft, hleft⟩ := maximum_spec hm
    obtain ⟨hmemRight, hright⟩ := maximum_spec hn
    have hmn : m ≤ n := by
      obtain ⟨j, hj, hjm⟩ := List.mem_map.mp hmemLeft
      exact hright m (List.mem_map.mpr ⟨j, hj, congrArg of (eq_of_restricted hjm)⟩)
    have hnm : n ≤ m := by
      obtain ⟨j, hj, hjn⟩ := List.mem_map.mp hmemRight
      obtain rfl := FieldScore.of.inj hjn
      have hnot := hbest j hj
      rw [hy i hi, hy j hj] at hnot
      have hji : y j ≤ y i := not_lt.mp (of_decide_eq_false hnot)
      have hself : arena.restricted y i = of (y i) := if_pos hcorrect
      exact hji.trans (hleft (y i) (List.mem_map.mpr ⟨i, hi, hself⟩))
    obtain rfl := le_antisymm hmn hnm
    exact ⟨1, one_pos, fun x => (one_mul _).symm⟩

/-- What is correct counts no less than zero where one wrong prediction has all the mass. -/
theorem terms_oneHot {bad : Nat} (hbad : arena.bestOf? false predictions = some bad) (hm : 0 < (a.map (mass m)).sum)
    {i : Nat} {d : K} (hd : (i, d) ∈ terms predictions m n a (oneHot predictions.length bad))
    (hi : arena.isCorrect i = true) : 0 ≤ d := by
  obtain ⟨k, w, w', hk, -, hw', rfl⟩ := mem_terms hd
  have hlowest := oneHot_eq_lowest hbad hk (by simp [hi])
  obtain rfl := Option.some.inj (hw'.symm.trans hlowest)
  have hshare : 0 ≤ mass m w / (a.map (mass m)).sum := div_nonneg (mass_nonneg m w) (le_of_lt hm)
  show 0 ≤ _ - 0 / _
  rwa [zero_div, sub_zero]

/-- **What is counted**, if anything is: the shares, from the largest logarithms. -/
theorem exists_of_expectedCounts {mode : CountMode} {margin : FieldScore E} {counts : Features (FieldScore E)}
    (hlogs : arena.logWeights? predictions mode margin = some (a, b)) (hab : arena.Compares predictions a b)
    (h : arena.expectedCounts? predictions mode margin = some counts) :
    ∃ m n, Score.maximum a = of m ∧ Score.maximum b = of n ∧ 0 < (a.map (mass m)).sum ∧ 0 < (b.map (mass n)).sum ∧
      counts = arena.weightedFeatures ((terms predictions m n a b).map fun term => (term.1, of term.2)) := by
  unfold expectedCounts? at h
  cases hempty : predictions.isEmpty with
  | true => simp [hempty] at h
  | false =>
    simp only [hempty, hlogs, Bool.false_eq_true, if_false, Option.bind_eq_bind, Option.bind_some,
      Option.bind_eq_some_iff] at h
    obtain ⟨p, hp, q, hq, hcounts⟩ := h
    obtain ⟨m, hm, hmass, rfl⟩ := exists_of_normalize hab.defined_left hp
    obtain ⟨n, hn, hmass', rfl⟩ := exists_of_normalize hab.defined_right hq
    refine ⟨m, n, hm, hn, hmass, hmass', ?_⟩
    have hdifference : List.zipWith (· - ·) ((shares m a).map of) ((shares n b).map (of : K → FieldScore E)) =
        (List.zipWith (· - ·) (shares m a) (shares n b)).map of := by
      rw [List.zipWith_map, List.map_zipWith]
      rfl
    rw [← Option.some.inj hcounts, hdifference, List.zip_map_right]
    rfl

/-! ## Features -/

/-- Whether a feature has values that are not below zero, and is there in the trees of correct predictions only, or of
the others only. -/
def OnlyIn (arena : Arena (FieldScore E)) (predictions : List Nat) (correct : Bool) (key : String) : Prop :=
  ∀ i ∈ predictions, (∃ x, 0 ≤ x ∧ arena.total key i = of x) ∧
    (arena.isCorrect i ≠ correct → arena.total key i = of 0)

omit [IsStrictOrderedRing K] in
theorem OnlyIn.exists_values {correct : Bool} (h : arena.OnlyIn predictions correct key) :
    ∃ x : Nat → K, ∀ i ∈ predictions, arena.total key i = of (x i) ∧ 0 ≤ x i ∧
      (arena.isCorrect i ≠ correct → x i = 0) := by
  refine ⟨fun i => (arena.total key i).value, fun i hi => ?_⟩
  obtain ⟨⟨x, hx, htotal⟩, hother⟩ := h i hi
  dsimp only
  rw [htotal] at hother ⊢
  exact ⟨rfl, hx, fun hne => FieldScore.of.inj (hother hne)⟩

omit [IsStrictOrderedRing K] in
/-- What a feature that is in the trees of some predictions only comes to, if they are counted: a sum to which the others
add nothing. -/
theorem OnlyIn.exists_sum {correct : Bool} (h : arena.OnlyIn predictions correct key) {terms : List (Nat × K)}
    (hmem : ∀ term ∈ terms, term.1 ∈ predictions) :
    ∃ x : Nat → K,
      Features.valueAt (arena.weightedFeatures (terms.map fun term => (term.1, of term.2))) key =
        of (terms.map fun term => term.2 * x term.1).sum ∧
      ∀ term ∈ terms, 0 ≤ x term.1 ∧ (arena.isCorrect term.1 ≠ correct → term.2 * x term.1 = 0) := by
  obtain ⟨x, hx⟩ := h.exists_values
  refine ⟨x, valueAt_weightedFeatures fun term hterm => (hx term.1 (hmem term hterm)).1, fun term hterm => ?_⟩
  obtain ⟨-, hnonneg, hother⟩ := hx term.1 (hmem term hterm)
  exact ⟨hnonneg, fun hne => by rw [hother hne, mul_zero]⟩

/-- **Counts that point towards the correct predictions.** -/
structure PointsTowards (arena : Arena (FieldScore E)) (predictions : List Nat) (mode : CountMode)
    (counts : Features (FieldScore E)) : Prop where
  /-- What is the same everywhere does not count. -/
  same : ∀ key x, (∀ i ∈ predictions, arena.total key i = of x) → counts.valueAt key = of 0
  /-- What is there in correct predictions only counts no less than zero. By scores this rests on the exponential. -/
  correct : ∀ key, arena.OnlyIn predictions true key →
    (mode = .standard → E.IsMultiplicative ∨ arena.BestIsCorrect predictions) →
      ∃ x, 0 ≤ x ∧ counts.valueAt key = of x
  /-- What is there in other predictions only counts no more than zero. -/
  wrong : ∀ key, arena.OnlyIn predictions false key → ∃ x, x ≤ 0 ∧ counts.valueAt key = of x

/-- **What predictions count**: in sum nothing, no more than zero where they are not correct, and no less than zero
where they are, provided that something holds. -/
structure Counted (arena : Arena (FieldScore E)) (predictions : List Nat) (provided : Prop)
    (terms : List (Nat × K)) : Prop where
  balance : (terms.map Prod.snd).sum = 0
  mem : ∀ term ∈ terms, term.1 ∈ predictions
  wrong : ∀ term ∈ terms, arena.isCorrect term.1 = false → term.2 ≤ 0
  correct : provided → ∀ term ∈ terms, arena.isCorrect term.1 = true → 0 ≤ term.2

theorem Compares.counted (h : arena.Compares predictions a b) (hm : 0 < (a.map (mass m)).sum)
    (hn : 0 < (b.map (mass n)).sum) {provided : Prop}
    (hcorrect : provided → ∀ i d, (i, d) ∈ terms predictions m n a b → arena.isCorrect i = true → 0 ≤ d) :
    arena.Counted predictions provided (terms predictions m n a b) where
  balance := h.sum_terms hm hn
  mem _ hterm := (List.of_mem_zip hterm).1
  wrong _ hterm := h.terms_wrong hn hterm
  correct hprovided term hterm := hcorrect hprovided term.1 term.2 hterm

/-- **Where predictions count in that way, features do so as well.** -/
theorem Counted.pointsTowards {mode : CountMode} {terms : List (Nat × K)}
    (h : arena.Counted predictions (mode = .standard → E.IsMultiplicative ∨ arena.BestIsCorrect predictions) terms) :
    arena.PointsTowards predictions mode (arena.weightedFeatures (terms.map fun term => (term.1, of term.2))) where
  same key x hx := by
    have hvalue := valueAt_weightedFeatures (x := fun _ => x) fun term hterm => hx term.1 (h.mem term hterm)
    have hsum : (terms.map fun term => term.2 * x).sum = (terms.map Prod.snd).sum * x :=
      List.sum_map_mul_right _ _ _
    rw [hvalue, hsum, h.balance, zero_mul]
  correct key honly hprovided := by
    obtain ⟨x, hvalue, hx⟩ := honly.exists_sum h.mem
    refine ⟨_, List.sum_nonneg ?_, hvalue⟩
    rw [List.forall_mem_map]
    intro term hterm
    obtain ⟨hnonneg, hother⟩ := hx term hterm
    cases hcorrect : arena.isCorrect term.1 with
    | true => exact mul_nonneg (h.correct hprovided term hterm hcorrect) hnonneg
    | false => exact le_of_eq (hother (by simp [hcorrect])).symm
  wrong key honly := by
    obtain ⟨x, hvalue, hx⟩ := honly.exists_sum h.mem
    refine ⟨_, (List.sum_le_card_nsmul _ 0 ?_).trans_eq (smul_zero _), hvalue⟩
    rw [List.forall_mem_map]
    intro term hterm
    obtain ⟨hnonneg, hother⟩ := hx term hterm
    cases hcorrect : arena.isCorrect term.1 with
    | true => exact le_of_eq (hother (by simp [hcorrect]))
    | false => exact mul_nonpos_of_nonpos_of_nonneg (h.wrong term hterm hcorrect) hnonneg

/-- **Counts point towards the correct predictions.** -/
theorem expectedCounts_pointsTowards {mode : CountMode} {margin : FieldScore E} {counts : Features (FieldScore E)}
    (hscores : ∀ i ∈ predictions, ∃ x, arena.score i = of x)
    (h : arena.expectedCounts? predictions mode margin = some counts) :
    arena.PointsTowards predictions mode counts := by
  cases mode with
  | standard =>
    have hy : ∀ i ∈ predictions, arena.score i = of (arena.score i).value := by
      intro i hi
      obtain ⟨x, hx⟩ := hscores i hi
      rw [hx]
      rfl
    have hlogs := logWeights_standard hy margin
    have hcompares := arena.compares_restricted predictions fun i => (arena.score i).value
    obtain ⟨m, n, hm, hn, hleft, hright, rfl⟩ := exists_of_expectedCounts hlogs hcompares h
    refine (hcompares.counted hleft hright fun hprovided i d hd hi => ?_).pointsTowards
    obtain ⟨k, hk, hfactor⟩ := exists_factor hy hm hn (hprovided rfl)
    exact terms_restricted hk hfactor hleft hright hd hi
  | uniform =>
    have hlogs := arena.logWeights_uniform predictions margin
    have hcompares := arena.compares_restricted predictions fun _ => 0
    obtain ⟨m, n, hm, hn, hleft, hright, rfl⟩ := exists_of_expectedCounts hlogs hcompares h
    refine (hcompares.counted hleft hright fun _ i d hd hi => ?_).pointsTowards
    have hzero : m = 0 := by
      obtain ⟨j, -, hj⟩ := List.mem_map.mp (maximum_spec hm).1
      exact (eq_of_restricted hj).symm
    have hzero' : n = 0 := by
      obtain ⟨j, -, hj⟩ := List.mem_map.mp (maximum_spec hn).1
      exact (FieldScore.of.inj hj).symm
    subst hzero hzero'
    exact terms_restricted one_pos (fun x => (one_mul _).symm) hleft hright hd hi
  | top =>
    obtain ⟨a, b, hlogs⟩ := exists_logWeights h
    obtain ⟨good, bad, hgood, hbad, rfl, rfl⟩ := exists_of_logWeights_top hlogs
    have hcompares := compares_oneHot hgood bad
    obtain ⟨m, n, -, -, hleft, hright, rfl⟩ := exists_of_expectedCounts hlogs hcompares h
    refine (hcompares.counted hleft hright fun _ i d hd hi => ?_).pointsTowards
    exact terms_oneHot hbad hleft hd hi

end Ordered

/-! ## Two arenas -/

theorem expectedCounts_eq_some {mode : CountMode} {margin : FieldScore E} {p q : List (FieldScore E)}
    (hne : predictions.isEmpty = false) (hlogs : arena.logWeights? predictions mode margin = some (a, b))
    (hp : Score.normalize? a = some p) (hq : Score.normalize? b = some q) :
    arena.expectedCounts? predictions mode margin =
      some (arena.weightedFeatures (predictions.zip (List.zipWith (· - ·) p q))) := by
  simp [expectedCounts?, hne, hlogs, hp, hq]

/-- A derivation with one feature, and without children. -/
def leaf (feature : String) (compatibility score : K) : Derivation (FieldScore E) :=
  { (default : Derivation (FieldScore E)) with
    features := Features.add .empty "f" feature (of 1)
    compatibility := of compatibility
    score := of score }

theorem total_leaf {i : Nat} {feature : String} {compatibility score : K}
    (h : arena.get i = leaf feature compatibility score) (key : String) :
    arena.total key i = of (if key = Features.key "f" feature then 1 else 0) := by
  have hchildren : (leaf feature compatibility score : Derivation (FieldScore E)).children = [] := rfl
  have hfeatures : Features.addScaled .empty Score.one
      (leaf feature compatibility score : Derivation (FieldScore E)).features =
        Features.addKey .empty (Features.key "f" feature) (Score.one * (Score.zero + of 1)) := rfl
  have hempty : Features.valueAt (Table.empty : Features (FieldScore E)) key = of 0 := zero_eq
  rw [total, treeFeatures, addTreeFeatures, h, hchildren, addTreeFeaturesOfAll, hfeatures]
  by_cases hkey : key = Features.key "f" feature
  · rw [if_pos hkey, ← hkey, Features.valueAt_addKey_self, hempty]
    simp
  · rw [if_neg hkey, Features.valueAt_addKey_of_ne _ hkey, hempty]

/-- A correct prediction and a wrong one, with scores that are equal. -/
noncomputable def evenArena : Arena (FieldScore Exponential.real) := ⟨#[leaf "good" 1 0, leaf "bad" 0 0]⟩

theorem evenArena_isCorrect : evenArena.isCorrect 0 = true ∧ evenArena.isCorrect 1 = false := by
  have hone : evenArena.isCorrect 0 = decide ((1 : ℝ) = (1 : ℕ)) := rfl
  have hzero : evenArena.isCorrect 1 = decide ((0 : ℝ) = (1 : ℕ)) := rfl
  rw [hone, hzero]
  simp

theorem evenArena_counts : evenArena.expectedCounts? [0, 1] .standard (of 1) =
    some (evenArena.weightedFeatures ([(0, 1 / 2), (1, -1 / 2)].map fun term => (term.1, of term.2))) := by
  have hy : ∀ i ∈ [0, 1], evenArena.score i = of 0 := by simp [evenArena, Arena.score, Arena.get, Arena.get?, leaf]
  have hlogs : evenArena.logWeights? [0, 1] .standard (of 1) = some ([of 0, lowest], [of 0, of 0]) := by
    rw [logWeights_standard (y := fun _ => 0) hy]
    simp [restricted, evenArena_isCorrect]
  have hp : Score.normalize? ([of 0, lowest] : List (FieldScore Exponential.real)) = some [of 1, of 0] := by
    rw [normalize_of_maximum (m := 0) (by simp) rfl]
    simp [shares, mass, Exponential.exp_zero]
  have hq : Score.normalize? ([of 0, of 0] : List (FieldScore Exponential.real)) = some [of (1 / 2), of (1 / 2)] := by
    have hmax : Score.maximum ([of 0, of 0] : List (FieldScore Exponential.real)) = of 0 := by
      rcases max_eq_or (of 0 : FieldScore Exponential.real) (of 0) with h | h <;> exact h
    rw [normalize_of_maximum (m := 0) (by simp) hmax]
    norm_num [shares, mass, Exponential.exp_zero]
  rw [expectedCounts_eq_some rfl hlogs hp hq]
  norm_num

theorem evenArena_onlyIn : evenArena.OnlyIn [0, 1] true "f :: good" := by
  have hfirst : evenArena.get 0 = leaf "good" 1 0 := rfl
  have hsecond : evenArena.get 1 = leaf "bad" 0 0 := rfl
  have hgood : evenArena.total "f :: good" 0 = of 1 := by rw [total_leaf hfirst, if_pos (by decide)]
  have hbad : evenArena.total "f :: good" 1 = of 0 := by rw [total_leaf hsecond, if_neg (by decide)]
  intro i hi
  fin_cases hi
  · exact ⟨⟨1, zero_le_one, hgood⟩, fun hne => absurd evenArena_isCorrect.1 hne⟩
  · exact ⟨⟨0, le_refl 0, hbad⟩, fun _ => hbad⟩

theorem expectedCounts_pointsTowards_sample :
    ∃ counts, evenArena.expectedCounts? [0, 1] .standard (of 1) = some counts ∧
      (∀ i ∈ [0, 1], ∃ x, evenArena.score i = of x) ∧ evenArena.PointsTowards [0, 1] .standard counts ∧
        ∃ x, 0 ≤ x ∧ Features.valueAt counts "f :: good" = of x := by
  have hscores : ∀ i ∈ [0, 1], ∃ x, evenArena.score i = of x := by
    intro i hi
    fin_cases hi <;> exact ⟨_, rfl⟩
  have hpoints := expectedCounts_pointsTowards hscores evenArena_counts
  have hgood := hpoints.correct "f :: good" evenArena_onlyIn fun _ => .inl Exponential.isMultiplicative_real
  exact ⟨_, evenArena_counts, hscores, hpoints, hgood⟩

/-- Three correct predictions and a wrong one that is better. -/
def steepArena : Arena (FieldScore Exponential.steep) :=
  ⟨#[leaf "a" 1 0, leaf "b" 1 0, leaf "c" 1 (-2), leaf "d" 0 1]⟩

theorem steepArena_counts : steepArena.expectedCounts? [0, 1, 2, 3] .standard (of 1) =
    some (steepArena.weightedFeatures
      ([(0, 11 / 42), (1, 11 / 42), (2, -1 / 42), (3, -1 / 2)].map fun term => (term.1, of term.2))) := by
  have hlogs : steepArena.logWeights? [0, 1, 2, 3] .standard (of 1) =
      some ([of 0, of 0, of (-2), lowest], [of 0, of 0, of (-2), of 1]) := by decide +kernel
  have hp : Score.normalize? ([of 0, of 0, of (-2), lowest] : List (FieldScore Exponential.steep)) =
      some [of (3 / 7), of (3 / 7), of (1 / 7), of 0] := by decide +kernel
  have hq : Score.normalize? ([of 0, of 0, of (-2), of 1] : List (FieldScore Exponential.steep)) =
      some [of (1 / 6), of (1 / 6), of (1 / 6), of (1 / 2)] := by decide +kernel
  rw [expectedCounts_eq_some rfl hlogs hp hq]
  refine congrArg (fun terms => some (steepArena.weightedFeatures terms)) ?_
  decide +kernel

theorem steepArena_total : ∀ i ∈ [0, 1, 2, 3], steepArena.total "f :: c" i = of (if i = 2 then 1 else 0) := by
  have ha : steepArena.get 0 = leaf "a" 1 0 := rfl
  have hb : steepArena.get 1 = leaf "b" 1 0 := rfl
  have hc : steepArena.get 2 = leaf "c" 1 (-2) := rfl
  have hd : steepArena.get 3 = leaf "d" 0 1 := rfl
  intro i hi
  fin_cases hi
  · rw [total_leaf ha, if_neg (by decide), if_neg (by decide)]
  · rw [total_leaf hb, if_neg (by decide), if_neg (by decide)]
  · rw [total_leaf hc, if_pos (by decide), if_pos rfl]
  · rw [total_leaf hd, if_neg (by decide), if_neg (by decide)]

/-- **Without that law the counts may point away**: the feature is there in one correct prediction only, and counts less
than zero. -/
theorem steepArena_pointsAway : ∃ counts, steepArena.expectedCounts? [0, 1, 2, 3] .standard (of 1) = some counts ∧
    (∀ i ∈ [0, 1, 2, 3], ∃ x, steepArena.score i = of x) ∧ steepArena.OnlyIn [0, 1, 2, 3] true "f :: c" ∧
      Features.valueAt counts "f :: c" = of (-1 / 42) := by
  refine ⟨_, steepArena_counts, ?_, ?_, ?_⟩
  · intro i hi
    fin_cases hi <;> exact ⟨_, rfl⟩
  · intro i hi
    rw [steepArena_total i hi]
    refine ⟨⟨_, ?_, rfl⟩, ?_⟩
    · split <;> decide
    · fin_cases hi <;> decide +kernel
  · rw [valueAt_weightedFeatures (x := fun i => if i = 2 then 1 else 0)]
    · decide +kernel
    · intro term hterm
      fin_cases hterm <;> exact steepArena_total _ (by decide)

end Arena

end Field

end Parlance
