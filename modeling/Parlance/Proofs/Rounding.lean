import Mathlib
import Parlance.Proofs.Ordering

/-!
# `Proofs.Rounding` — the difference of doubles does not lose their order

A difference of doubles is the exact difference rounded to a double. Rounding goes to the nearest double and may make
differences equal that are not, but it never turns two of them round, whether they are rounded to the same number of
places or not, lie below the least normal number, or go beyond the largest double. So what is taken from a number
leaves no less than something larger leaves.

All finite doubles are multiples of the least one above zero, and so are their exact differences. They are counted
in that unit, which makes rounding a function of whole numbers.

## Contents
- **Whole numbers.** `divRound`, division by a power of two with rounding, and `nearest`, the number with 53
  significant binary digits next to another one.
- **Unpacked doubles.** `units`, `Regular`; `round_spec` and `sub_spec`, what rounding and subtraction do to units.
- **Packing.** `unpack_pack`, `regular_unpack`.
- **Doubles.** `Score.Subtractive`, the law of differences, which doubles keep.
-/

namespace Parlance

/-! ## Whole numbers -/

/-- A number divided by a power of two, rounded to the nearest whole number, and to the even one of two. -/
def divRound (n j : Nat) : Nat :=
  if 2 * (n % 2 ^ j) < 2 ^ j then n / 2 ^ j
  else if 2 * (n % 2 ^ j) = 2 ^ j then n / 2 ^ j + n / 2 ^ j % 2
  else n / 2 ^ j + 1

theorem divRound_mono {m n : Nat} (h : m ≤ n) (j : Nat) : divRound m j ≤ divRound n j := by
  have hquotient : m / 2 ^ j ≤ n / 2 ^ j := Nat.div_le_div_right h
  have hm := Nat.div_add_mod m (2 ^ j)
  have hn := Nat.div_add_mod n (2 ^ j)
  unfold divRound
  rcases Nat.lt_or_eq_of_le hquotient with hlt | heq
  · split <;> split <;> (try split) <;> (try split) <;> omega
  · -- with the same quotient the remainders decide
    have hremainder : m % 2 ^ j ≤ n % 2 ^ j := by
      rw [heq] at hm
      omega
    rw [heq]
    split <;> split <;> (try split) <;> (try split) <;> omega

theorem divRound_mul (k j : Nat) : divRound (k * 2 ^ j) j = k := by
  have hpos : 0 < 2 ^ j := Nat.two_pow_pos j
  unfold divRound
  rw [Nat.mul_mod_left, if_pos (by omega), Nat.mul_div_cancel k hpos]

/-- Only the quotient counts. -/
theorem divRound_scale (n u j : Nat) : divRound (n * 2 ^ u) (j + u) = divRound n j := by
  have hpos : 0 < 2 ^ u := Nat.two_pow_pos u
  unfold divRound
  rw [Nat.pow_add, Nat.mul_mod_mul_right, Nat.mul_div_mul_right _ _ hpos, ← Nat.mul_assoc]
  simp only [Nat.mul_lt_mul_right hpos, Nat.mul_left_inj hpos.ne']

/-- The number next to another one among those with at most 53 significant binary digits. -/
def nearest (n : Nat) : Nat := divRound n (n.log2 - 52) * 2 ^ (n.log2 - 52)

theorem lt_two_pow_log2 (n : Nat) : n < 2 ^ 53 * 2 ^ (n.log2 - 52) := by
  calc n < 2 ^ (n.log2 + 1) := Nat.lt_log2_self
    _ ≤ 2 ^ (53 + (n.log2 - 52)) := Nat.pow_le_pow_right (by decide) (by omega)
    _ = 2 ^ 53 * 2 ^ (n.log2 - 52) := Nat.pow_add 2 53 _

theorem two_pow_log2_le {n : Nat} (h : 52 ≤ n.log2) : 2 ^ 52 * 2 ^ (n.log2 - 52) ≤ n := by
  have hn : n ≠ 0 := by
    rintro rfl
    simp at h
  calc 2 ^ 52 * 2 ^ (n.log2 - 52) = 2 ^ n.log2 := by rw [← Nat.pow_add]; congr 1; omega
    _ ≤ n := Nat.log2_self_le hn

/-- What is divided down to 53 digits fits into them, but for a carry. -/
theorem divRound_le (n : Nat) : divRound n (n.log2 - 52) ≤ 2 ^ 53 :=
  (divRound_mono (Nat.le_of_lt (lt_two_pow_log2 n)) _).trans_eq (divRound_mul _ _)

theorem le_divRound {n : Nat} (h : 52 ≤ n.log2) : 2 ^ 52 ≤ divRound n (n.log2 - 52) :=
  (divRound_mul (2 ^ 52) _).symm.trans_le (divRound_mono (two_pow_log2_le h) _)

/-- **Rounding keeps the order**, also from one number of places to the next. -/
theorem nearest_mono {m n : Nat} (h : m ≤ n) : nearest m ≤ nearest n := by
  have hlog : m.log2 ≤ n.log2 := by
    by_cases hm : m = 0
    · simp [hm]
    · exact (Nat.le_log2 (by omega)).mpr ((Nat.log2_self_le hm).trans h)
  unfold nearest
  by_cases hsame : m.log2 - 52 = n.log2 - 52
  · rw [hsame]
    exact Nat.mul_le_mul_right _ (divRound_mono h _)
  · -- a power of two lies between them
    calc divRound m (m.log2 - 52) * 2 ^ (m.log2 - 52) ≤ 2 ^ 53 * 2 ^ (m.log2 - 52) :=
          Nat.mul_le_mul_right _ (divRound_le m)
      _ = 2 ^ (53 + (m.log2 - 52)) := (Nat.pow_add 2 53 _).symm
      _ ≤ 2 ^ (52 + (n.log2 - 52)) := Nat.pow_le_pow_right (by decide) (by omega)
      _ = 2 ^ 52 * 2 ^ (n.log2 - 52) := Nat.pow_add 2 52 _
      _ ≤ divRound n (n.log2 - 52) * 2 ^ (n.log2 - 52) := Nat.mul_le_mul_right _ (le_divRound (by omega))

theorem log2_mul_two_pow {m : Nat} (hm : 0 < m) (k : Nat) : (m * 2 ^ k).log2 = m.log2 + k := by
  rw [Nat.log2_eq_iff (by positivity)]
  have hlow := Nat.log2_self_le hm.ne'
  have hhigh := @Nat.lt_log2_self m
  constructor
  · rw [Nat.pow_add]
    exact Nat.mul_le_mul_right _ hlow
  · rw [Nat.add_right_comm, Nat.pow_add]
    exact Nat.mul_lt_mul_of_pos_right hhigh (Nat.two_pow_pos k)

/-- What has no more than 53 digits stays as it is. -/
theorem nearest_eq_self {m : Nat} (hm : m < 2 ^ 53) (k : Nat) : nearest (m * 2 ^ k) = m * 2 ^ k := by
  rcases Nat.eq_zero_or_pos m with rfl | hpos
  · simp [nearest, divRound]
  have hlog : m.log2 ≤ 52 := by
    have := (Nat.log2_lt hpos.ne').mpr hm
    omega
  unfold nearest
  rw [log2_mul_two_pow hpos]
  obtain ⟨i, hi⟩ : ∃ i, k = i + (m.log2 + k - 52) := ⟨k - (m.log2 + k - 52), by omega⟩
  have hsplit : m * 2 ^ k = m * 2 ^ i * 2 ^ (m.log2 + k - 52) := by
    conv_lhs => rw [hi]
    rw [Nat.pow_add, Nat.mul_assoc]
  rw [hsplit, divRound_mul]

@[simp] theorem nearest_zero : nearest 0 = 0 := by simpa using nearest_eq_self (m := 0) (by decide) 0

/-- Rounding below zero mirrors rounding above. -/
def nearestInt (z : Int) : Int := z.sign * nearest z.natAbs

theorem nearestInt_natCast (n : Nat) : nearestInt n = nearest n := by
  unfold nearestInt
  rcases Nat.eq_zero_or_pos n with rfl | hpos
  · simp
  · rw [Int.sign_natCast_of_ne_zero hpos.ne', Int.natAbs_natCast, one_mul]

@[simp] theorem nearestInt_zero : nearestInt 0 = 0 := rfl

@[simp] theorem nearestInt_neg (z : Int) : nearestInt (-z) = -nearestInt z := by
  simp [nearestInt]

theorem nearestInt_mono {x y : Int} (h : x ≤ y) : nearestInt x ≤ nearestInt y := by
  -- a number is a natural one, or the negative of one
  obtain ⟨m, rfl | rfl⟩ := x.eq_nat_or_neg <;> obtain ⟨n, rfl | rfl⟩ := y.eq_nat_or_neg
  all_goals simp only [nearestInt_neg, nearestInt_natCast]
  · exact_mod_cast nearest_mono (by omega)
  · obtain ⟨rfl, rfl⟩ : m = 0 ∧ n = 0 := by omega
    simp
  · omega
  · have := nearest_mono (show n ≤ m by omega)
    omega

/-! ## Unpacked doubles -/

open Float.Model

namespace UnpackedFloat

/-- How many times the least double above zero a finite double is. -/
def units : UnpackedFloat → Int
  | .finite s m e _ => s.apply (m * 2 ^ (e + 1074).toNat : Nat)
  | _ => 0

@[simp] theorem units_zero (s : UnpackedFloat.Sign) : units (.zero s) = 0 := rfl

/-- **A finite double** in the one form that it is unpacked to, but for a bound on its exponent: the mantissa has 53
digits, or fewer if the exponent is the least one. -/
def Regular : UnpackedFloat → Prop
  | .zero _ => True
  | .finite _ m e _ => -1074 ≤ e ∧ m < 2 ^ 53 ∧ (e = -1074 ∨ 2 ^ 52 ≤ m)
  | _ => False

/-! ### Shifting and rounding -/

/-- What `j` shifts to the right leave of an exact mantissa: the quotient, whether the remainder is at least a half,
and whether anything is left besides a half. -/
theorem shiftRight_exact (n j : Nat) :
    (⟨n, false, false⟩ : UnpackedFloat.ExtendedMantissa) >>> j =
      ⟨n / 2 ^ j, decide (2 ^ j ≤ 2 * (n % 2 ^ j)), decide (2 * (n % 2 ^ j) % 2 ^ j ≠ 0)⟩ := by
  induction j with
  | zero => simp [HShiftRight.hShiftRight, Nat.repeat, Nat.mod_one]
  | succ j ih =>
    have hpos : 0 < 2 ^ j := Nat.two_pow_pos j
    have hlt : n % 2 ^ j < 2 ^ j := Nat.mod_lt _ hpos
    have hremainder : n % 2 ^ (j + 1) = n % 2 ^ j + 2 ^ j * (n / 2 ^ j % 2) := by rw [Nat.pow_succ, Nat.mod_mul]
    have hhalf : 2 ^ (j + 1) ≤ 2 * (n % 2 ^ (j + 1)) ↔ n / 2 ^ j % 2 ≠ 0 := by
      rw [hremainder, Nat.pow_succ]
      rcases Nat.mod_two_eq_zero_or_one (n / 2 ^ j) with hbit | hbit <;> rw [hbit] <;> omega
    have hrest : 2 * (n % 2 ^ (j + 1)) % 2 ^ (j + 1) ≠ 0 ↔ n % 2 ^ j ≠ 0 := by
      rw [hremainder, Nat.pow_succ', Nat.mul_mod_mul_left, Nat.add_mul_mod_self_left, Nat.mod_eq_of_lt hlt]
      omega
    -- the bits shifted out so far are not all zero iff their number is not
    have hsticky : 2 ^ j ≤ 2 * (n % 2 ^ j) ∨ 2 * (n % 2 ^ j) % 2 ^ j ≠ 0 ↔ n % 2 ^ j ≠ 0 := by
      by_cases hlow : 2 * (n % 2 ^ j) < 2 ^ j
      · rw [Nat.mod_eq_of_lt hlow]
        omega
      · omega
    calc (⟨n, false, false⟩ : UnpackedFloat.ExtendedMantissa) >>> (j + 1)
        = ((⟨n, false, false⟩ : UnpackedFloat.ExtendedMantissa) >>> j).shiftRightOne := rfl
      _ = _ := by
        rw [ih, UnpackedFloat.ExtendedMantissa.shiftRightOne]
        simp only [hhalf, hrest, ← hsticky, Bool.decide_or, Nat.div_div_eq_div_mul, ← Nat.pow_succ]
        congr 1
        rw [Bool.eq_iff_iff, bne_iff_ne, decide_eq_true_eq]

/-- **Shifting and rounding is division with rounding.** -/
theorem roundedMantissa_shiftRight (n j : Nat) :
    ((⟨n, false, false⟩ : UnpackedFloat.ExtendedMantissa) >>> j).roundedMantissa = divRound n j := by
  have hpos : 0 < 2 ^ j := Nat.two_pow_pos j
  have hlt : n % 2 ^ j < 2 ^ j := Nat.mod_lt _ hpos
  rw [shiftRight_exact]
  unfold UnpackedFloat.ExtendedMantissa.roundedMantissa divRound
  rcases Nat.lt_trichotomy (2 * (n % 2 ^ j)) (2 ^ j) with hlow | hhalf | hhigh
  · rw [if_pos hlow, decide_eq_false (by omega)]
    -- nothing at all may be left, or less than a half
    cases decide (2 * (n % 2 ^ j) % 2 ^ j ≠ 0) <;> rfl
  · rw [if_neg (by omega), if_pos hhalf, hhalf, Nat.mod_self, decide_eq_true (Nat.le_refl _)]
    rfl
  · have hrest : 2 * (n % 2 ^ j) % 2 ^ j ≠ 0 := by
      rw [Nat.mod_eq_sub_mod (Nat.le_of_lt hhigh), Nat.mod_eq_of_lt (by omega)]
      omega
    rw [if_neg (by omega), if_neg (by omega), decide_eq_true (Nat.le_of_lt hhigh), decide_eq_true hrest]
    rfl

/-- Doubles have 53 digits, or, when that would take too small an exponent, as many as the least one allows. -/
theorem targetExponent_eq (m u : Nat) :
    Format.binary64.targetExponent (totalExponent m (u - 1074)) = ((m.log2 + u - 52 : Nat) : Int) - 1074 := by
  have hbits : (Format.binary64.mantissaBits : Int) = 53 := by decide
  have hleast : Format.binary64.minExponent = -1074 := by decide
  unfold Format.targetExponent totalExponent
  rw [hbits, hleast]
  omega

theorem shiftToTargetExponent_exact (m u : Nat) :
    UnpackedFloat.shiftToTargetExponent Format.binary64 m (u - 1074) .exact =
      ((⟨m, false, false⟩ : UnpackedFloat.ExtendedMantissa) >>> (m.log2 + u - 52 - u),
        ((max u (m.log2 + u - 52) : Nat) : Int) - 1074) := by
  unfold UnpackedFloat.shiftToTargetExponent UnpackedFloat.shiftToExponent
  rw [targetExponent_eq]
  have hshift : (((m.log2 + u - 52 : Nat) : Int) - 1074 - (u - 1074)).toNat = m.log2 + u - 52 - u := by omega
  simp only [hshift, UnpackedFloat.ExtendedMantissa.ofMantissaAndAccuracy]
  congr 1
  omega

/-- A mantissa with a carry is shifted once more, any other one is a mantissa of a double. -/
theorem shiftToTargetExponent_carry {n : Nat} (hpos : n ≠ 0) (hle : n ≤ 2 ^ 53) (j : Nat) :
    ∃ em : UnpackedFloat.ExtendedMantissa, ∃ i : Nat,
      UnpackedFloat.shiftToTargetExponent Format.binary64 n (j - 1074) .exact = (em, (i : Int) - 1074) ∧
      em.mantissa * 2 ^ i = n * 2 ^ j ∧ em.mantissa < 2 ^ 53 ∧ (i = j ∧ em.mantissa = n ∨ 2 ^ 52 ≤ em.mantissa) := by
  rw [shiftToTargetExponent_exact, shiftRight_exact]
  refine ⟨_, _, rfl, ?_⟩
  dsimp only
  rcases Nat.lt_or_eq_of_le hle with hlt | rfl
  · have hdigits : n.log2 < 53 := (Nat.log2_lt hpos).mpr hlt
    rw [show n.log2 + j - 52 - j = 0 by omega, show max j (n.log2 + j - 52) = j by omega, Nat.pow_zero, Nat.div_one]
    exact ⟨rfl, hlt, .inl ⟨rfl, rfl⟩⟩
  · rw [Nat.log2_two_pow, show 53 + j - 52 - j = 1 by omega, show max j (53 + j - 52) = j + 1 by omega]
    refine ⟨?_, by decide, .inr (by decide)⟩
    rw [Nat.pow_succ' (n := j), ← Nat.mul_assoc]
    rfl

/-- Rounding of a mantissa with at least as many digits as that of a double: what is left over is rounded off, and a
carry is shifted out. -/
theorem roundWithAccuracy_spec (s : UnpackedFloat.Sign) {m u : Nat} (hm : 0 < m) (hu : u ≤ m.log2 + u - 52) :
    Regular (UnpackedFloat.roundWithAccuracy Format.binary64 s m (u - 1074) .exact) ∧
      units (UnpackedFloat.roundWithAccuracy Format.binary64 s m (u - 1074) .exact) =
        s.apply (nearest (m * 2 ^ u) : Nat) := by
  obtain ⟨j, hj⟩ : ∃ j, j = m.log2 + u - 52 := ⟨_, rfl⟩
  obtain ⟨n, hn⟩ : ∃ n, n = divRound m (j - u) := ⟨_, rfl⟩
  have hlog : (m * 2 ^ u).log2 - 52 = j := by rw [log2_mul_two_pow hm, hj]
  have hscale : divRound (m * 2 ^ u) j = n := by
    rw [hn, ← divRound_scale m u (j - u)]
    congr 1
    omega
  have hnearest : nearest (m * 2 ^ u) = n * 2 ^ j := by rw [nearest, hlog, hscale]
  have hle : n ≤ 2 ^ 53 := by
    have hle := divRound_le (m * 2 ^ u)
    rwa [hlog, hscale] at hle
  have hnormal : j = 0 ∨ 2 ^ 52 ≤ n := by
    by_cases h : 52 ≤ (m * 2 ^ u).log2
    · have hlow := le_divRound h
      rw [hlog, hscale] at hlow
      exact .inr hlow
    · exact .inl (by omega)
  have hpos : n ≠ 0 := by
    rcases hnormal with rfl | hlow
    · have hexact := divRound_mul (m * 2 ^ u) 0
      rw [Nat.pow_zero, Nat.mul_one, hscale] at hexact
      have hproduct := Nat.mul_pos hm (Nat.two_pow_pos u)
      omega
    · omega
  obtain ⟨em, i, hshift, hvalue, hlt, hfull⟩ := shiftToTargetExponent_carry hpos hle j
  have hmantissa : em.mantissa ≠ 0 := by
    intro h
    rw [h, Nat.zero_mul] at hvalue
    have hproduct := Nat.mul_pos (Nat.pos_of_ne_zero hpos) (Nat.two_pow_pos j)
    omega
  rw [hnearest]
  unfold UnpackedFloat.roundWithAccuracy
  rw [shiftToTargetExponent_exact, ← hj, max_eq_right (by omega)]
  dsimp only
  rw [roundedMantissa_shiftRight, ← hn, hshift]
  dsimp only
  rw [dif_neg hmantissa]
  refine ⟨⟨by omega, hlt, ?_⟩, ?_⟩
  · rcases hfull with ⟨rfl, hsame⟩ | hfull
    · rcases hnormal with rfl | hlow
      · exact .inl rfl
      · exact .inr (hsame ▸ hlow)
    · exact .inr hfull
  · rw [units, show ((i : Int) - 1074 + 1074).toNat = i by omega, hvalue]

/-- **Rounding** of any mantissa gives the nearest double. -/
theorem round_spec (s : UnpackedFloat.Sign) {m u : Nat} (hm : 0 < m) :
    Regular (UnpackedFloat.round Format.binary64 s m (u - 1074)) ∧
      units (UnpackedFloat.round Format.binary64 s m (u - 1074)) = s.apply (nearest (m * 2 ^ u) : Nat) := by
  -- a mantissa with too few digits is filled up with zeros
  obtain ⟨k, hk⟩ : ∃ k, k = u - (m.log2 + u - 52) := ⟨_, rfl⟩
  have hfill : UnpackedFloat.round Format.binary64 s m (u - 1074) =
      UnpackedFloat.roundWithAccuracy Format.binary64 s (m * 2 ^ k) ((u - k : Nat) - 1074) .exact := by
    unfold UnpackedFloat.round UnpackedFloat.decreaseExponent
    rw [targetExponent_eq]
    dsimp only
    rw [show ((u : Int) - 1074 - (((m.log2 + u - 52 : Nat) : Int) - 1074)).toNat = k by omega, Nat.shiftLeft_eq]
    congr 1
    omega
  have hvalue : m * 2 ^ k * 2 ^ (u - k) = m * 2 ^ u := by
    rw [Nat.mul_assoc, ← Nat.pow_add, show k + (u - k) = u by omega]
  have hspec := roundWithAccuracy_spec s (m := m * 2 ^ k) (u := u - k) (Nat.mul_pos hm (Nat.two_pow_pos k)) (by
    rw [log2_mul_two_pow hm]
    omega)
  rw [hfill, ← hvalue]
  exact hspec

/-! ### Differences -/

theorem apply_neg (s : UnpackedFloat.Sign) (z : Int) : (-s).apply z = -s.apply z := by
  cases s
  · exact (Int.neg_neg z).symm
  · rfl

theorem apply_mul (s : UnpackedFloat.Sign) (y z : Int) : s.apply (y * z) = s.apply y * z := by
  cases s
  · exact (Int.neg_mul y z).symm
  · rfl

/-- The exact value is rounded, with its sign. -/
theorem normalize_spec (z : Int) (u : Nat) (s : UnpackedFloat.Sign) :
    Regular (UnpackedFloat.normalize Format.binary64 z (u - 1074) s) ∧
      units (UnpackedFloat.normalize Format.binary64 z (u - 1074) s) = nearestInt (z * (2 ^ u : Nat)) := by
  obtain ⟨n, hz⟩ := z.eq_nat_or_neg
  rcases Nat.eq_zero_or_pos n with rfl | hpos
  · obtain rfl : z = 0 := by omega
    exact ⟨trivial, by simp [nearestInt, units, UnpackedFloat.normalize]⟩
  rcases hz with rfl | rfl
  · have hround : UnpackedFloat.normalize Format.binary64 n (u - 1074) s =
        UnpackedFloat.round Format.binary64 .positive n (u - 1074) := by
      unfold UnpackedFloat.normalize
      rw [compare_gt_iff_gt.mpr (by omega : (0 : Int) < n)]
      rfl
    rw [hround, ← Int.natCast_mul, nearestInt_natCast]
    exact round_spec .positive hpos
  · have hround : UnpackedFloat.normalize Format.binary64 (-n) (u - 1074) s =
        UnpackedFloat.round Format.binary64 .negative n (u - 1074) := by
      unfold UnpackedFloat.normalize
      rw [compare_lt_iff_lt.mpr (by omega : -(n : Int) < 0)]
      simp
    rw [hround, Int.neg_mul, ← Int.natCast_mul, nearestInt_neg, nearestInt_natCast]
    exact round_spec .negative hpos

/-- A finite double is its own nearest one. -/
theorem nearestInt_units {x : UnpackedFloat} (hx : Regular x) : nearestInt (units x) = units x := by
  cases x with
  | finite s m e hm =>
    obtain ⟨-, hlt, -⟩ := hx
    have hself : nearestInt ((m * 2 ^ (e + 1074).toNat : Nat) : Int) = (m * 2 ^ (e + 1074).toNat : Nat) := by
      rw [nearestInt_natCast, nearest_eq_self hlt]
    cases s with
    | negative =>
      show nearestInt (-_) = -_
      rw [nearestInt_neg, hself]
    | positive => exact hself
  | _ => simp [units, nearestInt]

/-- **Subtraction** of finite doubles: the exact difference, rounded. -/
theorem sub_spec {x y : UnpackedFloat} (hx : Regular x) (hy : Regular y) :
    Regular (UnpackedFloat.sub Format.binary64 x y) ∧
      units (UnpackedFloat.sub Format.binary64 x y) = nearestInt (units x - units y) := by
  cases x with
  | notANumber => cases hx
  | infinity => cases hx
  | zero s =>
    cases y with
    | notANumber => cases hy
    | infinity => cases hy
    | zero t =>
      rw [UnpackedFloat.sub]
      split <;> exact ⟨trivial, by simp⟩
    | finite t n f hn =>
      refine ⟨hy, ?_⟩
      have hself := nearestInt_units hy
      rw [show units (.zero s) - units (.finite t n f hn) = -units (.finite t n f hn) by simp [units], nearestInt_neg,
        hself]
      exact apply_neg _ _
  | finite s m e hm =>
    cases y with
    | notANumber => cases hy
    | infinity => cases hy
    | zero t =>
      refine ⟨hx, ?_⟩
      rw [show units (.finite s m e hm) - units (.zero t) = units (.finite s m e hm) by simp [units],
        nearestInt_units hx]
      rfl
    | finite t n f hn =>
      obtain ⟨he, -, -⟩ := hx
      obtain ⟨hf, -, -⟩ := hy
      -- both are counted from the smaller exponent
      obtain ⟨u, rfl⟩ : ∃ u : Nat, e = u - 1074 := ⟨(e + 1074).toNat, by omega⟩
      obtain ⟨v, rfl⟩ : ∃ v : Nat, f = v - 1074 := ⟨(f + 1074).toNat, by omega⟩
      have hsub : UnpackedFloat.sub Format.binary64 (.finite s m (u - 1074) hm) (.finite t n (v - 1074) hn) =
          UnpackedFloat.normalize Format.binary64
            (s.apply (m * 2 ^ (u - min u v) : Nat) - t.apply (n * 2 ^ (v - min u v) : Nat))
            ((min u v : Nat) - 1074) .positive := by
        unfold UnpackedFloat.sub UnpackedFloat.decreaseExponent
        dsimp only
        rw [show min ((u : Int) - 1074) (v - 1074) = ((min u v : Nat) : Int) - 1074 by omega,
          show ((u : Int) - 1074 - (((min u v : Nat) : Int) - 1074)).toNat = u - min u v by omega,
          show ((v : Int) - 1074 - (((min u v : Nat) : Int) - 1074)).toNat = v - min u v by omega,
          Nat.shiftLeft_eq, Nat.shiftLeft_eq]
      have hscale : ∀ (s : UnpackedFloat.Sign) (k w : Nat), min u v ≤ w →
          s.apply (k * 2 ^ (w - min u v) : Nat) * (2 ^ min u v : Nat) = s.apply (k * 2 ^ w : Nat) := by
        intro s k w hw
        rw [← apply_mul, ← Int.natCast_mul, Nat.mul_assoc, ← Nat.pow_add, Nat.sub_add_cancel hw]
      rw [hsub]
      have hspec := normalize_spec
        (s.apply (m * 2 ^ (u - min u v) : Nat) - t.apply (n * 2 ^ (v - min u v) : Nat)) (min u v) .positive
      rw [Int.sub_mul, hscale s m u (by omega), hscale t n v (by omega)] at hspec
      simpa [units] using hspec

/-! ### Order -/

/-- Of two finite doubles above zero, the one with fewer units has the smaller exponent, or, with the same exponent,
the smaller mantissa. -/
theorem exponent_lt_or {m n : Nat} {e f : Int} (hm : 0 < m) (hn : 0 < n) (hx : Regular (.finite .positive m e hm))
    (hy : Regular (.finite .positive n f hn)) (h : m * 2 ^ (e + 1074).toNat ≤ n * 2 ^ (f + 1074).toNat) :
    e < f ∨ e = f ∧ m ≤ n := by
  obtain ⟨he, -, hfull⟩ := hx
  obtain ⟨hf, hlt, -⟩ := hy
  rcases lt_trichotomy e f with hef | rfl | hfe
  · exact .inl hef
  · exact .inr ⟨rfl, Nat.le_of_mul_le_mul_right h (Nat.two_pow_pos _)⟩
  · -- the larger exponent is not the least one, so that its mantissa has all digits
    exfalso
    have hdigits : 2 ^ 52 ≤ m := hfull.resolve_left (by omega)
    have hcontra : n * 2 ^ (f + 1074).toNat < m * 2 ^ (e + 1074).toNat :=
      calc n * 2 ^ (f + 1074).toNat < 2 ^ 53 * 2 ^ (f + 1074).toNat :=
            Nat.mul_lt_mul_of_pos_right hlt (Nat.two_pow_pos _)
        _ = 2 ^ (53 + (f + 1074).toNat) := (Nat.pow_add 2 53 _).symm
        _ ≤ 2 ^ (52 + (e + 1074).toNat) := Nat.pow_le_pow_right (by decide) (by omega)
        _ = 2 ^ 52 * 2 ^ (e + 1074).toNat := Nat.pow_add 2 52 _
        _ ≤ m * 2 ^ (e + 1074).toNat := Nat.mul_le_mul_right _ hdigits
    omega

/-- **Units and ranks** order finite doubles the same way. -/
theorem rank_le_of_units_le {x y : UnpackedFloat} (hx : Regular x) (hy : Regular y) (h : units x ≤ units y) :
    rank x ≤ rank y := by
  cases x with
  | notANumber => cases hx
  | infinity => cases hx
  | zero s =>
    cases y with
    | notANumber => cases hy
    | infinity => cases hy
    | zero t => exact le_refl _
    | finite t n f hn =>
      have hpos := Nat.mul_pos hn (Nat.two_pow_pos (f + 1074).toNat)
      cases t with
      | positive => simp [rank, Prod.Lex.le_iff]
      | negative =>
        simp only [units, UnpackedFloat.Sign.apply] at h
        omega
  | finite s m e hm =>
    have hpos := Nat.mul_pos hm (Nat.two_pow_pos (e + 1074).toNat)
    cases y with
    | notANumber => cases hy
    | infinity => cases hy
    | zero t =>
      cases s with
      | positive =>
        simp only [units, UnpackedFloat.Sign.apply] at h
        omega
      | negative => simp [rank, Prod.Lex.le_iff]
    | finite t n f hn =>
      have hpos' := Nat.mul_pos hn (Nat.two_pow_pos (f + 1074).toNat)
      cases s with
      | positive =>
        cases t with
        | positive =>
          have hor := exponent_lt_or hm hn hx hy (Int.ofNat_le.mp h)
          simpa [rank, Prod.Lex.le_iff] using hor
        | negative =>
          simp only [units, UnpackedFloat.Sign.apply] at h
          omega
      | negative =>
        cases t with
        | positive => simp [rank, Prod.Lex.le_iff]
        | negative =>
          simp only [units, UnpackedFloat.Sign.apply, neg_le_neg_iff] at h
          have hor := exponent_lt_or hn hm hy hx (Int.ofNat_le.mp h)
          simpa [rank, Prod.Lex.le_iff, eq_comm] using hor

/-- What a finite double becomes when it is packed: infinite, if its exponent is too large. -/
def clip : UnpackedFloat → UnpackedFloat
  | .finite s m e hm => if 972 ≤ e then .infinity s else .finite s m e hm
  | x => x

/-- Doubles that become infinite lie beyond all that do not. -/
theorem rank_clip_le {x y : UnpackedFloat} (hx : Regular x) (hy : Regular y) (h : rank x ≤ rank y) :
    rank (clip x) ≤ rank (clip y) := by
  cases x with
  | notANumber => cases hx
  | infinity => cases hx
  | zero s =>
    cases y with
    | notANumber => cases hy
    | infinity => cases hy
    | zero t => exact h
    | finite t n f hn =>
      cases t <;> by_cases hf : 972 ≤ f <;> simp [clip, hf, rank, Prod.Lex.le_iff] at h ⊢
  | finite s m e hm =>
    cases y with
    | notANumber => cases hy
    | infinity => cases hy
    | zero t =>
      cases s <;> by_cases he : 972 ≤ e <;> simp [clip, he, rank, Prod.Lex.le_iff] at h ⊢
    | finite t n f hn =>
      cases s <;> cases t <;> by_cases he : 972 ≤ e <;> by_cases hf : 972 ≤ f <;>
        simp [clip, he, hf, rank, Prod.Lex.le_iff] at h ⊢ <;> omega

/-! ### Packing -/

/-- The exponent of a double takes 11 bits, of which the largest value stands for infinity. -/
theorem exponent_full_iff (e : Int) :
    2 ^ Format.binary64.exponentBits ≤
      (e + Format.binary64.exponentBias + Format.binary64.mantissaBitsWithoutImplicit).toNat + 1 ↔ 972 ≤ e := by
  show 2 ^ 11 ≤ (e + (1023 : Nat) + (52 : Nat)).toNat + 1 ↔ 972 ≤ e
  omega

theorem pack_normal (s : UnpackedFloat.Sign) {m : Nat} {e : Int} (hm : 0 < m) (hlow : 2 ^ 52 ≤ m) (hlt : m < 2 ^ 53)
    (he : e < 972) :
    UnpackedFloat.pack Format.binary64 (.finite s m e hm) =
      UnpackedFloat.packComponents Format.binary64 s (BitVec.ofNat 11 (e + 1075).toNat) (BitVec.ofNat 52 m) := by
  have hlog : m.log2 + 1 = Format.binary64.mantissaBits := by
    rw [(Nat.log2_eq_iff (by omega)).mpr ⟨hlow, hlt⟩]
    rfl
  unfold UnpackedFloat.pack
  dsimp only
  rw [if_neg (by rw [exponent_full_iff]; omega), if_pos hlog]
  congr 2
  show (e + (1023 : Nat) + (52 : Nat)).toNat = _
  omega

theorem pack_subnormal (s : UnpackedFloat.Sign) {m : Nat} (hm : 0 < m) (hlt : m < 2 ^ 52) :
    UnpackedFloat.pack Format.binary64 (.finite s m (-1074) hm) =
      UnpackedFloat.packComponents Format.binary64 s 0#11 (BitVec.ofNat 52 m) := by
  have hlog : m.log2 + 1 ≠ Format.binary64.mantissaBits := by
    have hdigits := (Nat.log2_lt hm.ne').mpr hlt
    show m.log2 + 1 ≠ 53
    omega
  unfold UnpackedFloat.pack
  dsimp only
  rw [if_neg (by rw [exponent_full_iff]; omega), if_neg hlog]

theorem toNat_one_append (b : BitVec 52) : (1#1 ++ b).toNat = 2 ^ 52 + b.toNat := by
  have hor := Nat.two_pow_add_eq_or_of_lt b.isLt 1
  rw [BitVec.toNat_append, Nat.shiftLeft_eq, Nat.mul_comm]
  exact hor.symm

/-- **Packing** loses nothing of a finite double but that it may become infinite. -/
theorem unpack_pack {x : UnpackedFloat} (hx : Regular x) :
    UnpackedFloat.unpack Format.binary64 (UnpackedFloat.pack Format.binary64 x) = clip x := by
  cases x with
  | notANumber => cases hx
  | infinity => cases hx
  | zero s => exact UnpackedFloat.unpack_packedZero
  | finite s m e hm =>
    obtain ⟨he, hlt, hfull⟩ := hx
    by_cases hlarge : 972 ≤ e
    · have hpack : UnpackedFloat.pack Format.binary64 (.finite s m e hm) =
          UnpackedFloat.packedInfinity Format.binary64 s := by
        unfold UnpackedFloat.pack
        exact if_pos ((exponent_full_iff e).mpr hlarge)
      rw [hpack, clip, if_pos hlarge]
      unfold UnpackedFloat.unpack UnpackedFloat.packedInfinity
      simp
    rw [clip, if_neg hlarge]
    by_cases hnormal : 2 ^ 52 ≤ m
    · rw [pack_normal s hm hnormal hlt (by omega)]
      unfold UnpackedFloat.unpack
      simp only [UnpackedFloat.unpackMantissa_packComponents, UnpackedFloat.unpackExponent_packComponents,
        UnpackedFloat.unpackSign_packComponents, UnpackedFloat.Sign.ofBitVec_toBitVec]
      have hexponent : (BitVec.ofNat 11 (e + 1075).toNat).toNat = (e + 1075).toNat := by
        rw [BitVec.toNat_ofNat, Nat.mod_eq_of_lt (by omega)]
      have hfull : BitVec.ofNat 11 (e + 1075).toNat ≠ -1#11 := by
        rw [ne_eq, ← BitVec.toNat_inj, hexponent, show (-1#11).toNat = 2047 by decide]
        omega
      have hempty : BitVec.ofNat 11 (e + 1075).toNat ≠ 0#11 := by
        rw [ne_eq, ← BitVec.toNat_inj, hexponent, show (0#11).toNat = 0 by decide]
        omega
      -- the leading digit, which is left out in the packed form, is put back
      have hmantissa : (1#1 ++ BitVec.ofNat 52 m).toNat = m := by
        rw [toNat_one_append, BitVec.toNat_ofNat]
        omega
      rw [if_neg hfull, if_neg hempty]
      simp only [hmantissa, hexponent]
      congr 1
      show ((e + 1075).toNat : Int) - ((1023 : Nat) + (52 : Nat)) = e
      omega
    · obtain rfl : e = -1074 := hfull.resolve_right hnormal
      rw [pack_subnormal s hm (by omega)]
      unfold UnpackedFloat.unpack
      simp only [UnpackedFloat.unpackMantissa_packComponents, UnpackedFloat.unpackExponent_packComponents,
        UnpackedFloat.unpackSign_packComponents, UnpackedFloat.Sign.ofBitVec_toBitVec]
      have hmantissa : (BitVec.ofNat 52 m).toNat = m := by
        rw [BitVec.toNat_ofNat, Nat.mod_eq_of_lt (by omega)]
      have hsome : BitVec.ofNat 52 m ≠ 0#52 := by
        rw [ne_eq, ← BitVec.toNat_inj, hmantissa]
        exact hm.ne'
      rw [if_neg (by decide), if_pos trivial, dif_neg hsome]
      simp only [hmantissa]
      rfl

/-- What is unpacked is a finite double in its form, infinite, or no number. -/
theorem regular_unpack (b : BitVec Format.binary64.numBits)
    (hfinite : (UnpackedFloat.unpack Format.binary64 b).isFinite = true) :
    Regular (UnpackedFloat.unpack Format.binary64 b) := by
  unfold UnpackedFloat.unpack at hfinite ⊢
  dsimp only at hfinite ⊢
  split
  case isTrue hspecial =>
    rw [if_pos hspecial] at hfinite
    split at hfinite <;> cases hfinite
  case isFalse hfull =>
    split
    case isTrue hempty =>
      split
      · trivial
      · have hexponent : ((UnpackedFloat.unpackExponent b).toNat : Int) -
            (Format.binary64.exponentBias + Format.binary64.mantissaBitsWithoutImplicit) + 1 = -1074 := by
          rw [hempty]
          rfl
        have hlt : (UnpackedFloat.unpackMantissa b).toNat < 2 ^ 52 := BitVec.isLt _
        exact ⟨hexponent.ge, hlt.trans (by decide), .inl hexponent⟩
    case isFalse hempty =>
      have hpos : 0 < (UnpackedFloat.unpackExponent b).toNat := by
        refine Nat.pos_of_ne_zero fun hzero => hempty ?_
        rw [← BitVec.toNat_inj, hzero]
        rfl
      have hlt : (UnpackedFloat.unpackMantissa b).toNat < 2 ^ 52 := BitVec.isLt _
      have hmantissa :
          (1#1 ++ UnpackedFloat.unpackMantissa b).toNat = 2 ^ 52 + (UnpackedFloat.unpackMantissa b).toNat :=
        toNat_one_append _
      refine ⟨?_, by omega, .inr (by omega)⟩
      show -1074 ≤ ((UnpackedFloat.unpackExponent b).toNat : Int) - ((1023 : Nat) + (52 : Nat))
      omega

/-! ### Comparing -/

theorem units_eq_of_rank_eq {x y : UnpackedFloat} (h : rank x = rank y) : units x = units y := by
  cases x with
  | finite s m e hm =>
    cases y with
    | finite t n f hn =>
      cases s <;> cases t <;> simp [rank] at h
      all_goals
        obtain ⟨rfl, rfl⟩ := h
        rfl
    | infinity t => cases s <;> cases t <;> simp [rank] at h
    | _ => cases s <;> simp [rank] at h
  | infinity s =>
    cases y with
    | finite t n f hn => cases s <;> cases t <;> simp [rank] at h
    | _ => rfl
  | _ =>
    cases y with
    | finite t n f hn => cases t <;> simp [rank] at h
    | _ => rfl

theorem units_le_of_rank_le {x y : UnpackedFloat} (hx : Regular x) (hy : Regular y) (h : rank x ≤ rank y) :
    units x ≤ units y := by
  by_contra hlt
  have hback := rank_le_of_units_le hy hx (by omega)
  exact hlt (units_eq_of_rank_eq (le_antisymm h hback)).le

theorem swap_then_compare (e f : Int) (m n : Nat) :
    (compare f e).then (compare n m) = ((compare e f).then (compare m n)).swap := by
  rw [Ordering.swap_then, ← Std.OrientedCmp.eq_swap, ← Std.OrientedCmp.eq_swap]

theorem isLE_eq_not_swap (o : Ordering) : o.isLE = !(o.swap == .lt) := by
  cases o <;> rfl

/-- Of two numbers one is no larger iff the other one is not smaller. -/
theorem le_eq_not_lt {a b : UnpackedFloat} (ha : a.isNaN = false) (hb : b.isNaN = false) : a.le b = !b.lt a := by
  cases a with
  | notANumber => cases ha
  | infinity s =>
    cases b with
    | notANumber => cases hb
    | infinity t => cases s <;> cases t <;> rfl
    | finite t => cases s <;> cases t <;> rfl
    | zero t => cases s <;> rfl
  | zero s =>
    cases b with
    | notANumber => cases hb
    | zero t => rfl
    | infinity t => cases t <;> rfl
    | finite t => cases t <;> rfl
  | finite s m e hm =>
    cases b with
    | notANumber => cases hb
    | infinity t => cases s <;> cases t <;> rfl
    | zero t => cases s <;> rfl
    | finite t n f hn =>
      cases s with
      | positive =>
        cases t with
        | positive =>
          show ((compare e f).then (compare m n)).isLE = !((compare f e).then (compare n m) == .lt)
          rw [swap_then_compare e f, isLE_eq_not_swap]
        | negative => rfl
      | negative =>
        cases t with
        | positive => rfl
        | negative =>
          show ((compare e f).then (compare m n)).swap.isLE = !(((compare f e).then (compare n m)).swap == .lt)
          rw [swap_then_compare e f, isLE_eq_not_swap]

/-- **Doubles are no larger than those of no lower rank**, if both of them are numbers. -/
theorem le_iff {a b : UnpackedFloat} : a.le b = true ↔ a.isNaN = false ∧ b.isNaN = false ∧ rank a ≤ rank b := by
  cases ha : a.isNaN with
  | true =>
    obtain rfl := UnpackedFloat.isNaN_iff.mp ha
    simp [UnpackedFloat.le, UnpackedFloat.compare]
  | false =>
    cases hb : b.isNaN with
    | true =>
      obtain rfl := UnpackedFloat.isNaN_iff.mp hb
      cases a <;> simp [UnpackedFloat.le, UnpackedFloat.compare]
    | false =>
      rw [le_eq_not_lt ha hb, Bool.not_eq_true', Bool.eq_false_iff, ne_eq, lt_iff]
      simp [ha, hb]

theorem isNaN_clip {x : UnpackedFloat} (hx : Regular x) : (clip x).isNaN = false := by
  cases x with
  | notANumber => cases hx
  | infinity => cases hx
  | zero s => rfl
  | finite s m e hm =>
    unfold clip
    dsimp only
    split <;> rfl

end UnpackedFloat

/-! ## Doubles -/

/-- **Scores whose differences keep their order**, as long as they are finite: if what one score leaves of a number is
no more than some bound, so is what a score leaves that is no lower. -/
class Score.Subtractive (α : Type) [Score α] : Prop where
  isNaN_of_isFinite : ∀ {a : α}, isFinite a = true → isNaN a = false
  le_sub : ∀ {best a b d : α}, isFinite best = true → isFinite a = true → isFinite b = true → lt a b = false →
    le (best - b) d = true → le (best - a) d = true

theorem Float.isNaN_of_isFinite {a : Float} (h : Score.isFinite a = true) : Score.isNaN a = false := by
  have hmodel : a.toModel.unpack.isFinite = true := h
  show a.toModel.unpack.isNaN = false
  cases hunpack : a.toModel.unpack with
  | notANumber =>
    rw [hunpack] at hmodel
    cases hmodel
  | _ => rfl

theorem Float.le_iff {a b : Float} : Score.le a b = true ↔
    Score.isNaN a = false ∧ Score.isNaN b = false ∧
      UnpackedFloat.rank a.toModel.unpack ≤ UnpackedFloat.rank b.toModel.unpack := by
  have hle : Score.le a b = a.toModel.unpack.le b.toModel.unpack := by
    show decide (decide (a.toModel.unpack.le b.toModel.unpack = true) = true) = _
    rw [Bool.decide_eq_true, Bool.decide_eq_true]
  rw [hle]
  exact UnpackedFloat.le_iff

/-- The difference of finite doubles, unpacked. -/
theorem Float.unpack_sub {a b : Float} (ha : Score.isFinite a = true) (hb : Score.isFinite b = true) :
    ∃ difference, UnpackedFloat.Regular difference ∧
      UnpackedFloat.units difference =
        nearestInt (UnpackedFloat.units a.toModel.unpack - UnpackedFloat.units b.toModel.unpack) ∧
      (a - b).toModel.unpack = UnpackedFloat.clip difference := by
  obtain ⟨hregular, hunits⟩ := UnpackedFloat.sub_spec (UnpackedFloat.regular_unpack _ ha)
    (UnpackedFloat.regular_unpack _ hb)
  exact ⟨_, hregular, hunits, UnpackedFloat.unpack_pack hregular⟩

instance : Score.Subtractive Float where
  isNaN_of_isFinite := Float.isNaN_of_isFinite
  le_sub := by
    intro best a b d hbest ha hb hab hle
    obtain ⟨x, hx, hxunits, hxsub⟩ := Float.unpack_sub hbest ha
    obtain ⟨y, hy, hyunits, hysub⟩ := Float.unpack_sub hbest hb
    have hba : UnpackedFloat.rank b.toModel.unpack ≤ UnpackedFloat.rank a.toModel.unpack := by
      rw [← not_lt]
      intro hlt
      rw [Float.lt_iff.mpr ⟨Float.isNaN_of_isFinite ha, Float.isNaN_of_isFinite hb, hlt⟩] at hab
      cases hab
    have hunits := UnpackedFloat.units_le_of_rank_le (UnpackedFloat.regular_unpack _ hb)
      (UnpackedFloat.regular_unpack _ ha) hba
    have hdifference : UnpackedFloat.units x ≤ UnpackedFloat.units y := by
      rw [hxunits, hyunits]
      exact nearestInt_mono (Int.sub_le_sub_left hunits _)
    have hrank : UnpackedFloat.rank (best - a).toModel.unpack ≤ UnpackedFloat.rank (best - b).toModel.unpack := by
      rw [hxsub, hysub]
      exact UnpackedFloat.rank_clip_le hx hy (UnpackedFloat.rank_le_of_units_le hx hy hdifference)
    obtain ⟨-, hd, hle⟩ := Float.le_iff.mp hle
    refine Float.le_iff.mpr ⟨?_, hd, hrank.trans hle⟩
    show (best - a).toModel.unpack.isNaN = false
    rw [hxsub]
    exact UnpackedFloat.isNaN_clip hx

end Parlance
