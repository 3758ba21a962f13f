import Mathlib.Data.Int.Log
import Mathlib.Data.Rat.Floor
import Mathlib.Tactic.Linarith
import Mathlib.Tactic.NormNum
import Mathlib.Tactic.Positivity
import Mathlib.Tactic.Ring

/-! # Rounding to binary64

    The numbers of the format with 53 significant bits, among the rationals.
    `nearest` rounds to the nearest of them, and to the one with the even last
    bit if two are equally near.  `Holds` says that a number is in the format.

    Integers up to `2 ^ 53` are in the format, so that sums of integers are
    exact as long as they stay below this bound (`nearest_intCast`).  Beyond
    it rounding still keeps integers on their side of it (`le_nearest`,
    `nearest_le`).
-/

namespace Binary64

/-! ### Rounding to an integer -/

/-- The nearest integer, the even one of two. -/
def roundEven (x : ℚ) : ℤ :=
  if x - ⌊x⌋ < 1 / 2 ∨ (x - ⌊x⌋ = 1 / 2 ∧ ⌊x⌋ % 2 = 0) then ⌊x⌋ else ⌊x⌋ + 1

@[simp] theorem roundEven_intCast (n : ℤ) : roundEven n = n := by
  simp [roundEven]

/-- Rounding does not pass an integer on the way down. -/
theorem le_roundEven {k : ℤ} {x : ℚ} (h : k ≤ x) : k ≤ roundEven x := by
  have hfloor : k ≤ ⌊x⌋ := Int.le_floor.mpr h
  unfold roundEven
  split <;> omega

/-- Nor on the way up. -/
theorem roundEven_le {k : ℤ} {x : ℚ} (h : x ≤ k) : roundEven x ≤ k := by
  have hfloor : ⌊x⌋ ≤ k := Int.cast_le.mp ((Int.floor_le x).trans h)
  by_cases hk : ⌊x⌋ = k
  · -- then `x` is the integer itself
    have hx : x = k := le_antisymm h (hk ▸ Int.floor_le x)
    rw [hx, roundEven_intCast]
  · unfold roundEven
    split <;> omega

/-! ### The format -/

/-- The exponent of the last bit of the numbers of the format around `q`. -/
def exponent (q : ℚ) : ℤ := max (Int.log 2 |q| - 52) (-1074)

/-- Their distance. -/
def ulp (q : ℚ) : ℚ := 2 ^ exponent q

/-- The number of the format that is nearest to `q`, in an unbounded range. -/
def nearest (q : ℚ) : ℚ := roundEven (q / ulp q) * ulp q

/-- Is the number too large for the format? -/
def overflows (q : ℚ) : Bool := decide (2 ^ 1024 ≤ |nearest q|)

/-- The number is one of the format. -/
def Holds (q : ℚ) : Prop := nearest q = q ∧ overflows q = false

instance (q : ℚ) : Decidable (Holds q) := inferInstanceAs (Decidable (_ ∧ _))

example : nearest (1 / 10) = 3602879701896397 / 36028797018963968 := by decide +kernel

theorem ulp_pos (q : ℚ) : 0 < ulp q := zpow_pos (by norm_num) _

/-- Multiples of the distance are not rounded. -/
theorem nearest_of_multiple {q : ℚ} {m : ℤ} (h : q = m * ulp q) : nearest q = q := by
  have hdiv : q / ulp q = m := (eq_div_of_mul_eq (ulp_pos q).ne' h.symm).symm
  rw [nearest, hdiv, roundEven_intCast, ← h]

theorem zpow_log_le {q : ℚ} (h : q ≠ 0) : 2 ^ Int.log 2 |q| ≤ |q| :=
  Int.zpow_log_le_self (by decide) (abs_pos.mpr h)

/-- **Numbers of 53 significant bits are not rounded.** -/
theorem nearest_mul_zpow {m e : ℤ} (hm : |m| ≤ 2 ^ 53) (he : -1074 ≤ e) :
    nearest (m * 2 ^ e) = m * 2 ^ e := by
  by_cases hzero : m = 0
  · subst hzero
    exact nearest_of_multiple (m := 0) (by simp)
  have hpow : (0 : ℚ) < 2 ^ e := zpow_pos (by norm_num) e
  have hne : (m : ℚ) * 2 ^ e ≠ 0 := mul_ne_zero (Int.cast_ne_zero.mpr hzero) hpow.ne'
  have habs : |(m : ℚ) * 2 ^ e| = |(m : ℚ)| * 2 ^ e := by
    rw [abs_mul, abs_of_pos hpow]
  have hlow := zpow_log_le hne
  have hexp : exponent (m * 2 ^ e) = max (Int.log 2 |(m : ℚ) * 2 ^ e| - 52) (-1074) := rfl
  generalize Int.log 2 |(m : ℚ) * 2 ^ e| = l at hlow hexp
  have hbound : |(m : ℚ)| * 2 ^ e ≤ 2 ^ (53 + e) := by
    rw [zpow_add₀ (by norm_num)]
    exact mul_le_mul_of_nonneg_right (by exact_mod_cast hm) hpow.le
  have hl : l ≤ 53 + e := by
    rw [habs] at hlow
    exact (zpow_le_zpow_iff_right₀ (by norm_num : (1 : ℚ) < 2)).mp (hlow.trans hbound)
  -- the last bit of the format is not behind that of the number, except at `2 ^ 53`
  by_cases hlast : l = 53 + e
  · obtain ⟨k, rfl⟩ : ∃ k, m = k * 2 := by
      have hlarge : (2 ^ 53 : ℚ) * 2 ^ e ≤ |(m : ℚ)| * 2 ^ e := by
        rw [hlast, habs, zpow_add₀ (by norm_num)] at hlow
        exact hlow
      have hm' : (2 ^ 53 : ℤ) ≤ |m| := by
        exact_mod_cast le_of_mul_le_mul_right hlarge hpow
      have heven := le_antisymm hm hm'
      rcases abs_choice m with heq | heq <;> exact ⟨m / 2, by omega⟩
    refine nearest_of_multiple (m := k) ?_
    rw [ulp, hexp, hlast, show max (53 + e - 52) (-1074) = e + 1 by omega,
      zpow_add₀ (by norm_num)]
    push_cast
    ring
  · obtain ⟨j, hj⟩ : ∃ j : ℕ, e = exponent (m * 2 ^ e) + j :=
      ⟨(e - exponent (m * 2 ^ e)).toNat, by omega⟩
    refine nearest_of_multiple (m := m * 2 ^ j) ?_
    rw [ulp]
    nth_rewrite 1 [hj]
    rw [zpow_add₀ (by norm_num), zpow_natCast]
    push_cast
    ring

/-- **Integers up to `2 ^ 53` are exact.** -/
theorem nearest_intCast {n : ℤ} (h : |n| ≤ 2 ^ 53) : nearest n = n := by
  simpa using nearest_mul_zpow h (show (-1074 : ℤ) ≤ 0 by decide)

/-- What was rounded has 53 significant bits. -/
theorem abs_roundEven_le (q : ℚ) : |roundEven (q / ulp q)| ≤ 2 ^ 53 := by
  have hdiv : |q / ulp q| ≤ 2 ^ 53 := by
    by_cases hzero : q = 0
    · simp [hzero]
    have hhigh : |q| < 2 ^ (Int.log 2 |q| + 1) := Int.lt_zpow_succ_log_self (by decide) _
    have hexp : Int.log 2 |q| + 1 ≤ 53 + exponent q := by
      unfold exponent
      omega
    rw [abs_div, abs_of_pos (ulp_pos q), div_le_iff₀ (ulp_pos q), ulp, ← zpow_natCast,
      ← zpow_add₀ (by norm_num)]
    exact hhigh.le.trans (zpow_le_zpow_right₀ (by norm_num) hexp)
  obtain ⟨hlow, hhigh⟩ := abs_le.mp hdiv
  refine abs_le.mpr ⟨le_roundEven ?_, roundEven_le ?_⟩
  · exact_mod_cast hlow
  · exact_mod_cast hhigh

/-- What was rounded is not rounded again. -/
theorem nearest_nearest (q : ℚ) : nearest (nearest q) = nearest q :=
  nearest_mul_zpow (abs_roundEven_le q) (le_max_right _ _)

theorem holds_nearest {q : ℚ} (h : overflows q = false) : Holds (nearest q) := by
  refine ⟨nearest_nearest q, ?_⟩
  rw [overflows, nearest_nearest]
  exact h

/-! ### Large numbers -/

/-- The bits before the point, for numbers that have more than 53 of them. -/
theorem le_div_ulp {q : ℚ} (h : 2 ^ 53 ≤ |q|) : 1 ≤ ulp q ∧ 2 ^ 52 ≤ |q| / ulp q := by
  have hpos : 0 < |q| := lt_of_lt_of_le (by positivity) h
  have hlog : 53 ≤ Int.log 2 |q| := by
    rw [← Int.zpow_le_iff_le_log (by decide) hpos]
    exact_mod_cast h
  have hulp : ulp q = 2 ^ (Int.log 2 |q| - 52) := by
    unfold ulp exponent
    rw [max_eq_left (by omega)]
  refine ⟨?_, ?_⟩
  · rw [hulp]
    exact one_le_zpow₀ (by norm_num) (by omega)
  · rw [le_div_iff₀ (ulp_pos q), hulp, ← zpow_natCast, ← zpow_add₀ (by norm_num)]
    have hsum : ((52 : ℕ) : ℤ) + (Int.log 2 |q| - 52) = Int.log 2 |q| := by omega
    rw [hsum]
    exact Int.zpow_log_le_self (by decide) hpos

/-- A large number stays large. -/
theorem le_nearest {q : ℚ} (h : 2 ^ 53 ≤ q) : 2 ^ 52 ≤ nearest q := by
  have habs : |q| = q := abs_of_nonneg (le_trans (by positivity) h)
  obtain ⟨hone, hdiv⟩ := le_div_ulp (habs.symm ▸ h)
  rw [habs] at hdiv
  have hround : (2 ^ 52 : ℤ) ≤ roundEven (q / ulp q) := le_roundEven (by exact_mod_cast hdiv)
  have hcast : (2 ^ 52 : ℚ) ≤ roundEven (q / ulp q) := by exact_mod_cast hround
  calc (2 ^ 52 : ℚ) = 2 ^ 52 * 1 := (mul_one _).symm
    _ ≤ nearest q := mul_le_mul hcast hone (by norm_num) (le_trans (by norm_num) hcast)

/-- The same below zero. -/
theorem nearest_le {q : ℚ} (h : q ≤ -2 ^ 53) : nearest q ≤ -2 ^ 52 := by
  have hneg : q ≤ 0 := h.trans (by norm_num)
  have habs : |q| = -q := abs_of_nonpos hneg
  obtain ⟨hone, hdiv⟩ := le_div_ulp (q := q) (by rw [habs]; linarith)
  rw [habs, neg_div] at hdiv
  have hround : roundEven (q / ulp q) ≤ (-2 ^ 52 : ℤ) :=
    roundEven_le (by push_cast; linarith)
  have hcast : (roundEven (q / ulp q) : ℚ) ≤ -2 ^ 52 := by exact_mod_cast hround
  calc nearest q ≤ (-2 ^ 52) * ulp q := mul_le_mul_of_nonneg_right hcast (ulp_pos q).le
    _ ≤ -2 ^ 52 := by nlinarith

end Binary64
