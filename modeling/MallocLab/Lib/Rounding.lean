import Mathlib.Data.Int.Log
import Mathlib.Algebra.Order.Floor.Ring
import Mathlib.Tactic

set_option autoImplicit false

/-! # Rounding to a floating-point format

A format has a precision `p` and a least exponent `emin`; its numbers are the multiples `k * 2 ^ e`
with `|k| < 2 ^ p` and `emin ≤ e`. A number is rounded to the nearest one, and of two to the one
with the even last digit (`toFormat`). There is no largest exponent here.

Everything rests on one question on integers, when `M ≤ roundEven x`, and the answer depends on
whether `M` is even (`le_roundEven_even`, `le_roundEven_odd`). Rounding is then exact on the
numbers of the format (`toFormat_of_mem`) and monotone (`toFormat_mono`), and what rounds up to a
given number is known exactly (`le_toFormat_even`, `le_toFormat_odd`).
-/

namespace Rounding

variable {K : Type} [Field K] [LinearOrder K] [IsStrictOrderedRing K] [FloorRing K]

/-! ## To an integer -/

/-- The nearest integer, and of two the even one. -/
def roundEven (x : K) : Int :=
  if 2 * (x - ⌊x⌋) < 1 ∨ 2 * (x - ⌊x⌋) = 1 ∧ ⌊x⌋ % 2 = 0 then ⌊x⌋ else ⌊x⌋ + 1

theorem le_roundEven_even {M : Int} (hM : M % 2 = 0) (x : K) :
    M ≤ roundEven x ↔ 2 * (M : K) - 1 ≤ 2 * x := by
  have hfloor := Int.floor_le x
  have hnext := Int.lt_floor_add_one x
  unfold roundEven
  by_cases hdown : 2 * (x - ⌊x⌋) < 1 ∨ 2 * (x - ⌊x⌋) = 1 ∧ ⌊x⌋ % 2 = 0
  · rw [if_pos hdown]
    constructor
    · intro h
      have hcast : (M : K) ≤ ⌊x⌋ := by exact_mod_cast h
      linarith
    · intro h
      by_contra hlt
      have hcast : (⌊x⌋ : K) + 1 ≤ M := by exact_mod_cast not_le.mp hlt
      rcases hdown with hbelow | ⟨htie, heven⟩
      · linarith
      · -- a tie, and `M` is the odd one of the two
        have heq : (M : K) = ((⌊x⌋ + 1 : Int) : K) := by
          push_cast
          linarith
        have hM' : M = ⌊x⌋ + 1 := by exact_mod_cast heq
        omega
  · rw [if_neg hdown]
    have habove : 1 ≤ 2 * (x - ⌊x⌋) := not_lt.mp fun h => hdown (Or.inl h)
    constructor
    · intro h
      have hcast : (M : K) ≤ ⌊x⌋ + 1 := by exact_mod_cast h
      linarith
    · intro h
      have hcast : (M : K) < ((⌊x⌋ + 2 : Int) : K) := by
        push_cast
        linarith
      have hlt : M < ⌊x⌋ + 2 := by exact_mod_cast hcast
      omega

theorem le_roundEven_odd {M : Int} (hM : M % 2 = 1) (x : K) :
    M ≤ roundEven x ↔ 2 * (M : K) - 1 < 2 * x := by
  have hfloor := Int.floor_le x
  have hnext := Int.lt_floor_add_one x
  unfold roundEven
  by_cases hdown : 2 * (x - ⌊x⌋) < 1 ∨ 2 * (x - ⌊x⌋) = 1 ∧ ⌊x⌋ % 2 = 0
  · rw [if_pos hdown]
    have hbelow : 2 * (x - ⌊x⌋) ≤ 1 := hdown.elim le_of_lt fun h => le_of_eq h.1
    constructor
    · intro h
      have hcast : (M : K) ≤ ⌊x⌋ := by exact_mod_cast h
      linarith
    · intro h
      have hcast : (M : K) < ((⌊x⌋ + 1 : Int) : K) := by
        push_cast
        linarith
      have hlt : M < ⌊x⌋ + 1 := by exact_mod_cast hcast
      omega
  · rw [if_neg hdown]
    have habove : 1 ≤ 2 * (x - ⌊x⌋) := not_lt.mp fun h => hdown (Or.inl h)
    constructor
    · intro h
      rcases eq_or_lt_of_le habove with htie | habove
      · -- a tie that goes up, so the floor is odd and is not the number before `M`
        have hodd : ⌊x⌋ % 2 ≠ 0 := fun heven => hdown (Or.inr ⟨htie.symm, heven⟩)
        have hle : M ≤ ⌊x⌋ := by omega
        have hcast : (M : K) ≤ ⌊x⌋ := by exact_mod_cast hle
        linarith
      · have hcast : (M : K) ≤ ⌊x⌋ + 1 := by exact_mod_cast h
        linarith
    · intro h
      have hcast : (M : K) < ((⌊x⌋ + 2 : Int) : K) := by
        push_cast
        linarith
      have hlt : M < ⌊x⌋ + 2 := by exact_mod_cast hcast
      omega

theorem roundEven_mono {x y : K} (h : x ≤ y) : roundEven x ≤ roundEven y := by
  rcases Int.emod_two_eq_zero_or_one (roundEven x) with heven | hodd
  · have hx := (le_roundEven_even heven x).mp (le_refl _)
    exact (le_roundEven_even heven y).mpr (by linarith)
  · have hx := (le_roundEven_odd hodd x).mp (le_refl _)
    exact (le_roundEven_odd hodd y).mpr (by linarith)

@[simp] theorem roundEven_intCast (k : Int) : roundEven (k : K) = k := by
  simp [roundEven]

theorem roundEven_le {x : K} {k : Int} (h : x ≤ k) : roundEven x ≤ k := by
  calc roundEven x ≤ roundEven (k : K) := roundEven_mono h
    _ = k := roundEven_intCast k

theorem le_roundEven {x : K} {k : Int} (h : k ≤ x) : k ≤ roundEven x := by
  calc k = roundEven (k : K) := (roundEven_intCast k).symm
    _ ≤ roundEven x := roundEven_mono h

/-! ## To a format -/

/-- The exponent of the last digit of `x`. -/
def lastDigit (p : Nat) (emin : Int) (x : K) : Int := max (Int.log 2 |x| + 1 - p) emin

/-- The distance of the numbers of the format around `x`. -/
def ulp (p : Nat) (emin : Int) (x : K) : K := 2 ^ lastDigit p emin x

def toFormat (p : Nat) (emin : Int) (x : K) : K :=
  roundEven (x / ulp p emin x) * ulp p emin x

section Format

variable {p : Nat} {emin : Int}

theorem ulp_pos (x : K) : 0 < ulp p emin x := zpow_pos two_pos _

/-- What is at most a multiple of the last digit stays so. -/
theorem toFormat_le {x : K} {k : Int} (h : x ≤ k * ulp p emin x) :
    toFormat p emin x ≤ k * ulp p emin x := by
  have hround : roundEven (x / ulp p emin x) ≤ k :=
    roundEven_le ((div_le_iff₀ (ulp_pos x)).mpr h)
  exact mul_le_mul_of_nonneg_right (by exact_mod_cast hround) (ulp_pos x).le

theorem le_toFormat {x : K} {k : Int} (h : k * ulp p emin x ≤ x) :
    k * ulp p emin x ≤ toFormat p emin x := by
  have hround : k ≤ roundEven (x / ulp p emin x) :=
    le_roundEven ((le_div_iff₀ (ulp_pos x)).mpr h)
  exact mul_le_mul_of_nonneg_right (by exact_mod_cast hround) (ulp_pos x).le

omit [IsStrictOrderedRing K] in
/-- A multiple of a higher digit is one of the last digit. -/
theorem zpow_eq_mul_ulp {x : K} {e : Int} (he : lastDigit p emin x ≤ e) (k : Int) :
    ∃ k' : Int, (k : K) * 2 ^ e = k' * ulp p emin x := by
  obtain ⟨j, hj⟩ := Int.le.dest he
  refine ⟨k * 2 ^ j, ?_⟩
  rw [← hj, zpow_add₀ two_ne_zero, zpow_natCast, ulp]
  push_cast
  ring

/-- **Exact** on the numbers of the format. -/
theorem toFormat_of_mem {x : K} {k e : Int} (hx : x = k * 2 ^ e) (hk : |k| < 2 ^ p)
    (he : emin ≤ e) : toFormat p emin x = x := by
  by_cases h0 : x = 0
  · simp [toFormat, h0, roundEven]
  have hlast : lastDigit p emin x ≤ e := by
    refine max_le ?_ he
    have hlt : |x| < 2 ^ ((p : Int) + e) := by
      calc |x| = |(k : K)| * 2 ^ e := by
            rw [hx, abs_mul, abs_of_pos (zpow_pos (two_pos (α := K)) e)]
        _ < 2 ^ p * 2 ^ e := by
            refine mul_lt_mul_of_pos_right ?_ (zpow_pos two_pos e)
            exact_mod_cast hk
        _ = 2 ^ ((p : Int) + e) := by rw [zpow_add₀ two_ne_zero, zpow_natCast]
    have hlog := (Int.lt_zpow_iff_log_lt (b := 2) (by decide) (abs_pos.mpr h0)).mp
      (by exact_mod_cast hlt)
    omega
  obtain ⟨k', hk'⟩ := zpow_eq_mul_ulp hlast k
  rw [← hx] at hk'
  have hdiv : x / ulp p emin x = k' := (div_eq_iff (ulp_pos x).ne').mpr hk'
  rw [toFormat, hdiv, roundEven_intCast, ← hk']

theorem toFormat_zero : toFormat p emin (0 : K) = 0 := by
  simp [toFormat, roundEven]

theorem toFormat_nonneg {x : K} (hx : 0 ≤ x) : 0 ≤ toFormat p emin x := by
  have hzero : ((0 : Int) : K) * ulp p emin x ≤ x := by simpa using hx
  simpa using le_toFormat hzero

/-- **Monotone**, on the numbers from 0 up. Where the last digit changes there is a power of two
in between, which is in the format. -/
theorem toFormat_mono (hp : 1 ≤ p) {x y : K} (hx : 0 ≤ x) (hxy : x ≤ y) :
    toFormat p emin x ≤ toFormat p emin y := by
  rcases eq_or_lt_of_le hx with rfl | hpos
  · rw [toFormat_zero]
    exact toFormat_nonneg hxy
  have hposy := hpos.trans_le hxy
  have hlog : Int.log 2 |x| ≤ Int.log 2 |y| := by
    rw [abs_of_pos hpos, abs_of_pos hposy]
    exact Int.log_mono_right hpos hxy
  by_cases hsame : lastDigit p emin x = lastDigit p emin y
  · rw [toFormat, toFormat, ulp, ulp, hsame]
    refine mul_le_mul_of_nonneg_right ?_ (zpow_pos two_pos _).le
    exact_mod_cast roundEven_mono (div_le_div_of_nonneg_right hxy (zpow_pos two_pos _).le)
  · -- the exponents differ, and the power of two at that of `y` is in between
    have hdigits : lastDigit p emin x ≤ Int.log 2 |y| ∧ lastDigit p emin y ≤ Int.log 2 |y| ∧
        Int.log 2 |x| + 1 ≤ Int.log 2 |y| := by
      unfold lastDigit at hsame ⊢
      omega
    obtain ⟨hdx, hdy, hless⟩ := hdigits
    obtain ⟨k, hk⟩ := zpow_eq_mul_ulp (x := x) hdx 1
    obtain ⟨k', hk'⟩ := zpow_eq_mul_ulp (x := y) hdy 1
    rw [Int.cast_one, one_mul] at hk hk'
    have hbelow : x ≤ 2 ^ Int.log 2 |y| := by
      calc x ≤ 2 ^ (Int.log 2 |x| + 1) := by
            have hlt := Int.lt_zpow_succ_log_self (b := 2) (by decide) |x|
            rw [abs_of_pos hpos] at hlt ⊢
            exact_mod_cast hlt.le
        _ ≤ 2 ^ Int.log 2 |y| := zpow_le_zpow_right₀ one_le_two hless
    have habove : 2 ^ Int.log 2 |y| ≤ y := by
      have hle := Int.zpow_log_le_self (b := 2) (by decide) hposy
      rw [abs_of_pos hposy]
      exact_mod_cast hle
    calc toFormat p emin x ≤ k * ulp p emin x := toFormat_le (hk ▸ hbelow)
      _ = k' * ulp p emin y := hk.symm.trans hk'
      _ ≤ toFormat p emin y := le_toFormat (hk' ▸ habove)

/-- What does not reach a multiple of the last digit stays a digit below. -/
theorem toFormat_le_pred {x : K} {M : Int} (h : toFormat p emin x < M * ulp p emin x) :
    toFormat p emin x ≤ M * ulp p emin x - ulp p emin x := by
  have hpos : 0 < ulp p emin x := ulp_pos x
  have hlt : roundEven (x / ulp p emin x) < M := by
    rw [toFormat, mul_lt_mul_iff_left₀ hpos] at h
    exact_mod_cast h
  have hcast : (roundEven (x / ulp p emin x) : K) ≤ M - 1 := by
    exact_mod_cast Int.le_sub_one_of_lt hlt
  calc toFormat p emin x ≤ (M - 1) * ulp p emin x :=
        mul_le_mul_of_nonneg_right hcast hpos.le
    _ = M * ulp p emin x - ulp p emin x := by ring

/-- What rounds up to an even multiple of the last digit, or beyond. -/
theorem le_toFormat_even {M : Int} (hM : M % 2 = 0) (x : K) :
    M * ulp p emin x ≤ toFormat p emin x ↔ M * ulp p emin x - ulp p emin x / 2 ≤ x := by
  have hpos : 0 < ulp p emin x := ulp_pos x
  rw [toFormat, mul_le_mul_iff_left₀ hpos, Int.cast_le, le_roundEven_even hM, mul_div_assoc',
    le_div_iff₀ hpos]
  constructor <;> intro h <;> linarith

theorem le_toFormat_odd {M : Int} (hM : M % 2 = 1) (x : K) :
    M * ulp p emin x ≤ toFormat p emin x ↔ M * ulp p emin x - ulp p emin x / 2 < x := by
  have hpos : 0 < ulp p emin x := ulp_pos x
  rw [toFormat, mul_le_mul_iff_left₀ hpos, Int.cast_le, le_roundEven_odd hM, mul_div_assoc',
    lt_div_iff₀ hpos]
  constructor <;> intro h <;> linarith

/-- The last digit of a number between two powers of two. -/
theorem ulp_eq {x : K} {e : Int} (hlow : 2 ^ e ≤ x) (hhigh : x < 2 ^ (e + 1))
    (he : emin ≤ e + 1 - p) : ulp p emin x = 2 ^ (e + 1 - p) := by
  have hpos : 0 < x := lt_of_lt_of_le (zpow_pos two_pos e) hlow
  have hlog : Int.log 2 |x| = e := by
    rw [abs_of_pos hpos]
    refine le_antisymm ?_ ?_
    · have hlt := (Int.lt_zpow_iff_log_lt (b := 2) (x := e + 1) (by decide) hpos).mp
        (by exact_mod_cast hhigh)
      omega
    · exact (Int.zpow_le_iff_le_log (b := 2) (by decide) hpos).mp (by exact_mod_cast hlow)
  rw [ulp, lastDigit, hlog, max_eq_left he]

end Format

/-! ## binary64 -/

/-- The nearest double. -/
def double (x : K) : K := toFormat 53 (-1074) x

theorem double_nonneg {x : K} (hx : 0 ≤ x) : 0 ≤ double x := toFormat_nonneg hx

theorem double_mono {x y : K} (hx : 0 ≤ x) (hxy : x ≤ y) : double x ≤ double y :=
  toFormat_mono (by decide) hx hxy

/-- The last digit of a double near `x`. -/
def digit (x : K) : K := ulp 53 (-1074) x

theorem digit_eq {x : K} {e : Int} (hlow : 2 ^ e ≤ x) (hhigh : x < 2 ^ (e + 1))
    (he : -1022 ≤ e) : digit x = 2 ^ (e - 52) := by
  rw [digit, ulp_eq hlow hhigh (by omega)]
  congr 1
  omega

theorem le_double_even {M : Int} (hM : M % 2 = 0) (x : K) :
    M * digit x ≤ double x ↔ M * digit x - digit x / 2 ≤ x := le_toFormat_even hM x

theorem le_double_odd {M : Int} (hM : M % 2 = 1) (x : K) :
    M * digit x ≤ double x ↔ M * digit x - digit x / 2 < x := le_toFormat_odd hM x

theorem double_le_pred {x : K} {M : Int} (h : double x < M * digit x) :
    double x ≤ M * digit x - digit x := toFormat_le_pred h

/-- **Exact** on `k * 2 ^ e`. -/
theorem double_of_mem {x : K} {k e : Int} (hx : x = k * 2 ^ e) (hk : |k| < 2 ^ 53)
    (he : -1074 ≤ e) : double x = x := toFormat_of_mem hx hk he

theorem double_intCast {k : Int} (hk : |k| < 2 ^ 53) : double (k : K) = k :=
  toFormat_of_mem (e := 0) (by rw [zpow_zero, mul_one]) hk (by decide)

theorem double_natCast {n : Nat} (hn : n < 2 ^ 53) : double (n : K) = n := by
  have h := double_intCast (K := K) (k := n) (by rw [Nat.abs_cast]; exact_mod_cast hn)
  simpa using h

end Rounding
