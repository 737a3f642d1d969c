import Mathlib.Data.Int.Log
import Mathlib.Data.Rat.Floor
import Mathlib.Tactic.Linarith
import Mathlib.Tactic.FieldSimp
import Mathlib.Tactic.Ring
import Mathlib.Tactic.Positivity
import Mathlib.Tactic.GCongr

/-!
# Rounding to binary64

Conversions from unsigned integers and quotients of such conversions, in the default rounding mode
(to nearest, ties to even).  The numbers that occur are between `2 ^ (-64)` and `2 ^ 64`, so neither
overflow nor subnormals are modelled, and a number is the rational it denotes.
-/

namespace Azure.Reasoning.Binary64

/-! ## Rounding to an integer -/

def roundHalfEven (q : ℚ) : ℤ :=
  let r := q - ⌊q⌋
  if r < 1 / 2 then ⌊q⌋
  else if 1 / 2 < r then ⌊q⌋ + 1
  else if ⌊q⌋ % 2 = 0 then ⌊q⌋ else ⌊q⌋ + 1

theorem roundHalfEven_error (q : ℚ) : |(roundHalfEven q : ℚ) - q| ≤ 1 / 2 := by
  have hlo := Int.floor_le q
  have hhi := Int.lt_floor_add_one q
  unfold roundHalfEven
  dsimp only
  rw [abs_le]
  split
  · next h => constructor <;> linarith
  · next h =>
    split
    · next h' => push_cast; constructor <;> linarith
    · next h' =>
      split
      · constructor <;> linarith
      · push_cast; constructor <;> linarith

theorem roundHalfEven_intCast (n : ℤ) : roundHalfEven (n : ℚ) = n := by
  unfold roundHalfEven
  rw [Int.floor_intCast, sub_self]
  exact if_pos (by norm_num)

theorem roundHalfEven_le {q : ℚ} {n : ℤ} (h : q < n) : roundHalfEven q ≤ n := by
  have hfloor : ⌊q⌋ < n := Int.floor_lt.mpr h
  unfold roundHalfEven
  dsimp only
  split_ifs <;> omega

theorem le_roundHalfEven {q : ℚ} {n : ℤ} (h : n ≤ q) : n ≤ roundHalfEven q := by
  have hfloor : n ≤ ⌊q⌋ := Int.le_floor.mpr h
  unfold roundHalfEven
  dsimp only
  split_ifs <;> omega

/-! ## Rounding to 53 significant bits -/

/-- The exponent of the last bit of a positive number's significand. -/
def lastPlace (q : ℚ) : ℤ := Int.log 2 q - 52

/-- The binary64 number nearest to a non-negative rational. -/
def round (q : ℚ) : ℚ :=
  if q = 0 then 0 else roundHalfEven (q / 2 ^ lastPlace q) * 2 ^ lastPlace q

def ofNat (n : Nat) : ℚ := round n

def mul (x y : ℚ) : ℚ := round (x * y)

def div (x y : ℚ) : ℚ := round (x / y)

private theorem two_zpow_pos (e : ℤ) : (0 : ℚ) < 2 ^ e := zpow_pos (by norm_num) e

/-- A positive number lies in the binade its last place says. -/
theorem lastPlace_bounds {q : ℚ} (hq : 0 < q) :
    (2 : ℚ) ^ (52 : ℤ) ≤ q / 2 ^ lastPlace q ∧ q / 2 ^ lastPlace q < 2 ^ (53 : ℤ) := by
  have hlo : (2 : ℚ) ^ Int.log 2 q ≤ q := by exact_mod_cast Int.zpow_log_le_self (by norm_num) hq
  have hhi : q < (2 : ℚ) ^ (Int.log 2 q + 1) := by
    exact_mod_cast Int.lt_zpow_succ_log_self (by norm_num) q
  unfold lastPlace
  rw [le_div_iff₀ (two_zpow_pos _), div_lt_iff₀ (two_zpow_pos _),
    ← zpow_add₀ (by norm_num), ← zpow_add₀ (by norm_num)]
  constructor
  · rw [show (52 : ℤ) + (Int.log 2 q - 52) = Int.log 2 q by omega]
    exact hlo
  · rw [show (53 : ℤ) + (Int.log 2 q - 52) = Int.log 2 q + 1 by omega]
    exact hhi

/-- The relative error of rounding is at most `2 ^ (-53)`. -/
theorem round_error {q : ℚ} (hq : 0 < q) : |round q - q| ≤ q / 2 ^ 53 := by
  have hulp := two_zpow_pos (lastPlace q)
  have herr := roundHalfEven_error (q / 2 ^ lastPlace q)
  have hbinade := (lastPlace_bounds hq).1
  have hscale : q = q / 2 ^ lastPlace q * 2 ^ lastPlace q := by field_simp
  unfold round
  rw [if_neg hq.ne']
  generalize hs : q / 2 ^ lastPlace q = s at *
  generalize hu : (2 : ℚ) ^ lastPlace q = u at *
  calc |(roundHalfEven s : ℚ) * u - q|
      = |((roundHalfEven s : ℚ) - s) * u| := by rw [hscale]; ring_nf
    _ = |(roundHalfEven s : ℚ) - s| * u := by rw [abs_mul, abs_of_pos hulp]
    _ ≤ 1 / 2 * u := by gcongr
    _ = 2 ^ (52 : ℤ) * u / 2 ^ 53 := by norm_num; ring
    _ ≤ s * u / 2 ^ 53 := by gcongr
    _ = q / 2 ^ 53 := by rw [← hscale]

/-- Rounding keeps a number at or above the power of two below it. -/
theorem two_zpow_log_le_round {q : ℚ} (hq : 0 < q) : (2 : ℚ) ^ Int.log 2 q ≤ round q := by
  have hbinade := (lastPlace_bounds hq).1
  have hsig : 2 ^ 52 ≤ roundHalfEven (q / 2 ^ lastPlace q) :=
    le_roundHalfEven (by exact_mod_cast hbinade)
  unfold round
  rw [if_neg hq.ne']
  calc (2 : ℚ) ^ Int.log 2 q = 2 ^ (52 : ℤ) * 2 ^ lastPlace q := by
        rw [← zpow_add₀ (by norm_num)]
        congr 1
        unfold lastPlace
        omega
    _ ≤ (roundHalfEven (q / 2 ^ lastPlace q) : ℚ) * 2 ^ lastPlace q := by
        apply mul_le_mul_of_nonneg_right _ (two_zpow_pos _).le
        exact_mod_cast hsig

theorem round_pos {q : ℚ} (hq : 0 < q) : 0 < round q :=
  lt_of_lt_of_le (two_zpow_pos _) (two_zpow_log_le_round hq)

/-- Rounding does not carry a number below one past one. -/
theorem round_le_one {q : ℚ} (hq : 0 < q) (hlt : q < 1) : round q ≤ 1 := by
  have hbinade := (lastPlace_bounds hq).2
  have hsig : roundHalfEven (q / 2 ^ lastPlace q) ≤ 2 ^ 53 :=
    roundHalfEven_le (by exact_mod_cast hbinade)
  have hlog : Int.log 2 q + 1 ≤ 0 := by
    by_contra hneg
    have hge : (2 : ℚ) ^ (0 : ℤ) ≤ 2 ^ Int.log 2 q :=
      zpow_le_zpow_right₀ (by norm_num) (by omega)
    have hle : (2 : ℚ) ^ Int.log 2 q ≤ q := by
      exact_mod_cast Int.zpow_log_le_self (by norm_num) hq
    rw [zpow_zero] at hge
    linarith
  unfold round
  rw [if_neg hq.ne']
  calc (roundHalfEven (q / 2 ^ lastPlace q) : ℚ) * 2 ^ lastPlace q
      ≤ 2 ^ (53 : ℤ) * 2 ^ lastPlace q := by
        apply mul_le_mul_of_nonneg_right _ (two_zpow_pos _).le
        exact_mod_cast hsig
    _ = 2 ^ (Int.log 2 q + 1) := by
        rw [← zpow_add₀ (by norm_num)]
        congr 1
        unfold lastPlace
        omega
    _ ≤ 2 ^ (0 : ℤ) := zpow_le_zpow_right₀ (by norm_num) hlog
    _ = 1 := zpow_zero 2

/-- Naturals of at most 53 bits are binary64 numbers. -/
theorem round_natCast {n : Nat} (hn : n < 2 ^ 53) : round (n : ℚ) = n := by
  unfold round
  split
  · next h => exact h.symm
  · next h =>
    have hpos : (0 : ℚ) < n := lt_of_le_of_ne (Nat.cast_nonneg n) (Ne.symm h)
    -- the last place is a negative power, so the scaled number is an integer
    have hplace : lastPlace (n : ℚ) ≤ 0 := by
      unfold lastPlace
      by_contra hneg
      have hle : (2 : ℚ) ^ Int.log 2 (n : ℚ) ≤ n := by
        exact_mod_cast Int.zpow_log_le_self (by norm_num) hpos
      have hge : (2 : ℚ) ^ (53 : ℤ) ≤ 2 ^ Int.log 2 (n : ℚ) :=
        zpow_le_zpow_right₀ (by norm_num) (by omega)
      have hlt : (n : ℚ) < 2 ^ (53 : ℤ) := by exact_mod_cast hn
      linarith
    obtain ⟨k, hk⟩ : ∃ k : Nat, lastPlace (n : ℚ) = -(k : ℤ) :=
      ⟨(lastPlace (n : ℚ)).natAbs, by omega⟩
    have hint : (n : ℚ) / 2 ^ lastPlace (n : ℚ) = ((n * 2 ^ k : ℤ) : ℚ) := by
      rw [hk, zpow_neg, zpow_natCast, div_inv_eq_mul]
      push_cast
      rfl
    rw [hint, roundHalfEven_intCast, ← hint]
    field_simp

/-! ## Rounding up a quotient -/

/-- Rounded up, the floating-point quotient of a natural of at most 53 bits by any positive natural
is the exact quotient rounded up. -/
theorem ceil_div_ofNat {size base : Nat} (hsize : size < 2 ^ 53) (hpos : 0 < size)
    (hbase : 0 < base) :
    ⌈div (mul 1 (ofNat size)) (ofNat base)⌉ = (((size + base - 1) / base : Nat) : ℤ) := by
  have hmul : mul 1 (ofNat size) = size := by
    rw [mul, ofNat, one_mul, round_natCast hsize, round_natCast hsize]
  rw [hmul]
  have hs : (0 : ℚ) < size := by exact_mod_cast hpos
  have hb : (0 : ℚ) < base := by exact_mod_cast hbase
  by_cases hsmall : base < 2 ^ 53
  · -- both operands are exact: the error of the quotient is less than one part in `base`
    rw [ofNat, round_natCast hsmall, div]
    have hq : (0 : ℚ) < size / base := div_pos hs hb
    have herr := round_error hq
    have hsize' : (size : ℚ) < 2 ^ 53 := by exact_mod_cast hsize
    have hlt : (size : ℚ) / base / 2 ^ 53 < 1 / base := by
      rw [div_div, mul_comm, ← div_div]
      gcongr
      rw [div_lt_one (by positivity)]
      exact hsize'
    have hdm := Nat.div_add_mod size base
    have hmod := Nat.mod_lt size hbase
    have heq : (size : ℚ) / base = (size / base : Nat) + (size % base : Nat) / (base : ℚ) := by
      rw [div_eq_iff hb.ne', add_mul, div_mul_cancel₀ _ hb.ne']
      have : (size : ℚ) = base * (size / base : Nat) + (size % base : Nat) := by
        exact_mod_cast hdm.symm
      linarith
    by_cases hr : size % base = 0
    · have hceil : (size + base - 1) / base = size / base := by
        have h := Nat.div_mul_cancel (Nat.dvd_of_mod_eq_zero hr)
        apply Nat.div_eq_of_lt_le <;> (try rw [Nat.add_mul]) <;> omega
      have hk : size / base < 2 ^ 53 := lt_of_le_of_lt (Nat.div_le_self _ _) hsize
      rw [hceil, heq, hr, Nat.cast_zero, zero_div, add_zero, round_natCast hk, Int.ceil_natCast]
    · have hceil : (size + base - 1) / base = size / base + 1 := by
        apply Nat.div_eq_of_lt_le <;> rw [Nat.add_mul] <;> (try rw [Nat.add_mul]) <;>
          rw [Nat.mul_comm (size / base) base] <;> omega
      rw [hceil, Int.ceil_eq_iff]
      rw [abs_le] at herr
      have hlow : (1 : ℚ) / base ≤ (size % base : Nat) / (base : ℚ) := by
        gcongr
        exact_mod_cast Nat.one_le_iff_ne_zero.mpr hr
      have hhigh : (size % base : Nat) / (base : ℚ) ≤ 1 - 1 / base := by
        rw [le_sub_iff_add_le, ← add_div, div_le_one hb]
        exact_mod_cast hmod
      generalize size / base = k at *
      push_cast
      constructor <;> linarith [herr.1, herr.2]
  · -- a base of more than 53 bits is larger than the size, also after its own rounding
    rw [not_lt] at hsmall
    have hceil : (size + base - 1) / base = 1 := by
      apply Nat.div_eq_of_lt_le <;> omega
    have hround : (size : ℚ) < ofNat base := by
      have hlog : 53 ≤ Int.log 2 (base : ℚ) := by
        rw [← Int.zpow_le_iff_le_log (by norm_num) hb]
        exact_mod_cast hsmall
      calc (size : ℚ) < 2 ^ (53 : ℤ) := by exact_mod_cast hsize
        _ ≤ 2 ^ Int.log 2 (base : ℚ) := zpow_le_zpow_right₀ (by norm_num) hlog
        _ ≤ ofNat base := two_zpow_log_le_round hb
    have hbpos : 0 < ofNat base := lt_trans hs hround
    have hq : (size : ℚ) / ofNat base < 1 := (div_lt_one hbpos).mpr hround
    have hqpos : 0 < (size : ℚ) / ofNat base := div_pos hs hbpos
    rw [hceil, Int.ceil_eq_iff, div]
    have hle := round_le_one hqpos hq
    have hgt := round_pos hqpos
    constructor <;> push_cast <;> linarith

end Azure.Reasoning.Binary64
