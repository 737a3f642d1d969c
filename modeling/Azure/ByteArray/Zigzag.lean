import Azure.ByteArray.RoundTrip
import Azure.Reasoning.SignedRange
import Mathlib.Data.BitVec
import Mathlib.Data.Fintype.EquivFin

/-!
# Zigzag in signed arithmetic

The codec takes the sign from a number and doubles it.  In the source the negation is in the signed
type, and so is the doubling of a number that is not negative; each of them can overflow there.
-/

namespace Azure

open Reasoning

namespace ByteArray

/-- `v < 0 ? ((uint32_t)(-v)) * 2 - 1 : v * 2`: the product is unsigned after the cast, and signed
without it. -/
def checkedZigzag {w : Nat} (v : BitVec w) : Option (BitVec w) :=
  if v.toInt < 0 then (checkedInt w (-v.toInt)).map fun m => BitVec.ofInt w m * 2 - 1
  else (checkedInt w (v.toInt * 2)).map (BitVec.ofInt w)

def checkedZigzag32 (v : BitVec 32) : Option (BitVec 32) := checkedZigzag v

def checkedZigzag64 (v : BitVec 64) : Option (BitVec 64) := checkedZigzag v

def zigzag (x : Int) : Int := if 0 ≤ x then 2 * x else -2 * x - 1

/-- The code evaluates without overflow to the code of the number, from which the number comes
back. -/
def Exact {w : Nat} (encode : BitVec w → Option (BitVec w)) (decode : BitVec w → BitVec w)
    (v : BitVec w) : Prop :=
  ∃ u, encode v = some u ∧ (u.toNat : Int) = zigzag v.toInt ∧ decode u = v

/-- Without an overflow the result is that of wrapping arithmetic. -/
theorem checkedZigzag_eq {w : Nat} {v u : BitVec w} (h : checkedZigzag v = some u) :
    u = encodeZigzag v := by
  unfold checkedZigzag at h
  unfold encodeZigzag
  rw [BitVec.msb_eq_toInt]
  by_cases hneg : v.toInt < 0
  · rw [if_pos hneg, Option.map_eq_some_iff] at h
    rcases h with ⟨m, hm, rfl⟩
    rw [← (checkedInt_eq_some_iff.mp hm).2, BitVec.ofInt_neg, BitVec.ofInt_toInt,
      decide_eq_true hneg, if_pos rfl]
  · rw [if_neg hneg, Option.map_eq_some_iff] at h
    rcases h with ⟨m, hm, rfl⟩
    rw [← (checkedInt_eq_some_iff.mp hm).2, BitVec.ofInt_mul, BitVec.ofInt_toInt,
      decide_eq_false hneg, if_neg (by decide)]
    rfl

theorem encodeZigzag_eq_zigzag {w : Nat} (hw : 1 < w) (v : BitVec w) :
    ((encodeZigzag v).toNat : Int) = zigzag v.toInt := by
  have hv := v.isLt
  have hint := BitVec.toInt_eq_msb_cond v
  rw [toNat_encodeZigzag hw]
  unfold zigzag
  cases hmsb : v.msb with
  | true =>
    rw [hmsb, if_pos rfl] at hint
    have hcast : ((2 ^ w : Nat) : Int) = 2 ^ w := by norm_cast
    rw [if_pos rfl, if_neg (by omega)]
    omega
  | false =>
    rw [hmsb, if_neg (by decide)] at hint
    rw [if_neg (by decide), if_pos (by omega)]
    omega

/-- When neither the negation nor the doubling overflows. -/
theorem checkedZigzag_isSome_iff {w : Nat} (hw : 1 < w) (v : BitVec w) :
    (∃ u, checkedZigzag v = some u) ↔ -2 ^ (w - 1) < v.toInt ∧ v.toInt < 2 ^ (w - 2) := by
  have hhalf : (2 : Int) ^ (w - 1) = 2 ^ (w - 2) * 2 := by
    rw [← pow_succ]
    congr 1
    omega
  have hpos : (0 : Int) < 2 ^ (w - 2) := by positivity
  have hlo := BitVec.le_toInt v
  unfold checkedZigzag
  by_cases hneg : v.toInt < 0
  · rw [if_pos hneg]
    constructor
    · rintro ⟨u, hu⟩
      rcases Option.map_eq_some_iff.mp hu with ⟨m, hm, -⟩
      have hin := (checkedInt_eq_some_iff.mp hm).1
      omega
    · intro hin
      rw [checkedInt_of_range (by omega) (by omega)]
      exact ⟨_, rfl⟩
  · rw [if_neg hneg]
    constructor
    · rintro ⟨u, hu⟩
      rcases Option.map_eq_some_iff.mp hu with ⟨m, hm, -⟩
      have hin := (checkedInt_eq_some_iff.mp hm).1
      omega
    · intro hin
      rw [checkedInt_of_range (by omega) (by omega)]
      exact ⟨_, rfl⟩

theorem exact_checkedZigzag_iff {w : Nat} (hw : 1 < w) (v : BitVec w) :
    Exact checkedZigzag decodeZigzag v ↔ -2 ^ (w - 1) < v.toInt ∧ v.toInt < 2 ^ (w - 2) := by
  rw [← checkedZigzag_isSome_iff hw]
  constructor
  · rintro ⟨u, hu, -⟩
    exact ⟨u, hu⟩
  · rintro ⟨u, hu⟩
    have heq := checkedZigzag_eq hu
    refine ⟨u, hu, ?_, ?_⟩
    · rw [heq]
      exact encodeZigzag_eq_zigzag hw v
    · rw [heq]
      exact decodeZigzag_encodeZigzag hw v

/-- Every number has a code of its own, and every word is a code. -/
theorem encodeZigzag_bijective {w : Nat} (hw : 1 < w) :
    Function.Bijective (encodeZigzag : BitVec w → BitVec w) := by
  have : Finite (BitVec w) := Finite.of_equiv _ BitVec.equivFin.symm.toEquiv
  apply Finite.injective_iff_bijective.mp
  exact Function.LeftInverse.injective (decodeZigzag_encodeZigzag hw)

theorem encodeZigzag_decodeZigzag {w : Nat} (hw : 1 < w) (u : BitVec w) :
    encodeZigzag (decodeZigzag u) = u := by
  rcases (encodeZigzag_bijective hw).2 u with ⟨v, rfl⟩
  rw [decodeZigzag_encodeZigzag hw]

/-- The encoders are exact where nothing overflows.  In wrapping arithmetic the decoders are their
inverses everywhere. -/
theorem zigzag_exact_iff (v : BitVec 32) (u : BitVec 64) :
    (Exact checkedZigzag32 decodeZigzag32 v ↔ -2 ^ 31 < v.toInt ∧ v.toInt < 2 ^ 30) ∧
      (Exact checkedZigzag64 decodeZigzag64 u ↔ -2 ^ 63 < u.toInt ∧ u.toInt < 2 ^ 62) ∧
      (decodeZigzag32 (encodeZigzag32 v) = v ∧ encodeZigzag32 (decodeZigzag32 v) = v) ∧
      (decodeZigzag64 (encodeZigzag64 u) = u ∧ encodeZigzag64 (decodeZigzag64 u) = u) :=
  ⟨exact_checkedZigzag_iff (by decide) v, exact_checkedZigzag_iff (by decide) u,
    ⟨decodeZigzag_encodeZigzag (by decide) v, encodeZigzag_decodeZigzag (by decide) v⟩,
    ⟨decodeZigzag_encodeZigzag (by decide) u, encodeZigzag_decodeZigzag (by decide) u⟩⟩

/-- `v * 2` overflows at `2 ^ 30`. -/
theorem zigzag_overflows :
    ¬ ((∀ v : BitVec 32, Exact checkedZigzag32 decodeZigzag32 v) ∧
      ∀ v : BitVec 64, Exact checkedZigzag64 decodeZigzag64 v) := by
  intro h
  rcases h.1 (BitVec.ofInt 32 (2 ^ 30)) with ⟨u, hu, -⟩
  have hnone : checkedZigzag32 (BitVec.ofInt 32 (2 ^ 30)) = none := by decide +kernel
  rw [hnone] at hu
  cases hu

end ByteArray

end Azure
