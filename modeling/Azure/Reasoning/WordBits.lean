import Azure.Reasoning.ByteOrder
import Mathlib.Data.Nat.Bitwise

/-!
# The bits of words

The bits of a word that is given by its bytes, a word whose bytes are swapped, and the masks that
select the first bits of a word.
-/

namespace Azure.Reasoning

/-! ## Bits and bytes -/

/-- Bit `i` of a number is bit `i % 8` of its byte `i / 8`. -/
theorem testBit_ofBytes (bs : List UInt8) (i : Nat) :
    (ofBytes bs).testBit i = (bs.getD (i / 8) 0).toNat.testBit (i % 8) := by
  induction bs generalizing i with
  | nil => simp [ofBytes]
  | cons b bs ih =>
    have hb : b.toNat < 2 ^ 8 := b.toNat_lt
    have hsplit : ofBytes (b :: bs) = 2 ^ 8 * ofBytes bs + b.toNat := by
      rw [ofBytes, Nat.add_comm]
      rfl
    rw [hsplit, Nat.testBit_two_pow_mul_add _ hb]
    by_cases hi : i < 8
    · rw [if_pos hi, Nat.div_eq_of_lt hi, Nat.mod_eq_of_lt hi, List.getD_cons_zero]
    · have hdiv : i / 8 = (i - 8) / 8 + 1 := by omega
      have hmod : i % 8 = (i - 8) % 8 := by omega
      rw [if_neg hi, ih, hdiv, hmod, List.getD_cons_succ]

theorem testBit_toBytes (n v k j : Nat) (hj : j < 8) :
    ((toBytes n v).getD k 0).toNat.testBit j = (decide (k < n) && v.testBit (8 * k + j)) := by
  induction n generalizing v k with
  | zero => simp [toBytes]
  | succ n ih =>
    cases k with
    | zero =>
      have hbyte : (UInt8.ofNat v).toNat = v % 2 ^ 8 := UInt8.toNat_ofNat'
      rw [toBytes, List.getD_cons_zero, hbyte, Nat.testBit_mod_two_pow]
      simp [hj]
    | succ k =>
      have hshift : v / 256 = v / 2 ^ 8 := rfl
      rw [toBytes, List.getD_cons_succ, ih, hshift, Nat.testBit_div_two_pow]
      have hbit : 8 * k + j + 8 = 8 * (k + 1) + j := by omega
      simp [hbit]

/-- Bit `i` of the swapped word. -/
theorem testBit_byteswap (n v i : Nat) :
    (byteswap n v).testBit i =
      (decide (i < 8 * n) && v.testBit (8 * (n - 1 - i / 8) + i % 8)) := by
  rw [byteswap, testBit_ofBytes]
  by_cases hi : i < 8 * n
  · have hk : i / 8 < (toBytes n v).reverse.length := by
      rw [List.length_reverse, length_toBytes]
      omega
    have hget : (toBytes n v).reverse.getD (i / 8) 0 = (toBytes n v).getD (n - 1 - i / 8) 0 := by
      rw [List.getD_eq_getElem _ _ hk, List.getElem_reverse]
      rw [List.getD_eq_getElem _ _ (by rw [length_toBytes]; omega)]
      simp only [length_toBytes]
    have hlt : n - 1 - i / 8 < n := by omega
    rw [hget, testBit_toBytes n v _ _ (Nat.mod_lt _ (by decide))]
    simp [hi, hlt]
  · have hk : (toBytes n v).reverse.length ≤ i / 8 := by
      rw [List.length_reverse, length_toBytes]
      omega
    rw [List.getD_eq_default _ _ hk]
    simp [hi]

/-! ## Swapped words -/

/-- The word of `n` bytes with its bytes in the other order. -/
def swapWord (n : Nat) (x : BitVec (8 * n)) : BitVec (8 * n) :=
  BitVec.ofNat (8 * n) (byteswap n x.toNat)

variable {n : Nat} (x y : BitVec (8 * n))

/-- Bit `i` of the swapped word is in the byte that mirrors byte `i / 8`. -/
theorem getElem_swapWord {i : Nat} (hi : i < 8 * n) :
    (swapWord n x)[i] = x.getLsbD (8 * (n - 1 - i / 8) + i % 8) := by
  rw [← BitVec.getLsbD_eq_getElem, swapWord, BitVec.getLsbD_ofNat, testBit_byteswap,
    BitVec.testBit_toNat]
  simp only [hi, decide_true, Bool.true_and]

theorem swapWord_and : swapWord n (x &&& y) = swapWord n x &&& swapWord n y := by
  apply BitVec.eq_of_getElem_eq
  intro i hi
  rw [getElem_swapWord, BitVec.getElem_and, BitVec.getLsbD_and, getElem_swapWord, getElem_swapWord]

theorem swapWord_or : swapWord n (x ||| y) = swapWord n x ||| swapWord n y := by
  apply BitVec.eq_of_getElem_eq
  intro i hi
  rw [getElem_swapWord, BitVec.getElem_or, BitVec.getLsbD_or, getElem_swapWord, getElem_swapWord]

theorem swapWord_not : swapWord n (~~~x) = ~~~(swapWord n x) := by
  apply BitVec.eq_of_getElem_eq
  intro i hi
  have hin : 8 * (n - 1 - i / 8) + i % 8 < 8 * n := by omega
  rw [getElem_swapWord, BitVec.getElem_not, BitVec.getLsbD_not, getElem_swapWord, decide_eq_true hin,
    Bool.true_and]

theorem swapWord_swapWord : swapWord n (swapWord n x) = x := by
  apply BitVec.eq_of_getElem_eq
  intro i hi
  have hback : 8 * (n - 1 - (8 * (n - 1 - i / 8) + i % 8) / 8) +
      (8 * (n - 1 - i / 8) + i % 8) % 8 = i := by omega
  have hin : 8 * (n - 1 - i / 8) + i % 8 < 8 * n := by omega
  rw [getElem_swapWord, BitVec.getLsbD_eq_getElem hin, getElem_swapWord, hback,
    BitVec.getLsbD_eq_getElem hi]

/-! ## Masks -/

def lowMask (w k : Nat) : BitVec w := BitVec.ofNat w (2 ^ k - 1)

def prefixMask (w p : Nat) : BitVec w := BitVec.allOnes w <<< (w - p)

theorem getMsbD_lowMask {w k i : Nat} (hk : k ≤ w) :
    (lowMask w k).getMsbD i = decide (i < w ∧ w - k ≤ i) := by
  rw [lowMask, BitVec.getMsbD_eq_getLsbD, BitVec.getLsbD_ofNat, Nat.testBit_two_pow_sub_one]
  by_cases hi : i < w
  · have hlast : w - 1 - i < w := by omega
    have hiff : w - 1 - i < k ↔ w - k ≤ i := by omega
    simp [hi, hlast, hiff]
  · simp [hi]

theorem getMsbD_prefixMask (w p i : Nat) :
    (prefixMask w p).getMsbD i = decide (i < w ∧ i < p) := by
  rw [prefixMask, BitVec.getMsbD_shiftLeft, BitVec.getMsbD_allOnes]
  have hiff : i + (w - p) < w ↔ i < w ∧ i < p := by omega
  rw [decide_eq_decide.mpr hiff]

theorem not_lowMask {w p : Nat} (hp : p ≤ w) : ~~~(lowMask w (w - p)) = prefixMask w p := by
  apply BitVec.eq_of_getMsbD_eq
  intro i hi
  have hiff : w - (w - p) ≤ i ↔ ¬ i < p := by omega
  rw [BitVec.getMsbD_not, getMsbD_lowMask (Nat.sub_le w p), getMsbD_prefixMask]
  simp only [hi, hiff, decide_true, Bool.true_and, true_and, decide_not, Bool.not_not]

/-- Dropping bits of a word makes it no greater. -/
theorem and_le {w : Nat} (x y : BitVec w) : x &&& y ≤ x := by
  rw [BitVec.le_def, BitVec.toNat_and]
  exact Nat.and_le_left

theorem le_or {w : Nat} (x y : BitVec w) : x ≤ x ||| y := by
  rw [BitVec.le_def, BitVec.toNat_or]
  exact Nat.left_le_or

/-! ## Words in memory, highest byte first -/

def wordOfBytes (bs : Vector UInt8 n) : BitVec (8 * n) :=
  BitVec.ofNat (8 * n) (ofBytes bs.toList.reverse)

/-- Bit `i` of the word, counted from the highest, is in its byte `i / 8`. -/
theorem getMsbD_wordOfBytes (bs : Vector UInt8 n) {i : Nat} (hdiv : i / 8 < n) :
    (wordOfBytes bs).getMsbD i = bs[i / 8].toBitVec.getMsbD (i % 8) := by
  have hi : i < 8 * n := by omega
  have hk : (8 * n - 1 - i) / 8 < bs.toList.reverse.length := by
    rw [List.length_reverse, Vector.length_toList]
    omega
  have hbyte : n - 1 - (8 * n - 1 - i) / 8 = i / 8 := by omega
  have hbit : (8 * n - 1 - i) % 8 = 7 - i % 8 := by omega
  have hin : 8 * n - 1 - i < 8 * n := by omega
  have hlt : i % 8 < 8 := Nat.mod_lt i (by decide)
  rw [wordOfBytes, BitVec.getMsbD_eq_getLsbD, BitVec.getLsbD_ofNat, testBit_ofBytes,
    List.getD_eq_getElem _ _ hk, List.getElem_reverse]
  simp only [hi, hin, decide_true, Bool.true_and, Vector.length_toList, Vector.getElem_toList,
    hbyte, hbit, BitVec.getMsbD_eq_getLsbD, hlt]
  rfl

/-- The bytes of a word hold its bits in order. -/
theorem wordOfBytes_eq_iff {bs : Vector UInt8 n} {x : BitVec (8 * n)} :
    wordOfBytes bs = x ↔
      ∀ k (hk : k < n) j, j < 8 → bs[k].toBitVec.getMsbD j = x.getMsbD (8 * k + j) := by
  constructor
  · rintro rfl k hk j hj
    have hdiv : (8 * k + j) / 8 = k := by omega
    have hmod : (8 * k + j) % 8 = j := by omega
    rw [getMsbD_wordOfBytes bs (by omega)]
    simp only [hdiv, hmod]
  · intro h
    apply BitVec.eq_of_getMsbD_eq
    intro i hi
    have hsplit : 8 * (i / 8) + i % 8 = i := by omega
    rw [getMsbD_wordOfBytes bs (by omega), h (i / 8) (by omega) (i % 8) (by omega), hsplit]

end Azure.Reasoning
