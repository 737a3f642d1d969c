import Azure.Address.Model

/-!
# Subnets

What a network address, a broadcast address and a subnet mask are, and for which prefix lengths the
functions of the two kinds of addresses return them.
-/

namespace Azure

open Reasoning

/-! ## Masks -/

/-- Where `CreateMask` is defined for a type of `w` bits. -/
def MaskDefined (wraps : Bool) (w bits : Nat) : Prop :=
  bits ≤ w ∧ (w - bits < 31 ∨ w - bits = 31 ∧ wraps = true)

section
variable {wraps : Bool} {size : UInt64} {bits : UInt32}

/-- The shift amount is a `size_t`, so it is past every width when the mask has no bits left. -/
theorem maskCount (bits : UInt32) (hsize : size.toNat ≤ 4) :
    (size * 8 - bits.toUInt64).toNat =
      if bits.toNat ≤ 8 * size.toNat then 8 * size.toNat - bits.toNat
      else 2 ^ 64 + 8 * size.toNat - bits.toNat := by
  have hbits : bits.toUInt64.toNat = bits.toNat := rfl
  have height : (8 : UInt64).toNat = 8 := rfl
  have hlt : bits.toNat < 2 ^ 32 := bits.toNat_lt
  rw [UInt64.toNat_sub, UInt64.toNat_mul, hbits, height]
  split <;> omega

theorem createMask_eq (hsize : size.toNat ≤ 4) (h : MaskDefined wraps (8 * size.toNat) bits.toNat) :
    createMask wraps size bits = some (2 ^ (8 * size.toNat - bits.toNat) - 1) := by
  obtain ⟨hle, hcount⟩ := h
  have hto := maskCount bits hsize
  rw [if_pos hle] at hto
  have hwidth : ¬ 32 ≤ size * 8 - bits.toUInt64 := by
    rw [UInt64.le_iff_toNat_le, hto]
    show ¬ 32 ≤ 8 * size.toNat - bits.toNat
    omega
  simp only [createMask, if_neg hwidth]
  -- a count of 31 goes through the sign bit
  rcases hcount with hless | ⟨hlast, hwraps⟩
  · have hne : size * 8 - bits.toUInt64 ≠ 31 := by
      intro heq
      rw [heq] at hto
      exact absurd hto (by show ¬ 31 = _; omega)
    rw [if_neg hne, hto]
  · have heq : size * 8 - bits.toUInt64 = 31 := UInt64.toNat_inj.mp (by rw [hto, hlast]; rfl)
    rw [if_pos heq, if_pos hwraps, hlast]

theorem createMask_none (hsize : size.toNat ≤ 4)
    (h : ¬ MaskDefined wraps (8 * size.toNat) bits.toNat) : createMask wraps size bits = none := by
  have hto := maskCount bits hsize
  have hlt : bits.toNat < 2 ^ 32 := bits.toNat_lt
  simp only [createMask]
  by_cases hwidth : 32 ≤ size * 8 - bits.toUInt64
  · rw [if_pos hwidth]
  · have hcount : ¬ 32 ≤ (size * 8 - bits.toUInt64).toNat := by
      rw [UInt64.le_iff_toNat_le] at hwidth
      exact hwidth
    have hle : bits.toNat ≤ 8 * size.toNat := by
      by_contra hgt
      rw [if_neg hgt] at hto
      omega
    rw [if_pos hle] at hto
    have hlast : 8 * size.toNat - bits.toNat = 31 := by
      by_contra hne
      exact h ⟨hle, Or.inl (by omega)⟩
    have heq : size * 8 - bits.toUInt64 = 31 := UInt64.toNat_inj.mp (by rw [hto, hlast]; rfl)
    have hwraps : ¬ wraps = true := fun hw => h ⟨hle, Or.inr ⟨hlast, hw⟩⟩
    rw [if_neg hwidth, if_pos heq, if_neg hwraps]

end

/-- The `int` of a mask, reduced to a type of `w` bits. -/
theorem mask_emod (w k : Nat) :
    ((2 ^ k - 1 : Int) % 2 ^ w).toNat = (lowMask w k).toNat := by
  have hcast : (2 : Int) ^ k - 1 = ((2 ^ k - 1 : Nat) : Int) := by
    have hpos : 1 ≤ 2 ^ k := Nat.one_le_two_pow
    rw [Int.natCast_sub hpos]
    push_cast
    rfl
  have hmod : ((2 ^ k - 1 : Nat) : Int) % 2 ^ w = ((2 ^ k - 1) % 2 ^ w : Nat) := by
    push_cast
    rfl
  rw [hcast, hmod, Int.toNat_natCast, lowMask, BitVec.toNat_ofNat]

theorem toBitVec_mask32 (k : Nat) : (UInt32.ofInt (2 ^ k - 1)).toBitVec = lowMask 32 k := by
  have hto : (UInt32.ofInt (2 ^ k - 1)).toBitVec =
      BitVec.ofNat 32 ((2 ^ k - 1 : Int) % 2 ^ 32).toNat := rfl
  rw [hto, mask_emod, BitVec.ofNat_toNat, BitVec.setWidth_eq]

theorem toBitVec_mask8 (k : Nat) : (UInt8.ofInt (2 ^ k - 1)).toBitVec = lowMask 8 k := by
  have hto : (UInt8.ofInt (2 ^ k - 1)).toBitVec =
      BitVec.ofNat 8 ((2 ^ k - 1 : Int) % 2 ^ 8).toNat := rfl
  rw [hto, mask_emod, BitVec.ofNat_toNat, BitVec.setWidth_eq]

/-! ## IPv4 -/

namespace IPv4Address

def value (host : Endian) (a : IPv4Address) : BitVec 32 :=
  (byteswapOnLittleEndian host a.sAddr).toBitVec

def SubnetAlgebra (host : Endian) (wraps : Bool) (a : IPv4Address) (p : UInt32) : Prop :=
  (p ≤ 32 → ∃ mask network broadcast : IPv4Address,
    subnetMask host wraps p = some (some mask) ∧
    a.networkAddress host wraps p = some (some network) ∧
    a.broadcastAddress host wraps p = some (some broadcast) ∧
    mask.value host = prefixMask 32 p.toNat ∧
    network.value host = a.value host &&& prefixMask 32 p.toNat ∧
    broadcast.value host = a.value host ||| ~~~prefixMask 32 p.toNat ∧
    network.value host ≤ a.value host ∧ a.value host ≤ broadcast.value host) ∧
  (32 < p → subnetMask host wraps p = some none ∧ a.networkAddress host wraps p = some none ∧
    a.broadcastAddress host wraps p = some none)

section
variable (host : Endian) (x y : UInt32)

theorem swap_and :
    (byteswapOnLittleEndian host (x &&& y)).toBitVec =
      (byteswapOnLittleEndian host x).toBitVec &&& (byteswapOnLittleEndian host y).toBitVec := by
  cases host with
  | little => exact swapWord_and (n := 4) x.toBitVec y.toBitVec
  | big => rfl

theorem swap_or :
    (byteswapOnLittleEndian host (x ||| y)).toBitVec =
      (byteswapOnLittleEndian host x).toBitVec ||| (byteswapOnLittleEndian host y).toBitVec := by
  cases host with
  | little => exact swapWord_or (n := 4) x.toBitVec y.toBitVec
  | big => rfl

theorem swap_not :
    (byteswapOnLittleEndian host (~~~x)).toBitVec =
      ~~~(byteswapOnLittleEndian host x).toBitVec := by
  cases host with
  | little => exact swapWord_not (n := 4) x.toBitVec
  | big => rfl

theorem swap_swap : byteswapOnLittleEndian host (byteswapOnLittleEndian host x) = x := by
  cases host with
  | little => exact UInt32.toBitVec_inj.mp (swapWord_swapWord (n := 4) x.toBitVec)
  | big => rfl

end

/-- Where the mask is defined, the functions are right. -/
theorem subnetAlgebra_of_defined (host : Endian) {wraps : Bool} (a : IPv4Address) {p : UInt32}
    (h : MaskDefined wraps 32 p.toNat) : SubnetAlgebra host wraps a p := by
  have hle : p.toNat ≤ 32 := h.1
  have hnot : ¬ 32 < p := by
    rw [UInt32.lt_iff_toNat_lt]
    exact Nat.not_lt.mpr hle
  have hmask : createMask wraps 4 p = some (2 ^ (32 - p.toNat) - 1) :=
    createMask_eq (show (4 : UInt64).toNat ≤ 4 by decide) h
  have hlow : (byteswapOnLittleEndian host (byteswapOnLittleEndian host
      (UInt32.ofInt (2 ^ (32 - p.toNat) - 1)))).toBitVec = lowMask 32 (32 - p.toNat) := by
    rw [swap_swap]
    exact toBitVec_mask32 (32 - p.toNat)
  refine ⟨fun _ => ?_, fun hgt => absurd hgt hnot⟩
  simp only [subnetMask, networkAddress, broadcastAddress, hmask, if_neg hnot, Option.map_some,
    Option.some.injEq, value]
  refine ⟨_, _, _, rfl, rfl, rfl, ?_, ?_, ?_, ?_, ?_⟩
  · rw [swap_not, hlow, not_lowMask hle]
  · rw [swap_and, swap_not, hlow, not_lowMask hle]
  · rw [swap_or, hlow, ← not_lowMask hle, BitVec.not_not]
  · rw [swap_and]
    exact and_le _ _
  · rw [swap_or]
    exact le_or _ _

/-- The functions are right for the prefix lengths from 1 to 32, for 1 when `int` wraps. -/
theorem subnetAlgebra_iff_length (host : Endian) (wraps : Bool) (a : IPv4Address) (p : UInt32) :
    SubnetAlgebra host wraps a p ↔ p ≤ 32 ∧ (2 ≤ p ∨ p = 1 ∧ wraps = true) := by
  have hcond : (p ≤ 32 ∧ (2 ≤ p ∨ p = 1 ∧ wraps = true)) ↔ MaskDefined wraps 32 p.toNat := by
    have hone : p = 1 ↔ p.toNat = 1 := by rw [← UInt32.toNat_inj]; rfl
    rw [MaskDefined, UInt32.le_iff_toNat_le, UInt32.le_iff_toNat_le, hone]
    show (p.toNat ≤ 32 ∧ (2 ≤ p.toNat ∨ p.toNat = 1 ∧ wraps = true)) ↔ _
    constructor
    · rintro ⟨hle, htwo | ⟨hp, hw⟩⟩
      · exact ⟨hle, Or.inl (by omega)⟩
      · exact ⟨hle, Or.inr ⟨by omega, hw⟩⟩
    · rintro ⟨hle, hless | ⟨hlast, hw⟩⟩
      · exact ⟨hle, Or.inl (by omega)⟩
      · exact ⟨hle, Or.inr ⟨by omega, hw⟩⟩
  rw [hcond]
  refine ⟨fun h => ?_, subnetAlgebra_of_defined host a⟩
  by_contra hundef
  have hmask : subnetMask host wraps p = none := by
    rw [subnetMask, createMask_none (show (4 : UInt64).toNat ≤ 4 by decide) hundef]
    rfl
  -- the mask is asked for whatever the length is
  by_cases hp : p ≤ 32
  · obtain ⟨mask, _, _, hret, -⟩ := h.1 hp
    rw [hmask] at hret
    cases hret
  · obtain ⟨hret, -⟩ := h.2 (UInt32.not_le.mp hp)
    rw [hmask] at hret
    cases hret

/-- The prefix of length zero shifts an `int` by its width. -/
theorem subnet_default_route :
    ¬ SubnetAlgebra .little true (create .little 0xC0A80001 80) 0 := by
  rintro ⟨h, -⟩
  obtain ⟨mask, _, _, hret, -⟩ := h (by decide)
  have hmask : subnetMask .little true 0 = none := by decide
  rw [hmask] at hret
  cases hret

end IPv4Address

/-! ## IPv6 -/

namespace IPv6Address

def value (a : IPv6Address) : BitVec 128 := wordOfBytes a.s6Addr

/-- What the three functions are for, with every index inside the array. -/
def SubnetAlgebra (wraps : Bool) (a : IPv6Address) (p : UInt32) : Prop :=
  ∃ mask network broadcast : IPv6Address,
    subnetMask wraps p = some mask ∧ a.networkAddress wraps p = some network ∧
    a.broadcastAddress wraps p = some broadcast ∧
    mask.value = prefixMask 128 p.toNat ∧
    network.value = a.value &&& prefixMask 128 p.toNat ∧
    broadcast.value = a.value ||| ~~~prefixMask 128 p.toNat

theorem getElem_fill (bytes : Vector UInt8 16) (first count : Nat) {i : Nat} (hi : i < 16) :
    (fill bytes first count)[i] = if first ≤ i ∧ i < first + count then 0xff else bytes[i] := by
  induction count generalizing bytes first with
  | zero =>
    have hnot : ¬ (first ≤ i ∧ i < first + 0) := by omega
    rw [fill, if_neg hnot]
  | succ count ih =>
    rw [fill, ih, Vector.getElem_setIfInBounds]
    by_cases heq : first = i
    · have hin : first ≤ i ∧ i < first + (count + 1) := by omega
      have hnot : ¬ (first + 1 ≤ i ∧ i < first + 1 + count) := by omega
      rw [if_pos heq, if_pos hin, if_neg hnot]
    · have hiff : (first + 1 ≤ i ∧ i < first + 1 + count) ↔
          (first ≤ i ∧ i < first + (count + 1)) := by omega
      rw [if_neg heq, if_congr hiff rfl rfl]

section
variable {wraps : Bool} {p : UInt32} {f : UInt8 → UInt8 → UInt8} {bytes : Vector UInt8 16}

def endMask (p : UInt32) : UInt8 := ⟨lowMask 8 (8 - p.toNat % 8)⟩

theorem combineAt_eq (hk : p.toNat / 8 < 16) :
    combineAt wraps p f bytes =
      some (bytes.set (p.toNat / 8) (f bytes[p.toNat / 8] (endMask p)) hk) := by
  have hmod : (p % 8).toNat = p.toNat % 8 := rfl
  have hk' : (p / 8).toNat < 16 := hk
  have hdef : MaskDefined wraps (8 * (1 : UInt64).toNat) (p % 8).toNat := by
    show p.toNat % 8 ≤ 8 ∧ (8 - p.toNat % 8 < 31 ∨ 8 - p.toNat % 8 = 31 ∧ wraps = true)
    omega
  have hmask : UInt8.ofInt (2 ^ (8 * (1 : UInt64).toNat - (p % 8).toNat) - 1) = endMask p :=
    UInt8.toBitVec_inj.mp (toBitVec_mask8 (8 - p.toNat % 8))
  simp only [combineAt, dif_pos hk', createMask_eq (by decide) hdef, Option.map_some, hmask]
  rfl

/-- A prefix of all 128 bits ends in a byte that is not there. -/
theorem combineAt_none (hp : ¬ p.toNat < 128) : combineAt wraps p f bytes = none := by
  have hdiv : (p / 8).toNat = p.toNat / 8 := rfl
  have hk : ¬ (p / 8).toNat < 16 := by omega
  simp only [combineAt, dif_neg hk]

end

theorem getMsbD_endMask (p : UInt32) {j : Nat} (hj : j < 8) :
    (endMask p).toBitVec.getMsbD j = decide (p.toNat % 8 ≤ j) := by
  have hiff : (j < 8 ∧ 8 - (8 - p.toNat % 8) ≤ j) ↔ p.toNat % 8 ≤ j := by omega
  rw [endMask, getMsbD_lowMask (Nat.sub_le 8 _), decide_eq_decide.mpr hiff]

theorem getMsbD_ones {j : Nat} (hj : j < 8) : (0xff : UInt8).toBitVec.getMsbD j = true := by
  have hones : (0xff : UInt8).toBitVec = BitVec.allOnes 8 := rfl
  rw [hones, BitVec.getMsbD_allOnes, decide_eq_true hj]

theorem getMsbD_mask {k j : Nat} (hk : k < 16) (hj : j < 8) (p : Nat) :
    (prefixMask 128 p).getMsbD (8 * k + j) = decide (8 * k + j < p) := by
  have hiff : (8 * k + j < 128 ∧ 8 * k + j < p) ↔ 8 * k + j < p := by omega
  rw [getMsbD_prefixMask, decide_eq_decide.mpr hiff]

/-- Addresses have the bits of their bytes. -/
theorem value_eq_iff (a : IPv6Address) (x : BitVec 128) :
    a.value = x ↔
      ∀ k (hk : k < 16) j, j < 8 → a.s6Addr[k].toBitVec.getMsbD j = x.getMsbD (8 * k + j) :=
  wordOfBytes_eq_iff (n := 16)

theorem getMsbD_value (a : IPv6Address) {k j : Nat} (hk : k < 16) (hj : j < 8) :
    a.value.getMsbD (8 * k + j) = a.s6Addr[k].toBitVec.getMsbD j :=
  ((value_eq_iff a a.value).mp rfl k hk j hj).symm

section
variable {p : UInt32} (wraps : Bool) (a : IPv6Address)

/-- The mask is the prefix. -/
theorem subnetMask_eq (hp : p.toNat < 128) :
    ∃ mask, subnetMask wraps p = some mask ∧ mask.value = prefixMask 128 p.toNat := by
  rw [subnetMask, combineAt_eq (by omega)]
  refine ⟨_, rfl, (value_eq_iff _ _).mpr ?_⟩
  intro k hk j hj
  have hdiv : (p / 8).toNat = p.toNat / 8 := rfl
  rw [getMsbD_mask hk hj]
  simp only [getElem_fill _ _ _ hk, Vector.getElem_set, hdiv, Nat.zero_le, true_and, Nat.zero_add]
  -- a byte is in front of the end of the prefix, at it, or behind it
  rcases Nat.lt_trichotomy k (p.toNat / 8) with hlt | heq | hgt
  · have hbit : 8 * k + j < p.toNat := by omega
    rw [if_pos hlt, getMsbD_ones hj, decide_eq_true hbit]
  · have hnot : ¬ k < p.toNat / 8 := by omega
    have hiff : ¬ p.toNat % 8 ≤ j ↔ 8 * k + j < p.toNat := by omega
    rw [if_neg hnot, if_pos heq.symm, UInt8.toBitVec_not, BitVec.getMsbD_not,
      getMsbD_endMask p hj, decide_eq_true hj, Bool.true_and, ← decide_not,
      decide_eq_decide.mpr hiff]
  · have hnot : ¬ k < p.toNat / 8 := by omega
    have hne : p.toNat / 8 ≠ k := by omega
    have hbit : ¬ 8 * k + j < p.toNat := by omega
    have hzero : (cleared.s6Addr[k]).toBitVec = 0#8 := by
      simp [cleared]
    rw [if_neg hnot, if_neg hne, hzero, BitVec.getMsbD_zero, decide_eq_false hbit]

/-- The broadcast address has ones behind the prefix. -/
theorem broadcastAddress_eq (hp : p.toNat < 128) :
    ∃ broadcast, a.broadcastAddress wraps p = some broadcast ∧
      broadcast.value = a.value ||| ~~~prefixMask 128 p.toNat := by
  rw [broadcastAddress, combineAt_eq (by omega)]
  refine ⟨_, rfl, (value_eq_iff _ _).mpr ?_⟩
  intro k hk j hj
  have hdiv : (p / 8).toNat = p.toNat / 8 := rfl
  have hin : 8 * k + j < 128 := by omega
  rw [BitVec.getMsbD_or, BitVec.getMsbD_not, getMsbD_value a hk hj, getMsbD_mask hk hj,
    decide_eq_true hin, Bool.true_and]
  simp only [getElem_fill _ _ _ hk, Vector.getElem_set, hdiv]
  -- the bytes behind the end of the prefix are filled, those in front of it kept
  rcases Nat.lt_trichotomy k (p.toNat / 8) with hlt | heq | hgt
  · have hnot : ¬ (p.toNat / 8 + 1 ≤ k ∧ k < p.toNat / 8 + 1 + (16 - (p.toNat / 8 + 1))) := by omega
    have hne : p.toNat / 8 ≠ k := by omega
    have hbit : 8 * k + j < p.toNat := by omega
    rw [if_neg hnot, if_neg hne, decide_eq_true hbit, Bool.not_true, Bool.or_false]
  · have hnot : ¬ (p.toNat / 8 + 1 ≤ k ∧ k < p.toNat / 8 + 1 + (16 - (p.toNat / 8 + 1))) := by omega
    have hiff : p.toNat % 8 ≤ j ↔ ¬ 8 * k + j < p.toNat := by omega
    subst heq
    rw [if_neg hnot, if_pos rfl, UInt8.toBitVec_or, BitVec.getMsbD_or, getMsbD_endMask p hj,
      decide_eq_decide.mpr hiff, decide_not]
  · have hpos : p.toNat / 8 + 1 ≤ k ∧ k < p.toNat / 8 + 1 + (16 - (p.toNat / 8 + 1)) := by omega
    have hbit : ¬ 8 * k + j < p.toNat := by omega
    rw [if_pos hpos, getMsbD_ones hj, decide_eq_false hbit, Bool.not_false, Bool.or_true]

/-- The address that is returned as the network keeps the end of its byte, and all bytes behind it. -/
theorem networkAddress_eq (hp : p.toNat < 128) :
    ∃ network, a.networkAddress wraps p = some network ∧
      (network.value = a.value &&& prefixMask 128 p.toNat ↔
        ∀ k (hk : k < 16), p.toNat / 8 ≤ k → a.s6Addr[k] = 0) := by
  rw [networkAddress, combineAt_eq (by omega)]
  refine ⟨_, rfl, (value_eq_iff _ _).trans ?_⟩
  -- a byte is zero if each of its bits is
  have hzero : ∀ b : UInt8, b = 0 ↔ ∀ j, j < 8 → b.toBitVec.getMsbD j = false := by
    intro b
    rw [← UInt8.toBitVec_inj]
    constructor
    · intro h j _
      rw [h]
      exact BitVec.getMsbD_zero
    · intro h
      apply BitVec.eq_of_getMsbD_eq
      intro j hj
      rw [h j hj]
      exact BitVec.getMsbD_zero.symm
  refine forall_congr' fun k => forall_congr' fun hk => ?_
  rw [hzero, forall_comm]
  refine forall_congr' fun j => ?_
  rw [← imp.swap]
  refine imp_congr_right fun hj => ?_
  rw [BitVec.getMsbD_and, getMsbD_value a hk hj, getMsbD_mask hk hj]
  simp only [Vector.getElem_set]
  rcases Nat.lt_trichotomy k (p.toNat / 8) with hlt | heq | hgt
  · have hne : p.toNat / 8 ≠ k := by omega
    have hbit : 8 * k + j < p.toNat := by omega
    have hnot : ¬ p.toNat / 8 ≤ k := by omega
    rw [if_neg hne, decide_eq_true hbit, Bool.and_true]
    exact iff_of_true rfl fun h => absurd h hnot
  · -- the bits in front of the end of the prefix are dropped here instead of those behind it
    subst heq
    rw [if_pos rfl, UInt8.toBitVec_and, BitVec.getMsbD_and, getMsbD_endMask p hj]
    by_cases hbit : 8 * (p.toNat / 8) + j < p.toNat
    · have hlow : ¬ p.toNat % 8 ≤ j := by omega
      rw [decide_eq_true hbit, decide_eq_false hlow, Bool.and_true, Bool.and_false]
      exact ⟨fun h _ => h.symm, fun h => (h (Nat.le_refl _)).symm⟩
    · have hlow : p.toNat % 8 ≤ j := by omega
      rw [decide_eq_false hbit, decide_eq_true hlow, Bool.and_true, Bool.and_false]
      exact ⟨fun h _ => h, fun h => h (Nat.le_refl _)⟩
  · have hne : p.toNat / 8 ≠ k := by omega
    have hbit : ¬ 8 * k + j < p.toNat := by omega
    have hle : p.toNat / 8 ≤ k := by omega
    rw [if_neg hne, decide_eq_false hbit, Bool.and_false]
    exact ⟨fun h _ => h, fun h => h hle⟩

end

/-- The functions are right for the addresses that are networks of the length already. -/
theorem subnetAlgebra_iff_network (wraps : Bool) (a : IPv6Address) (p : UInt32) :
    SubnetAlgebra wraps a p ↔
      p < 128 ∧ ∀ k (hk : k < 16), (p / 8).toNat ≤ k → a.s6Addr[k] = 0 := by
  by_cases hp : p.toNat < 128
  · obtain ⟨mask, hmask, hones⟩ := subnetMask_eq wraps hp
    obtain ⟨network, hnetwork, hiff⟩ := networkAddress_eq wraps a hp
    obtain ⟨broadcast, hbroadcast, hor⟩ := broadcastAddress_eq wraps a hp
    constructor
    · rintro ⟨mask', network', broadcast', -, hret, -, -, hand, -⟩
      rw [hnetwork, Option.some.injEq] at hret
      exact ⟨hp, hiff.mp (hret ▸ hand)⟩
    · rintro ⟨-, hzero⟩
      exact ⟨mask, network, broadcast, hmask, hnetwork, hbroadcast, hones, hiff.mpr hzero, hor⟩
  · refine iff_of_false ?_ fun h => hp h.1
    rintro ⟨mask, network, broadcast, hret, -⟩
    rw [subnetMask, combineAt_none hp] at hret
    cases hret

/-- 2001:db8::1 is said to be a network of length 64. -/
theorem subnet_keeps_interface :
    ¬ SubnetAlgebra true
      { IPv6Address.cleared with
        s6Addr := #v[0x20, 0x01, 0x0d, 0xb8, 0, 0, 0, 0, 0, 0, 0, 0, 0, 0, 0, 1] } 64 := by
  rintro ⟨mask, network, broadcast, -, hret, -, -, hand, -⟩
  obtain rfl := Option.some.inj hret
  exact absurd hand (by decide +kernel)

end IPv6Address

end Azure
