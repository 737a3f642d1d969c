import Mathlib.Data.List.Basic
import Mathlib.Data.Nat.Bitwise

/-!
# Words as bytes

The bytes of an unsigned word, lowest first, and the same word on a machine of either byte order.
-/

namespace Azure.Reasoning

inductive Endian where
  | little
  | big
  deriving DecidableEq, Repr

def toBytes : Nat → Nat → List UInt8
  | 0, _ => []
  | n + 1, v => UInt8.ofNat v :: toBytes n (v / 256)

def ofBytes : List UInt8 → Nat
  | [] => 0
  | b :: bs => b.toNat + 256 * ofBytes bs

def memory (host : Endian) (n v : Nat) : List UInt8 :=
  match host with
  | .little => toBytes n v
  | .big => (toBytes n v).reverse

def ofMemory (host : Endian) (bs : List UInt8) : Nat :=
  match host with
  | .little => ofBytes bs
  | .big => ofBytes bs.reverse

def byteswap (n v : Nat) : Nat := ofBytes (toBytes n v).reverse

@[simp] theorem length_toBytes (n v : Nat) : (toBytes n v).length = n := by
  induction n generalizing v with
  | zero => rfl
  | succ n ih => rw [toBytes, List.length_cons, ih]

@[simp] theorem length_memory (host : Endian) (n v : Nat) : (memory host n v).length = n := by
  cases host <;> simp [memory]

theorem ofBytes_toBytes (n v : Nat) : ofBytes (toBytes n v) = v % 256 ^ n := by
  induction n generalizing v with
  | zero => rw [Nat.pow_zero, Nat.mod_one]; rfl
  | succ n ih =>
    have hb : (UInt8.ofNat v).toNat = v % 256 := UInt8.toNat_ofNat'
    rw [toBytes, ofBytes, ih, hb, Nat.pow_succ, Nat.mul_comm (256 ^ n), Nat.mod_mul]

theorem toBytes_ofBytes (bs : List UInt8) : toBytes bs.length (ofBytes bs) = bs := by
  induction bs with
  | nil => rfl
  | cons b bs ih =>
    have hlt : b.toNat < 256 := b.toNat_lt
    have hdiv : (b.toNat + 256 * ofBytes bs) / 256 = ofBytes bs := by omega
    have hmod : UInt8.ofNat (b.toNat + 256 * ofBytes bs) = b := by
      apply UInt8.toNat_inj.mp
      rw [UInt8.toNat_ofNat']
      omega
    rw [List.length_cons, ofBytes, toBytes, hdiv, hmod, ih]

/-- What is stored to memory is loaded again. -/
theorem ofMemory_memory (host : Endian) {n v : Nat} (hv : v < 256 ^ n) :
    ofMemory host (memory host n v) = v := by
  cases host <;>
    simp only [ofMemory, memory, List.reverse_reverse, ofBytes_toBytes, Nat.mod_eq_of_lt hv]

theorem ofBytes_lt (bs : List UInt8) : ofBytes bs < 256 ^ bs.length := by
  induction bs with
  | nil => decide
  | cons b bs ih =>
    have hlt : b.toNat < 256 := b.toNat_lt
    rw [ofBytes, List.length_cons, Nat.pow_succ]
    omega

theorem byteswap_lt (n v : Nat) : byteswap n v < 256 ^ n := by
  have h := ofBytes_lt (toBytes n v).reverse
  rwa [List.length_reverse, length_toBytes] at h

theorem toBytes_byteswap (n v : Nat) : toBytes n (byteswap n v) = (toBytes n v).reverse := by
  have hbytes := toBytes_ofBytes (toBytes n v).reverse
  rwa [List.length_reverse, length_toBytes] at hbytes

/-- Swapping twice is the identity on `n`-byte words. -/
theorem byteswap_byteswap {n v : Nat} (hv : v < 256 ^ n) : byteswap n (byteswap n v) = v := by
  rw [byteswap, toBytes_byteswap, List.reverse_reverse, ofBytes_toBytes, Nat.mod_eq_of_lt hv]

/-- A word that is swapped when the wanted order is not that of the machine is in memory in the
wanted order. -/
theorem memory_swapped (host endian : Endian) (n v : Nat) :
    memory host n (if endian ≠ host then byteswap n v else v) = memory endian n v := by
  cases host with
  | little =>
    cases endian with
    | little => rfl
    | big => exact toBytes_byteswap n v
  | big =>
    cases endian with
    | little =>
      show (toBytes n (byteswap n v)).reverse = toBytes n v
      rw [toBytes_byteswap, List.reverse_reverse]
    | big => rfl

end Azure.Reasoning
