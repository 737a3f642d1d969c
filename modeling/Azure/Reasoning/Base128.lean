import Mathlib.Algebra.Ring.Nat
import Mathlib.Data.List.Basic

/-!
# Base 128

Numbers in groups of seven bits, lowest first.  The highest bit of a byte says whether another byte
follows, so the end of a number can be told from its bytes alone.
-/

namespace Azure.Reasoning.Base128

def Terminated : List UInt8 → Prop
  | [] => False
  | [byte] => byte.toNat < 128
  | byte :: bytes => 128 ≤ byte.toNat ∧ Terminated bytes

def value : List UInt8 → Nat
  | [] => 0
  | byte :: bytes => byte.toNat % 128 + 128 * value bytes

def Trimmed (bytes : List UInt8) : Prop :=
  1 < bytes.length → ∀ byte, bytes.getLast? = some byte → byte.toNat ≠ 0

theorem Terminated.ne_nil {bytes : List UInt8} (h : Terminated bytes) : bytes ≠ [] := by
  intro hnil
  rw [hnil] at h
  exact h

theorem Terminated.length_pos {bytes : List UInt8} (h : Terminated bytes) : 1 ≤ bytes.length :=
  List.length_pos_of_ne_nil h.ne_nil

theorem terminated_cons {byte : UInt8} {bytes : List UInt8} (hne : bytes ≠ []) :
    Terminated (byte :: bytes) ↔ 128 ≤ byte.toNat ∧ Terminated bytes := by
  cases bytes with
  | nil => exact absurd rfl hne
  | cons next rest => rfl

/-- The same, of the list without its last byte and of that byte. -/
theorem terminated_iff {bytes : List UInt8} :
    Terminated bytes ↔ (∀ byte ∈ bytes.dropLast, 128 ≤ byte.toNat) ∧
      ∃ byte, bytes.getLast? = some byte ∧ byte.toNat < 128 := by
  induction bytes with
  | nil => simp [Terminated]
  | cons byte bytes ih =>
    cases bytes with
    | nil => simp [Terminated]
    | cons next rest =>
      rw [terminated_cons (List.cons_ne_nil next rest), ih, List.dropLast_cons_cons,
        List.getLast?_cons_cons, List.forall_mem_cons, and_assoc]

/-- No number is the beginning of another. -/
theorem Terminated.eq_of_isPrefix {bytes others : List UInt8} (h : Terminated bytes)
    (h' : Terminated others) (hbegin : bytes <+: others) : bytes = others := by
  induction bytes generalizing others with
  | nil => exact absurd rfl h.ne_nil
  | cons byte bytes ih =>
    cases others with
    | nil => exact absurd rfl h'.ne_nil
    | cons other others =>
      have hsame : byte = other := (List.cons_prefix_cons.mp hbegin).1
      have hrest : bytes <+: others := (List.cons_prefix_cons.mp hbegin).2
      subst hsame
      by_cases hbytes : bytes = []
      · -- the first number ends here, so the second does
        subst hbytes
        by_cases hothers : others = []
        · rw [hothers]
        · have hlast : byte.toNat < 128 := h
          have hmore := ((terminated_cons hothers).mp h').1
          omega
      · have hothers : others ≠ [] := by
          intro hnil
          rw [hnil] at hrest
          exact hbytes (List.prefix_nil.mp hrest)
        have htails := ih ((terminated_cons hbytes).mp h).2 ((terminated_cons hothers).mp h').2 hrest
        rw [htails]

theorem value_lt (bytes : List UInt8) : value bytes < 128 ^ bytes.length := by
  induction bytes with
  | nil => exact Nat.one_pos
  | cons byte bytes ih =>
    have hdigit : byte.toNat % 128 < 128 := Nat.mod_lt _ (by decide)
    rw [value, List.length_cons, Nat.pow_succ]
    omega

/-- A last byte that is not zero puts the number beyond all that have fewer bytes. -/
theorem le_value {bytes : List UInt8} (h : Terminated bytes)
    (hlast : ∀ byte, bytes.getLast? = some byte → byte.toNat ≠ 0) :
    128 ^ (bytes.length - 1) ≤ value bytes := by
  induction bytes with
  | nil => exact absurd rfl h.ne_nil
  | cons byte bytes ih =>
    cases bytes with
    | nil =>
      have hlow : byte.toNat < 128 := h
      have hone := hlast byte rfl
      show 1 ≤ byte.toNat % 128 + 128 * 0
      omega
    | cons next rest =>
      have htail := ih ((terminated_cons (List.cons_ne_nil next rest)).mp h).2
        fun last hl => hlast last (by rwa [List.getLast?_cons_cons])
      rw [value, List.length_cons, Nat.add_sub_cancel, List.length_cons, Nat.pow_succ]
      rw [List.length_cons, Nat.add_sub_cancel] at htail
      omega

/-- A trimmed number has no more bytes than its size calls for. -/
theorem Trimmed.length_le {bytes : List UInt8} (htrim : Trimmed bytes) (h : Terminated bytes)
    {k : Nat} (hk : 1 ≤ k) (hlt : value bytes < 128 ^ k) : bytes.length ≤ k := by
  by_cases hshort : bytes.length ≤ 1
  · omega
  · have hbig := le_value h (htrim (by omega))
    have hpow : bytes.length - 1 < k :=
      (Nat.pow_lt_pow_iff_right (by decide : 1 < 128)).mp (Nat.lt_of_le_of_lt hbig hlt)
    omega

/-- A trimmed number is the shortest of those with its value. -/
theorem Trimmed.shortest {bytes others : List UInt8} (htrim : Trimmed bytes)
    (h : Terminated bytes) (h' : Terminated others) (heq : value others = value bytes) :
    bytes.length ≤ others.length := by
  apply htrim.length_le h h'.length_pos
  rw [← heq]
  exact value_lt others

end Azure.Reasoning.Base128
