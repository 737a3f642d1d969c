import Mathlib.Data.List.Basic

/-!
# Windows of a byte sequence

Reading and overwriting a window of a list, and how both behave when the list is a concatenation of
blocks and the window crosses a block boundary.
-/

namespace Azure.Reasoning

variable {α : Type*}

def slice (xs : List α) (i n : Nat) : List α := (xs.drop i).take n

def overwrite (xs : List α) (i : Nat) (ys : List α) : List α :=
  xs.take i ++ ys ++ xs.drop (i + ys.length)

/-! ## Windows -/

theorem length_slice {xs : List α} {i n : Nat} (h : i + n ≤ xs.length) :
    (slice xs i n).length = n := by
  simp only [slice, List.length_take, List.length_drop]
  omega

@[simp] theorem slice_zero (xs : List α) (i : Nat) : slice xs i 0 = [] := by
  simp [slice]

/-- A window is read piece by piece. -/
theorem slice_add (xs : List α) (i m n : Nat) :
    slice xs i (m + n) = slice xs i m ++ slice xs (i + m) n := by
  simp only [slice, List.take_add, List.drop_drop]

theorem slice_append_right (xs ys : List α) (i n : Nat) :
    slice (xs ++ ys) (xs.length + i) n = slice ys i n := by
  simp only [slice, List.drop_append, List.drop_of_length_le (show xs.length ≤ xs.length + i by
    omega), List.nil_append, Nat.add_sub_cancel_left]

theorem slice_append_left {xs : List α} {i n : Nat} (h : i + n ≤ xs.length) (ys : List α) :
    slice (xs ++ ys) i n = slice xs i n := by
  simp only [slice]
  rw [List.drop_append_of_le_length (by omega), List.take_append_of_le_length (by simp; omega)]

/-! ## Overwriting -/

theorem length_overwrite {xs ys : List α} {i : Nat} (h : i + ys.length ≤ xs.length) :
    (overwrite xs i ys).length = xs.length := by
  simp only [overwrite, List.length_append, List.length_take, List.length_drop]
  omega

@[simp] theorem overwrite_nil (xs : List α) (i : Nat) : overwrite xs i [] = xs := by
  simp [overwrite]

/-- Overwriting behind a prefix. -/
theorem overwrite_append_right (xs ys zs : List α) (i : Nat) :
    overwrite (xs ++ ys) (xs.length + i) zs = xs ++ overwrite ys i zs := by
  simp only [overwrite, List.take_length_add_append, List.append_assoc, List.append_cancel_left_eq]
  rw [Nat.add_assoc, List.drop_length_add_append]

/-- Overwriting inside a prefix. -/
theorem overwrite_append_left {xs zs : List α} {i : Nat} (h : i + zs.length ≤ xs.length)
    (ys : List α) : overwrite (xs ++ ys) i zs = overwrite xs i zs ++ ys := by
  simp only [overwrite]
  rw [List.take_append_of_le_length (by omega), List.drop_append_of_le_length h]
  simp only [List.append_assoc]

/-- A window that runs past the end of the first block is overwritten block by block. -/
theorem overwrite_append_cross {xs zs : List α} {i : Nat} (hi : i ≤ xs.length)
    (h : xs.length ≤ i + zs.length) (ys : List α) :
    overwrite (xs ++ ys) i zs =
      overwrite xs i (zs.take (xs.length - i)) ++ overwrite ys 0 (zs.drop (xs.length - i)) := by
  have hlen : (zs.take (xs.length - i)).length = xs.length - i := by
    rw [List.length_take]
    omega
  have hend : i + (xs.length - i) = xs.length := by omega
  have hrest : xs.length + (zs.length - (xs.length - i)) = i + zs.length := by omega
  simp only [overwrite, hlen, hend, List.drop_length, List.append_nil, List.take_zero,
    List.nil_append, List.length_drop, Nat.zero_add, List.append_assoc]
  rw [List.take_append_of_le_length hi, ← hrest, List.drop_length_add_append,
    ← List.append_assoc (zs.take _), List.take_append_drop]

/-- Reading back the window just written. -/
theorem slice_overwrite_self {xs ys : List α} {i : Nat} (h : i + ys.length ≤ xs.length) :
    slice (overwrite xs i ys) i ys.length = ys := by
  have hlen : (xs.take i).length = i := by
    rw [List.length_take]
    omega
  calc slice (overwrite xs i ys) i ys.length
      = slice (xs.take i ++ (ys ++ xs.drop (i + ys.length))) ((xs.take i).length + 0) ys.length := by
        rw [hlen, Nat.add_zero, overwrite, List.append_assoc]
    _ = slice (ys ++ xs.drop (i + ys.length)) 0 ys.length := slice_append_right ..
    _ = ys := by simp [slice]

/-- A window before the one written is not disturbed. -/
theorem slice_overwrite_before {xs ys : List α} {i j n : Nat} (hi : i ≤ xs.length)
    (h : j + n ≤ i) : slice (overwrite xs i ys) j n = slice xs j n := by
  have hlen : (xs.take i).length = i := by
    rw [List.length_take]
    omega
  simp only [overwrite, List.append_assoc]
  rw [slice_append_left (by omega)]
  conv_rhs => rw [← List.take_append_drop i xs, slice_append_left (by omega)]

/-- Two windows that meet are overwritten like one. -/
theorem overwrite_overwrite {xs ys : List α} {i : Nat} (h : i + ys.length ≤ xs.length)
    (zs : List α) :
    overwrite (overwrite xs i ys) (i + ys.length) zs = overwrite xs i (ys ++ zs) := by
  have hlen : (xs.take i ++ ys).length = i + ys.length := by
    rw [List.length_append, List.length_take]
    omega
  have hdrop : (xs.drop (i + ys.length)).drop zs.length = xs.drop (i + (ys ++ zs).length) := by
    rw [List.drop_drop, List.length_append, Nat.add_assoc]
  calc overwrite (overwrite xs i ys) (i + ys.length) zs
      = overwrite (xs.take i ++ ys ++ xs.drop (i + ys.length))
          ((xs.take i ++ ys).length + 0) zs := by
        rw [hlen, Nat.add_zero]
        rfl
    _ = xs.take i ++ ys ++ overwrite (xs.drop (i + ys.length)) 0 zs :=
        overwrite_append_right ..
    _ = overwrite xs i (ys ++ zs) := by
        rw [overwrite, overwrite, List.take_zero, List.nil_append, Nat.zero_add, hdrop]
        simp only [List.append_assoc]

/-- The first `max n (i + ys.length)` elements do not depend on what stands behind the first `n`
elements of the old list. -/
theorem slice_overwrite_grown {xs ys : List α} {i n : Nat} (hi : i ≤ n) (hn : n ≤ xs.length)
    (zs : List α) (hroom : i + ys.length ≤ (xs ++ zs).length) :
    slice (overwrite (xs ++ zs) i ys) 0 (max n (i + ys.length)) =
      xs.take i ++ ys ++ slice xs (i + ys.length) (n - (i + ys.length)) := by
  have hfirst : slice (overwrite (xs ++ zs) i ys) 0 (i + ys.length) = xs.take i ++ ys := by
    rw [slice_add, Nat.zero_add, slice_overwrite_self hroom,
      slice_overwrite_before (by rw [List.length_append]; omega) (by omega),
      slice_append_left (by omega)]
    rfl
  by_cases hinside : i + ys.length ≤ n
  · have hsplit : max n (i + ys.length) = (i + ys.length) + (n - (i + ys.length)) := by omega
    have hlen : (xs.take i ++ ys).length = i + ys.length := by
      rw [List.length_append, List.length_take]
      omega
    have hbehind : slice (overwrite (xs ++ zs) i ys) (i + ys.length) (n - (i + ys.length)) =
        slice xs (i + ys.length) (n - (i + ys.length)) := by
      rw [overwrite_append_left (by omega), slice_append_left (by
        rw [length_overwrite (by omega)]; omega)]
      conv_lhs => rw [overwrite, ← hlen, ← Nat.add_zero (xs.take i ++ ys).length,
        slice_append_right, Nat.add_zero, hlen]
      simp [slice]
    rw [hsplit, slice_add, hfirst, Nat.zero_add, hbehind]
  · rw [Nat.max_eq_right (by omega), hfirst, Nat.sub_eq_zero_of_le (by omega), slice_zero,
      List.append_nil]

end Azure.Reasoning
