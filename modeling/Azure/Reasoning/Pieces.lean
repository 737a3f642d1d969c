import Mathlib.Data.List.Infix

/-!
# Streams in pieces

A stream that comes in pieces is their concatenation.  When no piece is empty, what is still to come is
known from its length.
-/

namespace Azure.Reasoning

variable {α : Type*} {ps b c : List (List α)}

/-- Of two rests of a stream the shorter one is the later one. -/
theorem suffix_of_flatten_length (hne : ∀ p ∈ ps, p ≠ []) (hb : b <:+ ps) (hc : c <:+ ps)
    (h : b.flatten.length ≤ c.flatten.length) : b <:+ c := by
  rcases List.suffix_or_suffix_of_suffix hb hc with hbc | ⟨t, rfl⟩
  · exact hbc
  · have hempty : t.flatten = [] := by
      apply List.eq_nil_of_length_eq_zero
      rw [List.flatten_append, List.length_append] at h
      omega
    have ht : t = [] := by
      apply List.eq_nil_iff_forall_not_mem.mpr
      intro p hp
      exact hne p (hb.subset (List.mem_append_left c hp)) (List.flatten_eq_nil_iff.mp hempty p hp)
    rw [ht]
    exact List.suffix_refl c

theorem eq_of_flatten_length (hne : ∀ p ∈ ps, p ≠ []) (hb : b <:+ ps) (hc : c <:+ ps)
    (h : b.flatten.length = c.flatten.length) : b = c :=
  (suffix_of_flatten_length hne hb hc (Nat.le_of_eq h)).eq_of_length_le
    (suffix_of_flatten_length hne hc hb (Nat.le_of_eq h.symm)).length_le

/-- The pieces in front of a rest of the stream. -/
theorem pieces_before {u v : List α} (hps : ps.flatten = u ++ v) (hb : b <:+ ps)
    (hv : b.flatten = v) : ∃ used, ps = used ++ b ∧ used.flatten = u := by
  obtain ⟨used, rfl⟩ := hb
  refine ⟨used, rfl, ?_⟩
  rw [List.flatten_append, hv] at hps
  exact List.append_cancel_right hps

/-- Nonempty pieces hold nothing only when there are none. -/
theorem eq_nil_of_flatten (hne : ∀ p ∈ ps, p ≠ []) (h : ps.flatten = []) : ps = [] := by
  apply List.eq_nil_iff_forall_not_mem.mpr
  intro p hp
  exact hne p hp (List.flatten_eq_nil_iff.mp h p hp)

end Azure.Reasoning
