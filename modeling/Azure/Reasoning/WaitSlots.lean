import Mathlib.Logic.Function.Basic

/-!
# Waiting in slots

Somebody who waits is in one slot, or has been taken out of it and not yet gone on.  Nobody else is
in a slot or woken.  The rules follow the three things that happen: one begins to wait in a free slot,
some are taken out and woken, and one that is woken goes on.
-/

namespace Azure.Reasoning

variable {κ φ : Type*}

structure WaitSlots (slot : κ → Option φ) (woken : φ → Bool) (waits : φ → Prop) : Prop where
  waiting : ∀ {k p}, slot k = some p → waits p ∧ woken p = false
  one : ∀ {k l p}, slot k = some p → slot l = some p → k = l
  called : ∀ {p}, woken p = true → waits p
  kept : ∀ {p}, waits p → woken p = true ∨ ∃ k, slot k = some p

namespace WaitSlots

variable {slot slot' : κ → Option φ} {woken woken' : φ → Bool} {waits waits' : φ → Prop}

/-- Some are taken out of their slots, and these are woken. -/
theorem wake (h : WaitSlots slot woken waits) (hless : ∀ {k p}, slot' k = some p → slot k = some p)
    (hwoken : ∀ p, woken' p = true ↔ woken p = true ∨ ∃ k, slot k = some p ∧ slot' k ≠ some p) :
    WaitSlots slot' woken' waits where
  waiting := fun {k p} hk => by
    obtain ⟨hwaits, hnot⟩ := h.waiting (hless hk)
    refine ⟨hwaits, ?_⟩
    by_contra hcalled
    rcases (hwoken p).mp (by simpa using hcalled) with hold | ⟨l, hl, hgone⟩
    · rw [hnot] at hold
      cases hold
    · -- nobody is in two slots
      obtain rfl := h.one (hless hk) hl
      exact hgone hk
  one := fun hk hl => h.one (hless hk) (hless hl)
  called := fun {p} hp => by
    rcases (hwoken p).mp hp with hold | ⟨k, hk, -⟩
    · exact h.called hold
    · exact (h.waiting hk).1
  kept := fun {p} hp => by
    rcases h.kept hp with hold | ⟨k, hk⟩
    · exact .inl ((hwoken p).mpr (.inl hold))
    · by_cases hk' : slot' k = some p
      · exact .inr ⟨k, hk'⟩
      · exact .inl ((hwoken p).mpr (.inr ⟨k, hk, hk'⟩))

/-- One who does not wait takes a free slot. -/
theorem register (h : WaitSlots slot woken waits) {k₀ : κ} {p₀ : φ} (hnot : ¬ waits p₀)
    (hk₀ : slot' k₀ = some p₀) (hfree : slot k₀ = none) (hother : ∀ k, k ≠ k₀ → slot' k = slot k)
    (hwaits : ∀ p, waits' p ↔ waits p ∨ p = p₀) : WaitSlots slot' woken waits' := by
  have hout : ∀ k, slot k ≠ some p₀ := fun k hk => hnot (h.waiting hk).1
  have hcases : ∀ {k p}, slot' k = some p → (k = k₀ ∧ p = p₀) ∨ slot k = some p := by
    intro k p hk
    by_cases heq : k = k₀
    · subst heq
      rw [hk₀] at hk
      exact .inl ⟨rfl, (Option.some.inj hk).symm⟩
    · rw [hother k heq] at hk
      exact .inr hk
  refine ⟨fun {k p} hk => ?_, fun {k l p} hk hl => ?_, fun {p} hp => ?_, fun {p} hp => ?_⟩
  · rcases hcases hk with ⟨rfl, rfl⟩ | hold
    · refine ⟨(hwaits p).mpr (.inr rfl), ?_⟩
      by_contra hcalled
      exact hnot (h.called (by simpa using hcalled))
    · exact ⟨(hwaits p).mpr (.inl (h.waiting hold).1), (h.waiting hold).2⟩
  · rcases hcases hk with ⟨rfl, rfl⟩ | hold
    · rcases hcases hl with ⟨rfl, -⟩ | hold'
      · rfl
      · exact absurd hold' (hout l)
    · rcases hcases hl with ⟨rfl, rfl⟩ | hold'
      · exact absurd hold (hout k)
      · exact h.one hold hold'
  · exact (hwaits p).mpr (.inl (h.called hp))
  · rcases (hwaits p).mp hp with hold | rfl
    · rcases h.kept hold with hcalled | ⟨k, hk⟩
      · exact .inl hcalled
      · refine .inr ⟨k, ?_⟩
        rw [hother k]
        · exact hk
        · rintro rfl
          rw [hfree] at hk
          cases hk
    · exact .inr ⟨k₀, hk₀⟩

/-- One who has been woken goes on. -/
theorem resume (h : WaitSlots slot woken waits) {p₀ : φ} (hp₀ : woken p₀ = true)
    (hwoken : ∀ p, woken' p = true ↔ woken p = true ∧ p ≠ p₀)
    (hwaits : ∀ p, waits' p ↔ waits p ∧ p ≠ p₀) : WaitSlots slot woken' waits' where
  waiting := fun {k p} hk => by
    obtain ⟨hold, hnot⟩ := h.waiting hk
    refine ⟨(hwaits p).mpr ⟨hold, ?_⟩, ?_⟩
    · rintro rfl
      rw [hnot] at hp₀
      cases hp₀
    · by_contra hcalled
      have := ((hwoken p).mp (by simpa using hcalled)).1
      rw [hnot] at this
      cases this
  one := h.one
  called := fun {p} hp => by
    obtain ⟨hold, hne⟩ := (hwoken p).mp hp
    exact (hwaits p).mpr ⟨h.called hold, hne⟩
  kept := fun {p} hp => by
    obtain ⟨hold, hne⟩ := (hwaits p).mp hp
    rcases h.kept hold with hcalled | hslot
    · exact .inl ((hwoken p).mpr ⟨hcalled, hne⟩)
    · exact .inr hslot

end WaitSlots

end Azure.Reasoning
