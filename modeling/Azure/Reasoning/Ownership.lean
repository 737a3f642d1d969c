import Mathlib.Algebra.Order.BigOperators.Group.Finset
import Mathlib.Data.List.Perm.Subperm

/-!
# Exclusive ownership

`held` lists what each owner has.  `Exclusive` says that nothing is held twice, by one owner or by
two.  The rules follow what a step does to the lists: something is let go, found, or handed over.
`Tally` adds up a weight of the owners' control states when only finitely many of them are not idle.
-/

namespace Azure.Reasoning

variable {ω ρ : Type*}

structure Exclusive (held : ω → List ρ) : Prop where
  once : ∀ o, (held o).Nodup
  one : ∀ {o o' r}, r ∈ held o → r ∈ held o' → o = o'

namespace Exclusive

variable {held held' : ω → List ρ}

theorem letGo (h : Exclusive held) (hless : ∀ o, (held' o).Subperm (held o)) : Exclusive held' where
  once := fun o => by
    obtain ⟨l, hperm, hsub⟩ := hless o
    exact hperm.nodup_iff.mp ((h.once o).sublist hsub)
  one := fun hr hr' => h.one ((hless _).subset hr) ((hless _).subset hr')

theorem find (h : Exclusive held) (dst : ω) (r : ρ) (hfree : ∀ o, r ∉ held o)
    (hdst : (held' dst).Perm (r :: held dst)) (hother : ∀ o, o ≠ dst → (held' o).Perm (held o)) :
    Exclusive held' where
  once := fun o => by
    by_cases ho : o = dst
    · subst ho
      exact hdst.nodup_iff.mpr (List.nodup_cons.mpr ⟨hfree o, h.once o⟩)
    · exact (hother o ho).nodup_iff.mpr (h.once o)
  one := fun {o o' q} hq hq' => by
    have hold : ∀ o, q ∈ held' o → (o = dst ∧ q = r) ∨ q ∈ held o := by
      intro o hq
      by_cases ho : o = dst
      · subst ho
        rcases List.mem_cons.mp (hdst.mem_iff.mp hq) with heq | hmem
        · exact .inl ⟨rfl, heq⟩
        · exact .inr hmem
      · exact .inr ((hother o ho).mem_iff.mp hq)
    rcases hold o hq with ⟨rfl, rfl⟩ | hmem
    · rcases hold o' hq' with ⟨rfl, -⟩ | hmem'
      · rfl
      · exact absurd hmem' (hfree o')
    · rcases hold o' hq' with ⟨rfl, rfl⟩ | hmem'
      · exact absurd hmem (hfree o)
      · exact h.one hmem hmem'

theorem handOver [DecidableEq ω] (h : Exclusive held) (src dst : ω) (r : ρ)
    (hsrc : (held src).Perm (r :: held' src)) (hdst : (held' dst).Perm (r :: held dst))
    (hother : ∀ o, o ≠ src → o ≠ dst → (held' o).Perm (held o)) : Exclusive held' := by
  have hne : src ≠ dst := by
    rintro rfl
    have hless := hsrc.length_eq
    have hmore := hdst.length_eq
    rw [List.length_cons] at hless hmore
    omega
  -- in between nobody has it
  let between : ω → List ρ := Function.update held src (held' src)
  have hbetween : Exclusive between := by
    apply h.letGo
    intro o
    by_cases ho : o = src
    · subst ho
      rw [show between o = held' o from Function.update_self ..]
      exact (List.Sublist.subperm (List.sublist_cons_self r _)).trans hsrc.symm.subperm
    · rw [show between o = held o from Function.update_of_ne ho ..]
  apply hbetween.find dst r
  · intro o hr
    by_cases ho : o = src
    · subst ho
      rw [show between o = held' o from Function.update_self ..] at hr
      exact (List.nodup_cons.mp (hsrc.nodup_iff.mp (h.once o))).1 hr
    · rw [show between o = held o from Function.update_of_ne ho ..] at hr
      exact ho (h.one hr (hsrc.mem_iff.mpr (List.mem_cons_self ..)))
  · rw [show between dst = held dst from Function.update_of_ne hne.symm ..]
    exact hdst
  · intro o ho
    by_cases ho' : o = src
    · subst ho'
      rw [show between o = held' o from Function.update_self ..]
    · rw [show between o = held o from Function.update_of_ne ho' ..]
      exact hother o ho' ho

end Exclusive

/-! ## Sums over the owners -/

variable {π : Type*}

/-- Outside of a finite set all are in the state `idle`, and the weights inside add up to `n`. -/
def Tally (idle : π) (weight : π → Nat) (state : ω → π) (n : Nat) : Prop :=
  ∃ busy : Finset ω, (∀ o, o ∉ busy → state o = idle) ∧ ∑ o ∈ busy, weight (state o) = n

namespace Tally

variable {idle : π} {weight : π → Nat} {state : ω → π} {n : Nat}

theorem of_idle (h : ∀ o, state o = idle) : Tally idle weight state 0 :=
  ⟨∅, fun o _ => h o, rfl⟩

theorem eq_zero (h : Tally idle weight state n) (hidle : weight idle = 0)
    (hall : ∀ o, state o = idle) : n = 0 := by
  obtain ⟨busy, -, rfl⟩ := h
  apply Finset.sum_eq_zero
  intro o _
  rw [hall o, hidle]

/-- The weight of one owner is part of the sum, and changes with its state. -/
theorem update [DecidableEq ω] (h : Tally idle weight state n) (hidle : weight idle = 0) (o : ω) :
    ∃ m, n = m + weight (state o) ∧
      ∀ p, Tally idle weight (Function.update state o p) (m + weight p) := by
  obtain ⟨busy, hout, rfl⟩ := h
  refine ⟨∑ o' ∈ busy.erase o, weight (state o'), ?_, fun p => ⟨insert o busy, ?_, ?_⟩⟩
  · by_cases ho : o ∈ busy
    · rw [Finset.sum_erase_add _ _ ho]
    · rw [Finset.erase_eq_of_notMem ho, hout o ho, hidle, Nat.add_zero]
  · intro o' ho'
    rw [Finset.mem_insert, not_or] at ho'
    rw [Function.update_of_ne ho'.1]
    exact hout o' ho'.2
  · rw [← Finset.insert_erase (Finset.mem_insert_self o busy), Finset.erase_insert_eq_erase,
      Finset.sum_insert (Finset.notMem_erase o busy), Function.update_self, Nat.add_comm]
    congr 1
    apply Finset.sum_congr rfl
    intro o' ho'
    rw [Function.update_of_ne (Finset.ne_of_mem_erase ho')]

/-- A larger weight has a larger sum. -/
theorem le {weight' : π → Nat} {m : Nat} (h : Tally idle weight state n) (h' : Tally idle weight' state m)
    (hidle : weight idle = 0) (hle : ∀ p, weight p ≤ weight' p) : n ≤ m := by
  obtain ⟨busy, hout, rfl⟩ := h
  obtain ⟨busy', hout', rfl⟩ := h'
  have hless : ∑ o ∈ busy, weight (state o) ≤ ∑ o ∈ busy', weight (state o) := by
    apply Finset.sum_le_sum_of_ne_zero
    intro o _ hne
    by_contra ho
    rw [hout' o ho] at hne
    exact hne hidle
  exact hless.trans (Finset.sum_le_sum fun o _ => hle (state o))

theorem unique {m : Nat} (h : Tally idle weight state n) (h' : Tally idle weight state m)
    (hidle : weight idle = 0) : n = m :=
  Nat.le_antisymm (h.le h' hidle fun _ => Nat.le_refl _) (h'.le h hidle fun _ => Nat.le_refl _)

/-- Every weight has a sum where one has. -/
theorem exists_add (h : Tally idle weight state n) (weight' : π → Nat) :
    ∃ m, Tally idle weight' state m ∧ Tally idle (fun p => weight p + weight' p) state (n + m) := by
  obtain ⟨busy, hout, rfl⟩ := h
  exact ⟨_, ⟨busy, hout, rfl⟩, busy, hout, Finset.sum_add_distrib⟩

theorem exists_pos (h : Tally idle weight state n) (hn : 0 < n) : ∃ o, 0 < weight (state o) := by
  obtain ⟨busy, -, rfl⟩ := h
  obtain ⟨o, -, ho⟩ := Finset.exists_ne_zero_of_sum_ne_zero (Nat.ne_of_gt hn)
  exact ⟨o, Nat.pos_of_ne_zero ho⟩

end Tally

end Azure.Reasoning
