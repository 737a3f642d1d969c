import Mathlib.Logic.Function.Basic

/-!
# Stamps

Contents come in under keys, each with a stamp, and act on a state.  What comes in under the stamp that its
key has on record is passed over.  Nothing is lost by that if a stamp tells what has been seen under a key, if
an action changes nothing the second time and if those of other keys do not undo it.
-/

namespace Azure.Reasoning

structure Stamped (K T V : Type) where
  key : K
  stamp : T
  val : V

namespace Stamped

variable {K T V M : Type} [DecidableEq K] [DecidableEq T] (act : V → M → M)

def replay (items : List (Stamped K T V)) (m : M) : M := items.foldl (fun m e => act e.val m) m

def refreshStep (st : (K → T) × M) (e : Stamped K T V) : (K → T) × M :=
  if st.1 e.key = e.stamp then st else (Function.update st.1 e.key e.stamp, act e.val st.2)

def refresh (items : List (Stamped K T V)) (st : (K → T) × M) : (K → T) × M :=
  items.foldl (refreshStep act) st

/-- What passing over relies on, for the states that `P` is true of; `blank` is on record for what has not
been seen. -/
structure Settling (P : M → Prop) (blank : T) (items : List (Stamped K T V)) : Prop where
  kept : ∀ e ∈ items, ∀ m, P m → P (act e.val m)
  fresh : ∀ e ∈ items, e.stamp ≠ blank
  same : ∀ e ∈ items, ∀ e' ∈ items, e.key = e'.key → e.stamp = e'.stamp → e.val = e'.val
  idem : ∀ e ∈ items, ∀ m, P m → act e.val (act e.val m) = act e.val m
  apart : ∀ e ∈ items, ∀ e' ∈ items, e.key ≠ e'.key → ∀ m, P m → act e.val m = m →
    act e.val (act e'.val m) = act e'.val m

structure Settled (P : M → Prop) (blank : T) (items : List (Stamped K T V)) (st : (K → T) × M) : Prop where
  holds : P st.2
  seen : ∀ k, st.1 k ≠ blank → ∃ e ∈ items, e.key = k ∧ e.stamp = st.1 k ∧ act e.val st.2 = st.2

variable {act} {P : M → Prop} {blank : T} {items : List (Stamped K T V)} {st : (K → T) × M}

omit [DecidableEq K] [DecidableEq T] in
/-- What is passed over is what the action would not change. -/
theorem Settled.act_eq (h : Settling act P blank items) (hst : Settled act P blank items st)
    {e : Stamped K T V} (he : e ∈ items) (hseen : st.1 e.key = e.stamp) : act e.val st.2 = st.2 := by
  obtain ⟨e', he', hkey, hstamp, hact⟩ := hst.seen e.key (hseen ▸ h.fresh e he)
  rw [h.same e he e' he' hkey.symm (hseen.symm.trans hstamp.symm)]
  exact hact

theorem Settled.step (h : Settling act P blank items) (hst : Settled act P blank items st)
    {e : Stamped K T V} (he : e ∈ items) :
    Settled act P blank items (refreshStep act st e) ∧ (refreshStep act st e).2 = act e.val st.2 := by
  rw [refreshStep]
  by_cases hseen : st.1 e.key = e.stamp
  · rw [if_pos hseen]
    exact ⟨hst, (hst.act_eq h he hseen).symm⟩
  · rw [if_neg hseen]
    refine ⟨⟨h.kept e he st.2 hst.holds, fun k hk => ?_⟩, rfl⟩
    dsimp only at hk ⊢
    by_cases hkey : k = e.key
    · subst hkey
      exact ⟨e, he, rfl, by rw [Function.update_self], h.idem e he st.2 hst.holds⟩
    · rw [Function.update_of_ne hkey] at hk ⊢
      obtain ⟨e', he', rfl, hstamp, hact⟩ := hst.seen k hk
      exact ⟨e', he', rfl, hstamp, h.apart e' he' e he hkey st.2 hst.holds hact⟩

theorem Settled.run (h : Settling act P blank items) (hst : Settled act P blank items st)
    {later : List (Stamped K T V)} (hlater : ∀ e ∈ later, e ∈ items) :
    Settled act P blank items (refresh act later st) ∧ (refresh act later st).2 = replay act later st.2 := by
  induction later generalizing st with
  | nil => exact ⟨hst, rfl⟩
  | cons e later ih =>
    obtain ⟨hstep, hact⟩ := hst.step h (hlater e List.mem_cons_self)
    have hrest := ih hstep fun e' he' => hlater e' (List.mem_cons_of_mem e he')
    rw [hact] at hrest
    exact hrest

/-- Passing over what is on record leaves the state that is there when everything acts, and all that is on
record in the end would change nothing. -/
theorem refresh_eq_replay (h : Settling act P blank items) {m : M} (hm : P m) :
    (refresh act items (fun _ => blank, m)).2 = replay act items m ∧
      ∀ e ∈ items, (refresh act items (fun _ => blank, m)).1 e.key = e.stamp →
        act e.val (replay act items m) = replay act items m := by
  have hstart : Settled act P blank items ((fun _ => blank, m) : (K → T) × M) :=
    ⟨hm, fun k hk => absurd rfl hk⟩
  obtain ⟨hsettled, heq⟩ := hstart.run h fun _ he => he
  refine ⟨heq, fun e he hseen => ?_⟩
  rw [← heq]
  exact hsettled.act_eq h he hseen

end Stamped

end Azure.Reasoning
