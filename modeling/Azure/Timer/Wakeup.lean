import Azure.Timer.Lifecycle
import Mathlib.Algebra.Order.Ring.WithTop
import Mathlib.Algebra.Ring.Int.Defs
import Mathlib.Algebra.Ring.Nat
import Mathlib.Data.List.MinMax
import Mathlib.Data.Nat.Cast.Order.Ring

/-!
# No lost wake-up

A thread sleeps for the time `getNextTimer` gave it and is woken early by
`onTimerInsertedAtFront`.  `Sleeper` is what such a thread goes by, and the invariant says that
without a notification nothing in the set is due before the deadline it saw.  Two paths insert
without notifying, `refresh` and the loop of `listExpiredCb`; they are safe because every deadline
is some past clock reading plus the timer's period, so arming a timer again moves it later.
-/

namespace Azure

open Reasoning OrderedSet

variable {F W : Type}

namespace TimerManager

/-- The earliest deadline in `m_timers`, infinity for an empty set. -/
def earliest (m : TimerManager F W) : WithTop Nat :=
  (m.timers.map fun a => (m.heap.next a).toNat).minimum

/-- What a thread waiting on the manager goes by: the earliest deadline its last `getNextTimer`
saw, whether `onTimerInsertedAtFront` was called since, and the last clock reading. -/
structure Sleeper where
  seen : WithTop Nat := ⊤
  notified : Bool := false
  clock : UInt64

def reading : TimerOp F W → Option UInt64
  | .addTimer _ _ _ _ now => some now
  | .addConditionTimer _ _ _ _ _ now => some now
  | .cancel _ => none
  | .refresh _ now => some now
  | .reset _ _ _ now => some now
  | .getNextTimer now => some now
  | .listExpiredCb _ now => some now

def Sleeper.observe (m : TimerManager F W) (e : TimerEvent F W) (w : Sleeper) : Sleeper :=
  let clock := (reading e.1).getD w.clock
  match e.1 with
  | .getNextTimer _ => { seen := m.earliest, notified := false, clock }
  | _ => { w with notified := w.notified || e.2.insertedAtFront, clock }

/-- The deadlines a call computes stay below `2^64`. -/
def NoOverflow (m : TimerManager F W) (e : TimerEvent F W) : Prop :=
  match e.1 with
  | .addTimer _ ms _ _ now => now.toNat + ms.toNat < 2 ^ 64
  | .addConditionTimer _ ms _ _ _ now => now.toNat + ms.toNat < 2 ^ 64
  | .refresh a now => a ∈ m.timers → ∀ t, m.heap a = some t → now.toNat + t.ms.toNat < 2 ^ 64
  | .reset a ms fromNow now => a ∈ m.timers → ∀ t, m.heap a = some t →
      (resetStart t fromNow now).toNat + ms.toNat < 2 ^ 64
  | .listExpiredCb _ now => ∀ a ∈ collectedBy e, ∀ t, m.heap a = some t → t.recurring = true →
      now.toNat + t.ms.toNat < 2 ^ 64
  | .cancel _ => True
  | .getNextTimer _ => True

/-- The clock does not go back and no deadline overflows. -/
def Steady (s : TimerManager F W × Sleeper) (e : TimerEvent F W) : Prop :=
  (∀ now, reading e.1 = some now → s.2.clock ≤ now) ∧ NoOverflow s.1 e

def WatchedStep (s : TimerManager F W × Sleeper) (e : TimerEvent F W)
    (s' : TimerManager F W × Sleeper) : Prop :=
  Step s.1 e s'.1 ∧ s'.2 = s.2.observe s.1 e

/-- The sleeper only looks on: every run of the manager is a watched run. -/
theorem exists_watched {m m' : TimerManager F W} {hist : List (TimerEvent F W)}
    (hrun : Run Step m hist m') (w : Sleeper) : ∃ w', Run WatchedStep (m, w) hist (m', w') := by
  have hsim : ∃ s', Run WatchedStep (m, w) hist s' ∧ s'.1 = m' := by
    apply hrun.simulation (fun (m : TimerManager F W) (s : TimerManager F W × Sleeper) => s.1 = m)
      rfl
    intro m e m' s hm hs
    subst hm
    exact ⟨(m', s.2.observe s.1 e), ⟨hs, rfl⟩, rfl⟩
  rcases hsim with ⟨⟨_, w'⟩, hw, rfl⟩
  exact ⟨w', hw⟩

/-! ## The set and its deadlines -/

/-- The deadline is a past clock reading plus the period. -/
def Started (clock : UInt64) (t : Timer F W) : Prop :=
  ∃ start ≤ clock.toNat, t.next.toNat = start + t.ms.toNat

/-- The set is ordered by the current deadlines, and the pending timers are in it or in `rest`, the
timers that an operation has taken out and not yet dealt with. -/
structure Placed (clock : UInt64) (rest : List Addr) (h : TimerHeap F W) (ts : List Addr) :
    Prop where
  sorted : Sorted h.less ts
  nodup : rest.Nodup
  outside : ∀ a ∈ rest, a ∉ ts
  started : ∀ a, a ∈ ts ∨ a ∈ rest → ∃ t, h a = some t ∧ Started clock t
  pending : ∀ a t, h a = some t → t.cb.isSome → a ∈ ts ∨ a ∈ rest

def NotBefore (seen : WithTop Nat) (h : TimerHeap F W) (ts : List Addr) : Prop :=
  ∀ a ∈ ts, seen ≤ ((h.next a).toNat : WithTop Nat)

theorem Started.mono {clock clock' : UInt64} {t : Timer F W} (h : Started clock t)
    (hle : clock ≤ clock') : Started clock' t := by
  rcases h with ⟨start, hstart, hnext⟩
  exact ⟨start, Nat.le_trans hstart (UInt64.le_iff_toNat_le.mp hle), hnext⟩

/-- Arming from a clock reading. -/
theorem started_add {clock now ms : UInt64} {t : Timer F W} (hle : now ≤ clock)
    (hlt : now.toNat + ms.toNat < 2 ^ 64) (hnext : t.next = now + ms) (hms : t.ms = ms) :
    Started clock t := by
  refine ⟨now.toNat, UInt64.le_iff_toNat_le.mp hle, ?_⟩
  rw [hnext, hms, UInt64.toNat_add, Nat.mod_eq_of_lt hlt]

theorem Placed.mono {clock clock' : UInt64} {rest ts : List Addr} {h : TimerHeap F W}
    (hp : Placed clock rest h ts) (hle : clock ≤ clock') : Placed clock' rest h ts where
  sorted := hp.sorted
  nodup := hp.nodup
  outside := hp.outside
  started a ha := (hp.started a ha).imp fun _ ht => ⟨ht.1, ht.2.mono hle⟩
  pending := hp.pending

/-- A new object waits to be inserted. -/
theorem Placed.create {clock : UInt64} {ts : List Addr} {h : TimerHeap F W} {a : Addr}
    {t : Timer F W} (hp : Placed clock [] h ts) (hfree : h a = none) (ht : Started clock t) :
    Placed clock [a] (h.store a t) ts := by
  have hna : a ∉ ts := by
    intro ha
    rcases hp.started a (Or.inl ha) with ⟨t', ht', -⟩
    rw [hfree] at ht'
    cases ht'
  refine ⟨TimerHeap.sorted_store t hp.sorted hna, by simp, by simpa using hna, ?_, ?_⟩
  · intro b hb
    by_cases hba : b = a
    · subst hba; exact ⟨t, by simp, ht⟩
    · simpa [hba] using hp.started b (by simpa [hba] using hb)
  · intro b s hs hcb
    by_cases hba : b = a
    · subst hba; simp
    · exact Or.inl (by simpa using hp.pending b s (by simpa [hba] using hs) hcb)

/-- Erasing a member. -/
theorem Placed.erase {clock : UInt64} {ts : List Addr} {h : TimerHeap F W} {a : Addr}
    (hp : Placed clock [] h ts) (ha : a ∈ ts) :
    Placed clock [a] h (ts.eraseIdx (find h.less a ts)) := by
  have hmem := mem_eraseIdx_find h.less_strictTotal hp.sorted ha
  refine ⟨hp.sorted.eraseIdx _, by simp, by simp [hmem], ?_, ?_⟩
  · intro b hb
    apply hp.started b
    rcases hb with hb | hb
    · exact Or.inl ((hmem b).mp hb).1
    · exact Or.inl (by simpa [List.mem_singleton.mp hb] using ha)
  · intro b s hs hcb
    have hb := (hp.pending b s hs hcb).resolve_right (by simp)
    by_cases hba : b = a
    · exact Or.inr (by simp [hba])
    · exact Or.inl ((hmem b).mpr ⟨hb, hba⟩)

/-- A store to a timer that was taken out. -/
theorem Placed.store {clock : UInt64} {rest ts : List Addr} {h : TimerHeap F W} {a : Addr}
    {t : Timer F W} (hp : Placed clock (a :: rest) h ts) (ht : Started clock t) :
    Placed clock (a :: rest) (h.store a t) ts := by
  have hna : a ∉ ts := hp.outside a (by simp)
  refine ⟨TimerHeap.sorted_store t hp.sorted hna, hp.nodup, hp.outside, ?_, ?_⟩
  · intro b hb
    by_cases hba : b = a
    · subst hba; exact ⟨t, by simp, ht⟩
    · simpa [hba] using hp.started b hb
  · intro b s hs hcb
    by_cases hba : b = a
    · subst hba; simp
    · exact hp.pending b s (by simpa [hba] using hs) hcb

/-- Putting a timer back. -/
theorem Placed.insert {clock : UInt64} {rest ts : List Addr} {h : TimerHeap F W} {a : Addr}
    (hp : Placed clock (a :: rest) h ts) :
    Placed clock rest h (OrderedSet.insert h.less a ts).2 := by
  have hna : a ∉ ts := hp.outside a (by simp)
  have hmem := mem_insert h.less_strictTotal hp.sorted hna
  have hnd := List.nodup_cons.mp hp.nodup
  refine ⟨Sorted.insert h.less_strictTotal hp.sorted hna, hnd.2, ?_, ?_, ?_⟩
  · intro b hb
    rw [hmem, not_or]
    exact ⟨fun e => hnd.1 (e ▸ hb), hp.outside b (by simp [hb])⟩
  · intro b hb
    apply hp.started b
    rw [hmem] at hb
    rw [List.mem_cons]
    tauto
  · intro b s hs hcb
    have hb := hp.pending b s hs hcb
    rw [hmem]
    rw [List.mem_cons] at hb
    tauto

/-- A timer without a callback may stay out. -/
theorem Placed.leave {clock : UInt64} {rest ts : List Addr} {h : TimerHeap F W} {a : Addr}
    {t : Timer F W} (hp : Placed clock (a :: rest) h ts) (ht : h a = some t) (hcb : t.cb = none) :
    Placed clock rest h ts := by
  refine ⟨hp.sorted, (List.nodup_cons.mp hp.nodup).2, ?_, ?_, ?_⟩
  · exact fun b hb => hp.outside b (by simp [hb])
  · exact fun b hb => hp.started b (hb.imp id (by simp +contextual))
  · intro b s hs hsome
    have hb := hp.pending b s hs hsome
    have hba : b ≠ a := by
      rintro rfl
      rw [ht] at hs
      cases hs
      simp [hcb] at hsome
    simpa [hba] using hb

/-- Taking out the expired prefix. -/
theorem Placed.takePrefix {clock : UInt64} {ts : List Addr} {h : TimerHeap F W}
    (hp : Placed clock [] h ts) (n : Nat) : Placed clock (ts.take n) h (ts.drop n) := by
  have hnd := hp.sorted.nodup h.less_strictTotal
  rw [← List.take_append_drop n ts, List.nodup_append] at hnd
  have hmem : ∀ a, a ∈ ts ↔ a ∈ ts.drop n ∨ a ∈ ts.take n := by
    intro a
    conv_lhs => rw [← List.take_append_drop n ts, List.mem_append]
    exact or_comm
  refine ⟨hp.sorted.sublist (List.drop_sublist _ _), hnd.1, ?_, ?_, ?_⟩
  · exact fun a ha hd => hnd.2.2 a ha a hd rfl
  · exact fun a ha => hp.started a (Or.inl ((hmem a).mpr ha))
  · intro a t ht hcb
    exact (hmem a).mp ((hp.pending a t ht hcb).resolve_right (by simp))

/-! ### Nothing due before -/

theorem NotBefore.store {seen : WithTop Nat} {h : TimerHeap F W} {ts : List Addr} {a : Addr}
    (hq : NotBefore seen h ts) (t : Timer F W) (hna : a ∉ ts) :
    NotBefore seen (h.store a t) ts := by
  intro b hb
  have hba : b ≠ a := fun e => hna (e ▸ hb)
  rw [TimerHeap.next_store_other h t hba]
  exact hq b hb

theorem NotBefore.subset {seen : WithTop Nat} {h : TimerHeap F W} {ts ts' : List Addr}
    (hq : NotBefore seen h ts) (hsub : ts' ⊆ ts) : NotBefore seen h ts' :=
  fun a ha => hq a (hsub ha)

theorem NotBefore.insert {seen : WithTop Nat} {clock : UInt64} {rest ts : List Addr}
    {h : TimerHeap F W} {a : Addr} (hq : NotBefore seen h ts) (hp : Placed clock (a :: rest) h ts)
    (hle : seen ≤ ((h.next a).toNat : WithTop Nat)) :
    NotBefore seen h (OrderedSet.insert h.less a ts).2 := by
  intro b hb
  rw [mem_insert h.less_strictTotal hp.sorted (hp.outside a (by simp))] at hb
  rcases hb with rfl | hb
  · exact hle
  · exact hq b hb

/-- A timer inserted elsewhere than at the front is due no earlier than some member. -/
theorem NotBefore.insert_behind {seen : WithTop Nat} {clock : UInt64} {rest ts : List Addr}
    {h : TimerHeap F W} {a : Addr} (hq : NotBefore seen h ts) (hp : Placed clock (a :: rest) h ts)
    (hfront : (OrderedSet.insert h.less a ts).1 ≠ 0) :
    NotBefore seen h (OrderedSet.insert h.less a ts).2 := by
  have hna : a ∉ ts := hp.outside a (by simp)
  apply hq.insert hp
  rw [ne_eq, insert_fst_eq_zero_iff h.less_strictTotal hp.sorted hna] at hfront
  push Not at hfront
  rcases hfront with ⟨b, hb, hless⟩
  have hle : h.next b ≤ h.next a := by
    rw [ne_eq, TimerHeap.less_iff, not_or] at hless
    exact UInt64.not_lt.mp hless.1
  have hnat : (h.next b).toNat ≤ (h.next a).toNat := UInt64.le_iff_toNat_le.mp hle
  calc seen ≤ ((h.next b).toNat : WithTop Nat) := hq b hb
    _ ≤ ((h.next a).toNat : WithTop Nat) := by exact_mod_cast hnat

/-- The earliest deadline bounds every deadline from below. -/
theorem notBefore_iff (m : TimerManager F W) (seen : WithTop Nat) :
    NotBefore seen m.heap m.timers ↔ seen ≤ m.earliest := by
  constructor
  · intro hq
    apply List.le_minimum_of_forall_le
    intro d hd
    rcases List.mem_map.mp hd with ⟨a, ha, rfl⟩
    exact hq a ha
  · intro hle a ha
    exact hle.trans (List.minimum_le_of_mem' (List.mem_map_of_mem ha))

/-! ## The invariant -/

structure Awake (m : TimerManager F W) (w : Sleeper) : Prop where
  placed : Placed w.clock [] m.heap m.timers
  previous : m.previousTime ≤ w.clock
  notified : w.notified = m.tickled
  trusts : m.tickled = false → NotBefore w.seen m.heap m.timers

theorem awake_new (start : UInt64) :
    Awake (new start : TimerManager F W) { clock := start } where
  placed := ⟨List.Pairwise.nil, by simp, by simp, by simp [new], by simp [new]⟩
  previous := UInt64.le_refl _
  notified := rfl
  trusts _ := by simp [NotBefore, new]

/-- The locked `addTimer` notifies, or what it inserts is due no earlier than a member. -/
theorem addTimerLocked_awake {m : TimerManager F W} {clock : UInt64} (seen : WithTop Nat)
    {a : Addr} (hp : Placed clock [a] m.heap m.timers)
    (ht : m.tickled = false → NotBefore seen m.heap m.timers) :
    Placed clock [] (m.addTimerLocked a).2.heap (m.addTimerLocked a).2.timers ∧
      (m.addTimerLocked a).2.tickled = (m.tickled || (m.addTimerLocked a).1) ∧
      ((m.addTimerLocked a).2.tickled = false →
        NotBefore seen (m.addTimerLocked a).2.heap (m.addTimerLocked a).2.timers) := by
  refine ⟨hp.insert, rfl, ?_⟩
  intro hq
  -- no flag afterwards means no flag before and a place behind another timer
  have hq' : m.tickled = false ∧ (OrderedSet.insert m.heap.less a m.timers).1 ≠ 0 := by
    cases htick : m.tickled <;> simp_all [addTimerLocked]
  exact (ht hq'.1).insert_behind hp hq'.2

/-- Arming a timer again from a later reading moves its deadline later. -/
theorem Started.rearm {clock now : UInt64} {t : Timer F W} (h : Started clock t)
    (hle : clock ≤ now) (hlt : now.toNat + t.ms.toNat < 2 ^ 64) :
    t.next.toNat ≤ (now + t.ms).toNat := by
  rcases h with ⟨start, hstart, hnext⟩
  have hclock := UInt64.le_iff_toNat_le.mp hle
  rw [UInt64.toNat_add, Nat.mod_eq_of_lt hlt]
  omega

/-! ## The calls -/

theorem addTimer_awake {m : TimerManager F W} {w : Sleeper} (h : Awake m w) {a : Addr}
    (hfree : m.heap a = none) {ms now : UInt64} (hle : w.clock ≤ now)
    (hlt : now.toNat + ms.toNat < 2 ^ 64) (cb : Option (Callback F W)) (recurring : Bool) :
    Awake (m.addTimer a ms cb recurring now).2
      { w with notified := w.notified || (m.addTimer a ms cb recurring now).1, clock := now } := by
  have hp := (h.placed.mono hle).create (t := { recurring, ms, next := now + ms, cb }) hfree
    (started_add (UInt64.le_refl now) hlt rfl rfl)
  have hlock := addTimerLocked_awake (m := { m with heap := _ }) w.seen hp
    fun ht => (h.trusts ht).store _ (hp.outside a (by simp))
  refine ⟨hlock.1, UInt64.le_trans h.previous hle, ?_, hlock.2.2⟩
  show (w.notified || (m.addTimer a ms cb recurring now).1) = _
  rw [h.notified]
  exact hlock.2.1.symm

theorem cancel_awake {m : TimerManager F W} {w : Sleeper} (h : Awake m w) {a : Addr}
    {r : Bool × TimerManager F W} (hr : m.cancel a = some r) : Awake r.2 w := by
  unfold cancel at hr
  cases ht : m.heap a with
  | none => simp [ht] at hr
  | some t =>
    simp only [ht] at hr
    split at hr
    · next hcb =>
      have ha : a ∈ m.timers := (h.placed.pending a t ht hcb).resolve_right (by simp)
      -- the set is searched with the deadlines it is ordered by
      have hless : (m.heap.store a { t with cb := none }).less = m.heap.less :=
        TimerHeap.less_store_of_next ht rfl
      split at hr
      · cases hr
      · cases hr
        rcases h.placed.started a (Or.inl ha) with ⟨t', ht', hstart⟩
        rw [ht] at ht'
        cases ht'
        have hp := h.placed.erase ha
        refine ⟨?_, h.previous, h.notified, fun htick => ?_⟩
        · show Placed _ _ _ (m.timers.eraseIdx (find (TimerHeap.less _) a m.timers))
          rw [hless]
          exact (hp.store (t := { t with cb := none }) hstart).leave (TimerHeap.store_self ..) rfl
        · show NotBefore _ _ (m.timers.eraseIdx (find (TimerHeap.less _) a m.timers))
          rw [hless]
          exact ((h.trusts htick).subset (List.eraseIdx_subset ..)).store _
            (hp.outside a (by simp))
    · cases hr
      exact h

theorem refresh_awake {m : TimerManager F W} {w : Sleeper} (h : Awake m w) {a : Addr}
    {now : UInt64} (hle : w.clock ≤ now)
    (hlt : a ∈ m.timers → ∀ t, m.heap a = some t → now.toNat + t.ms.toNat < 2 ^ 64)
    {r : Bool × TimerManager F W} (hr : m.refresh a now = some r) :
    Awake r.2 { w with clock := now } := by
  have hsame : Awake m { w with clock := now } :=
    ⟨h.placed.mono hle, UInt64.le_trans h.previous hle, h.notified, h.trusts⟩
  unfold refresh at hr
  cases ht : m.heap a with
  | none => simp [ht] at hr
  | some t =>
    simp only [ht] at hr
    split at hr
    · cases hr
      exact hsame
    · next hcb =>
      split at hr
      · cases hr
        exact hsame
      · cases hr
        have ha : a ∈ m.timers :=
          (h.placed.pending a t ht (by simpa [Option.isSome_iff_ne_none] using hcb)).resolve_right (by simp)
        rcases h.placed.started a (Or.inl ha) with ⟨t', ht', hstart⟩
        rw [ht] at ht'
        cases ht'
        have hp := (hsame.placed.erase ha).store (t := { t with next := now + t.ms })
          (started_add (UInt64.le_refl now) (hlt ha t ht) rfl rfl)
        refine ⟨hp.insert, hsame.previous, h.notified, fun htick => ?_⟩
        -- the new deadline is no earlier than the old one, which the sleeper already counts on
        have hq : NotBefore w.seen m.heap (m.timers.eraseIdx (find m.heap.less a m.timers)) :=
          (h.trusts htick).subset (List.eraseIdx_subset ..)
        apply (hq.store _ (hp.outside a (by simp))).insert hp
        have hold : w.seen ≤ ((m.heap.next a).toNat : WithTop Nat) := h.trusts htick a ha
        have hnew : (m.heap.next a).toNat ≤ (now + t.ms).toNat := by
          simpa [TimerHeap.next, ht] using hstart.rearm hle (hlt ha t ht)
        simp only [TimerHeap.next, TimerHeap.store_self]
        exact hold.trans (by exact_mod_cast hnew)

theorem reset_awake {m : TimerManager F W} {w : Sleeper} (h : Awake m w) {a : Addr}
    {ms : UInt64} {fromNow : Bool} {now : UInt64} (hle : w.clock ≤ now)
    (hlt : a ∈ m.timers → ∀ t, m.heap a = some t →
      (resetStart t fromNow now).toNat + ms.toNat < 2 ^ 64)
    {r : Bool × Bool × TimerManager F W} (hr : m.reset a ms fromNow now = some r) :
    Awake r.2.2 { w with notified := w.notified || r.2.1, clock := now } := by
  have hsame : Awake m { w with notified := w.notified || false, clock := now } :=
    ⟨h.placed.mono hle, UInt64.le_trans h.previous hle, by simpa using h.notified, h.trusts⟩
  unfold reset at hr
  cases ht : m.heap a with
  | none => simp [ht] at hr
  | some t =>
    simp only [ht] at hr
    split at hr
    · cases hr
      exact hsame
    split at hr
    · cases hr
      exact hsame
    next hcb =>
    split at hr
    · cases hr
      exact hsame
    cases hr
    have ha : a ∈ m.timers :=
      (h.placed.pending a t ht (by simpa [Option.isSome_iff_ne_none] using hcb)).resolve_right (by simp)
    rcases h.placed.started a (Or.inl ha) with ⟨t', ht', hstart⟩
    rw [ht] at ht'
    cases ht'
    -- the start the new period counts from is again a past clock reading
    have hreset : Started now
        { t with ms := ms, next := (if fromNow = true then now else t.next - t.ms) + ms } := by
      refine ⟨(resetStart t fromNow now).toNat, ?_, ?_⟩
      · rcases hstart with ⟨start, hs, hnext⟩
        have hclock := UInt64.le_iff_toNat_le.mp hle
        unfold resetStart
        split
        · exact Nat.le_refl _
        · rw [UInt64.toNat_sub_of_le _ _ (UInt64.le_iff_toNat_le.mpr (by omega))]
          omega
      · have hno := hlt ha t ht
        unfold resetStart at hno ⊢
        rw [UInt64.toNat_add, Nat.mod_eq_of_lt hno]
    have hp := (hsame.placed.erase ha).store hreset
    have hlock := addTimerLocked_awake (m := { m with heap := _, timers := _ }) w.seen hp fun htick =>
        ((h.trusts htick).subset (List.eraseIdx_subset ..)).store _ (hp.outside a (by simp))
    refine ⟨hlock.1, hsame.previous, ?_, hlock.2.2⟩
    show (w.notified || _) = _
    rw [h.notified]
    exact hlock.2.1.symm

theorem getNextTimer_awake {m : TimerManager F W} {w : Sleeper} (h : Awake m w) {now : UInt64}
    (hle : w.clock ≤ now) :
    Awake (m.getNextTimer now).2 { seen := m.earliest, notified := false, clock := now } := by
  have hsnd : (m.getNextTimer now).2 = { m with tickled := false } := by
    unfold getNextTimer
    split <;> rfl
  rw [hsnd]
  exact ⟨h.placed.mono hle, UInt64.le_trans h.previous hle, rfl,
    fun _ => (notBefore_iff m m.earliest).mpr le_rfl⟩

/-! ### `listExpiredCb` -/

/-- The loop of `listExpiredCb` between two turns: nothing in the set and nothing still to be
visited is due before `seen`. -/
structure Rearming (now : UInt64) (seen : WithTop Nat) (rest : List Addr)
    (m : TimerManager F W) : Prop where
  placed : Placed now rest m.heap m.timers
  fits : ∀ a ∈ rest, ∀ t, m.heap a = some t → t.recurring = true →
    now.toNat + t.ms.toNat < 2 ^ 64
  trusts : m.tickled = false → NotBefore seen m.heap m.timers ∧ NotBefore seen m.heap rest

theorem expireOne_rearming {m : TimerManager F W} {now : UInt64} {seen : WithTop Nat} {a : Addr}
    {rest : List Addr} (h : Rearming now seen (a :: rest) m) :
    Rearming now seen rest (expireOne now m a) := by
  rcases h.placed.started a (by simp) with ⟨t, ht, hstart⟩
  have hna : a ∉ m.timers := h.placed.outside a (by simp)
  have hrest : a ∉ rest := (List.nodup_cons.mp h.placed.nodup).1
  have hfits : ∀ s : Timer F W, ∀ b ∈ rest, ∀ t, m.heap.store a s b = some t →
      t.recurring = true → now.toNat + t.ms.toNat < 2 ^ 64 := by
    intro s b hb t ht hrec
    have hba : b ≠ a := fun e => hrest (e ▸ hb)
    rw [TimerHeap.store_other _ _ hba] at ht
    exact h.fits b (by simp [hb]) t ht hrec
  -- a store to a timer outside of the set changes no deadline that counts
  have hlater : m.tickled = false → ∀ s : Timer F W,
      NotBefore seen (m.heap.store a s) m.timers ∧ NotBefore seen (m.heap.store a s) rest := by
    intro htick s
    have hq := h.trusts htick
    exact ⟨hq.1.store s hna, (hq.2.subset (List.subset_cons_self a rest)).store s hrest⟩
  by_cases hrec : t.recurring = true
  · have hno := h.fits a (by simp) t ht hrec
    have hp := h.placed.store (t := { t with next := now + t.ms })
      (started_add (UInt64.le_refl now) hno rfl rfl)
    rw [expireOne_recurring ht hrec]
    refine ⟨hp.insert, hfits _, fun htick => ⟨?_, (hlater htick _).2⟩⟩
    apply (hlater htick _).1.insert hp
    have hold : seen ≤ ((m.heap.next a).toNat : WithTop Nat) :=
      (h.trusts htick).2 a (by simp)
    have hnew : (m.heap.next a).toNat ≤ (now + t.ms).toNat := by
      simpa [TimerHeap.next, ht] using hstart.rearm (UInt64.le_refl now) hno
    simp only [TimerHeap.next, TimerHeap.store_self]
    exact hold.trans (by exact_mod_cast hnew)
  · rw [expireOne_oneShot ht (by simpa using hrec)]
    have hp := h.placed.store (t := { t with cb := none }) hstart
    exact ⟨hp.leave (TimerHeap.store_self ..) rfl, hfits _, fun htick => hlater htick _⟩

theorem expireOne_flags (now : UInt64) (m : TimerManager F W) (a : Addr) :
    (expireOne now m a).tickled = m.tickled ∧
      (expireOne now m a).previousTime = m.previousTime := by
  unfold expireOne
  split
  · exact ⟨rfl, rfl⟩
  · split <;> exact ⟨rfl, rfl⟩

theorem expireFold_rearming {now : UInt64} {seen : WithTop Nat} {rest : List Addr}
    {m : TimerManager F W} (h : Rearming now seen rest m) :
    Rearming now seen [] (rest.foldl (expireOne now) m) ∧
      (rest.foldl (expireOne now) m).tickled = m.tickled ∧
      (rest.foldl (expireOne now) m).previousTime = m.previousTime := by
  induction rest generalizing m with
  | nil => exact ⟨h, rfl, rfl⟩
  | cons a rest ih =>
    have hflags := expireOne_flags now m a
    have hrun := ih (expireOne_rearming h)
    exact ⟨hrun.1, hrun.2.1.trans hflags.1, hrun.2.2.trans hflags.2⟩

theorem listExpiredCb_awake {m : TimerManager F W} {w : Sleeper} (h : Awake m w)
    {nowTimer : Addr} {now : UInt64} (hle : w.clock ≤ now)
    (hlt : ∀ a ∈ (m.listExpiredCb nowTimer now).1.map Prod.fst, ∀ t, m.heap a = some t →
      t.recurring = true → now.toNat + t.ms.toNat < 2 ^ 64) :
    Awake (m.listExpiredCb nowTimer now).2 { w with clock := now } := by
  rcases listExpiredCb_cases m nowTimer now with ⟨n, previous, -, hprev, hcol, hres⟩
  rw [hcol] at hlt
  rw [hres]
  have hstart : Rearming now w.seen (m.timers.take n)
      { m with previousTime := previous, timers := m.timers.drop n } := by
    refine ⟨(h.placed.mono hle).takePrefix n, ?_, fun htick => ?_⟩
    · simpa [Function.comp_def] using hlt
    · exact ⟨(h.trusts htick).subset (List.drop_subset ..),
        (h.trusts htick).subset (List.take_subset ..)⟩
  have hfold := expireFold_rearming hstart
  refine ⟨hfold.1.placed, ?_, h.notified.trans hfold.2.1.symm, fun htick => ?_⟩
  · rw [hfold.2.2]
    rcases hprev with rfl | rfl
    · exact UInt64.le_trans h.previous hle
    · exact UInt64.le_refl _
  · exact (hfold.1.trusts htick).1

/-! ## Runs -/

theorem watchedStep_awake {s s' : TimerManager F W × Sleeper} {e : TimerEvent F W}
    (h : Awake s.1 s.2) (hg : Steady s e) (hs : WatchedStep s e s') : Awake s'.1 s'.2 := by
  rcases s with ⟨m, w⟩
  rcases s' with ⟨m', w'⟩
  rcases e with ⟨op, eff⟩
  rcases hs with ⟨hcall, hw⟩
  rcases hg with ⟨hclock, hno⟩
  dsimp only at h hcall hw hclock hno ⊢
  subst hw
  unfold Step at hcall
  cases op with
  | addTimer a ms cb recurring now =>
    simp only [call, Option.isSome_iff_ne_none, ne_eq, ite_not] at hcall
    split at hcall
    · next hfree =>
      cases hcall
      exact addTimer_awake h hfree (hclock now rfl) hno cb recurring
    · cases hcall
  | addConditionTimer a ms cb weakCond recurring now =>
    simp only [call, Option.isSome_iff_ne_none, ne_eq, ite_not] at hcall
    split at hcall
    · next hfree =>
      cases hcall
      exact addTimer_awake h hfree (hclock now rfl) hno (some (.onTimer weakCond cb)) recurring
    · cases hcall
  | cancel a =>
    simp only [call, Option.map_eq_some_iff] at hcall
    rcases hcall with ⟨r, hr, heq⟩
    cases heq
    simpa [Sleeper.observe, reading] using cancel_awake h hr
  | refresh a now =>
    simp only [call, Option.map_eq_some_iff] at hcall
    rcases hcall with ⟨r, hr, heq⟩
    cases heq
    simpa [Sleeper.observe, reading] using refresh_awake h (hclock now rfl) hno hr
  | reset a ms fromNow now =>
    simp only [call, Option.map_eq_some_iff] at hcall
    rcases hcall with ⟨r, hr, heq⟩
    cases heq
    exact reset_awake h (hclock now rfl) hno hr
  | getNextTimer now =>
    cases hcall
    exact getNextTimer_awake h (hclock now rfl)
  | listExpiredCb nowTimer now =>
    simp only [call] at hcall
    split at hcall
    · cases hcall
    · cases hcall
      simpa [Sleeper.observe, reading] using listExpiredCb_awake h (hclock now rfl) hno

/-- `getNextTimer` answers the time left to the earliest deadline. -/
theorem getNextTimer_timeout {m : TimerManager F W} (hsorted : Sorted m.heap.less m.timers)
    (now : UInt64) (hne : m.timers ≠ []) :
    ∃ deadline : Nat, m.earliest = deadline ∧
      (m.getNextTimer now).1.toNat = deadline - now.toNat := by
  cases htimers : m.timers with
  | nil => exact absurd htimers hne
  | cons a rest =>
    refine ⟨(m.heap.next a).toNat, ?_, ?_⟩
    · apply le_antisymm
      · exact List.minimum_le_of_mem' (List.mem_map_of_mem (by simp [htimers]))
      · rw [← notBefore_iff, htimers]
        intro b hb
        rcases List.mem_cons.mp hb with rfl | hb
        · exact le_rfl
        · -- the set is ordered, so the first member is due first
          rw [htimers] at hsorted
          have hle : m.heap.next a ≤ m.heap.next b := by
            rcases (TimerHeap.less_iff ..).mp (List.rel_of_pairwise_cons hsorted hb) with
              hlt | ⟨heq, -⟩
            · exact UInt64.le_of_lt hlt
            · exact heq ▸ UInt64.le_refl _
          exact_mod_cast UInt64.le_iff_toNat_le.mp hle
    · simp only [getNextTimer, htimers]
      split
      · next hle =>
        have hle' := UInt64.le_iff_toNat_le.mp hle
        show 0 = _
        omega
      · next hgt =>
        exact UInt64.toNat_sub_of_le _ _ (UInt64.le_of_lt (UInt64.not_le.mp hgt))

theorem watchedRun_call {s s' : TimerManager F W × Sleeper} {hist : List (TimerEvent F W)}
    {eff : TimerEffect F W} {m' : TimerManager F W}
    (hrun : Run (Guarded Steady WatchedStep) s hist s') (op : TimerOp F W)
    (hcall : s'.1.call op = some (eff, m')) (hsteady : Steady s' (op, eff)) :
    Run (Guarded Steady WatchedStep) s (hist ++ [(op, eff)])
      (m', s'.2.observe s'.1 (op, eff)) :=
  Run.snoc hrun ⟨hsteady, hcall, rfl⟩

/-- No lost wake-up: as long as no notification was issued since the last `getNextTimer`, nothing
in the set is due before the deadline that call saw, and `m_tickled` says whether one was. -/
theorem no_lost_wakeup {start : UInt64} {hist : List (TimerEvent F W)} {m : TimerManager F W}
    {w : Sleeper}
    (hrun : Run (Guarded Steady WatchedStep) (new start, { clock := start }) hist (m, w)) :
    (w.notified = true ↔ m.tickled = true) ∧ (w.notified = true ∨ w.seen ≤ m.earliest) := by
  -- by induction over the run
  have h : Awake m w := hrun.invariant (fun s => Awake s.1 s.2) (awake_new start)
    fun _ _ _ hi hs => watchedStep_awake hi hs.1 hs.2
  refine ⟨by rw [h.notified], ?_⟩
  cases hn : w.notified with
  | true => exact Or.inl rfl
  | false => exact Or.inr ((notBefore_iff m w.seen).mp (h.trusts (h.notified ▸ hn)))

/-- A timer moved later after the sleeper looked needs no notification. -/
theorem no_lost_wakeup_refreshed : ∃ m : TimerManager Nat Unit, ∃ w : Sleeper,
    Run (Guarded Steady WatchedStep) (new 0, { clock := 0 })
      [(.addTimer 8 10 (some (.fn 1)) false 0, { insertedAtFront := true }),
        (.getNextTimer 2, { timeout := some 8 }),
        (.refresh 8 4, { ret := some true })] (m, w) ∧
      w.notified = false ∧ (w.notified = true ∨ w.seen ≤ m.earliest) := by
  have hnew : Run (Guarded Steady WatchedStep)
      ((new 0 : TimerManager Nat Unit), ({ clock := 0 } : Sleeper)) [] (new 0, { clock := 0 }) :=
    .nil _
  have hadd := watchedRun_call hnew (.addTimer 8 10 (some (.fn 1)) false 0) rfl
    ⟨fun now h => by cases h; decide, by unfold NoOverflow; decide⟩
  have hget := watchedRun_call hadd (.getNextTimer 2) rfl
    ⟨fun now h => by cases h; decide, trivial⟩
  have hrefresh := watchedRun_call hget (.refresh 8 4) rfl
    ⟨fun now h => by cases h; decide, fun _ t ht => by cases ht; decide⟩
  exact ⟨_, _, hrefresh, rfl, (no_lost_wakeup hrefresh).2⟩

end TimerManager

end Azure
