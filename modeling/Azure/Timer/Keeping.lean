import Azure.Timer.Model
import Mathlib.Data.List.Nodup

/-!
# The set of timers

The set `m_timers` is ordered by a field that four operations change.  Every operation keeps the
order because it erases a timer before it stores to it and inserts it again afterwards; what a call
does to the set and to the object it is called on is said once here.
-/

namespace Azure

open Reasoning OrderedSet

variable {F W : Type}

/-! ## The heap and its comparator -/

namespace TimerHeap

@[simp] theorem store_self (h : TimerHeap F W) (a : Addr) (t : Timer F W) :
    h.store a t a = some t := by
  simp [store]

@[simp] theorem store_other (h : TimerHeap F W) {a b : Addr} (t : Timer F W) (hne : b ≠ a) :
    h.store a t b = h b := by
  simp [store, hne]

theorem next_store_other (h : TimerHeap F W) {a b : Addr} (t : Timer F W) (hne : b ≠ a) :
    (h.store a t).next b = h.next b := by
  simp [next, hne]

theorem less_iff (h : TimerHeap F W) (a b : Addr) :
    h.less a b = true ↔ h.next a < h.next b ∨ h.next a = h.next b ∧ a < b := by
  unfold less Timer.comparator
  by_cases heq : h.next a = h.next b
  · simp [heq, UInt64.lt_irrefl]
  · simp [heq]

/-- Ordering by deadline and then by address is a strict total order on addresses. -/
theorem less_strictTotal (h : TimerHeap F W) : StrictTotal h.less where
  irrefl a := by
    rw [Bool.eq_false_iff, ne_eq, less_iff]
    rintro (hlt | ⟨-, hlt⟩)
    · exact UInt64.lt_irrefl _ hlt
    · exact Nat.lt_irrefl a hlt
  trans a b c hab hbc := by
    rw [less_iff] at hab hbc ⊢
    rcases hab with hab | ⟨heq, hab⟩
    · rcases hbc with hbc | ⟨heq', -⟩
      · exact Or.inl (UInt64.lt_trans hab hbc)
      · exact Or.inl (heq' ▸ hab)
    · rcases hbc with hbc | ⟨heq', hbc⟩
      · exact Or.inl (heq ▸ hbc)
      · exact Or.inr ⟨heq.trans heq', Nat.lt_trans hab hbc⟩
  total a b hne := by
    simp only [less_iff]
    by_cases heq : h.next a = h.next b
    · rcases Nat.lt_or_gt_of_ne hne with hlt | hlt
      · exact Or.inl (Or.inr ⟨heq, hlt⟩)
      · exact Or.inr (Or.inr ⟨heq.symm, hlt⟩)
    · rcases UInt64.lt_or_lt_of_ne heq with hlt | hlt
      · exact Or.inl (Or.inl hlt)
      · exact Or.inr (Or.inl hlt)

/-- Two heaps with the same deadlines compare alike. -/
theorem less_congr {h h' : TimerHeap F W} {a b : Addr} (ha : h'.next a = h.next a)
    (hb : h'.next b = h.next b) : h'.less a b = h.less a b := by
  simp only [less, Timer.comparator, ha, hb]

/-- A store to an object outside the set does not disturb its order. -/
theorem sorted_store {h : TimerHeap F W} {a : Addr} {ts : List Addr} (t : Timer F W)
    (hs : Sorted h.less ts) (ha : a ∉ ts) : Sorted (h.store a t).less ts :=
  hs.congr fun _ hx _ hy =>
    less_congr (next_store_other h t fun e => ha (e ▸ hx))
      (next_store_other h t fun e => ha (e ▸ hy))

/-- A store that keeps the deadline does not change the comparator. -/
theorem less_store_of_next {h : TimerHeap F W} {a : Addr} {t t' : Timer F W}
    (ha : h a = some t) (hn : t'.next = t.next) : (h.store a t').less = h.less := by
  -- the comparator sees the deadlines only
  funext x y
  have hnext : ∀ z, (h.store a t').next z = h.next z := by
    intro z
    by_cases hz : z = a
    · subst hz; simp [next, ha, hn]
    · exact next_store_other h t' hz
  exact less_congr (hnext x) (hnext y)

end TimerHeap

namespace TimerManager

/-! ## The invariant -/

def Pending (m : TimerManager F W) (a : Addr) : Prop :=
  ∃ t, m.heap a = some t ∧ t.cb.isSome

theorem pending_store {m : TimerManager F W} (a b : Addr) (t : Timer F W) :
    ({ m with heap := m.heap.store a t } : TimerManager F W).Pending b ↔
      b = a ∧ t.cb.isSome ∨ b ≠ a ∧ m.Pending b := by
  by_cases hb : b = a
  · subst hb; simp [Pending]
  · simp [Pending, hb]

structure Filed (m : TimerManager F W) : Prop where
  sorted : Sorted m.heap.less m.timers
  allocated : ∀ a ∈ m.timers, ∃ t, m.heap a = some t

structure Kept (m : TimerManager F W) : Prop extends Filed m where
  member : ∀ a, m.Pending a → a ∈ m.timers

theorem kept_new (now : UInt64) : (new now : TimerManager F W).Kept where
  sorted := List.Pairwise.nil
  allocated a ha := absurd ha List.not_mem_nil
  member a ha := by
    rcases ha with ⟨t, ht, -⟩
    cases ht

theorem Kept.of_fields {m m' : TimerManager F W} (h : m.Kept) (hheap : m'.heap = m.heap)
    (htimers : m'.timers = m.timers) : m'.Kept := by
  refine ⟨⟨?_, ?_⟩, ?_⟩
  · rw [hheap, htimers]
    exact h.sorted
  · rw [hheap, htimers]
    exact h.allocated
  · intro a ha
    rw [htimers]
    apply h.member a
    rw [Pending, ← hheap]
    exact ha

/-! ## One timer -/

/-- `m'` is `m` with the object at `a` replaced by `t` and its place in the set made `present`. -/
structure Changed (m : TimerManager F W) (a : Addr) (t : Timer F W) (present : Prop)
    (m' : TimerManager F W) : Prop where
  kept : m'.Kept
  heap : m'.heap = m.heap.store a t
  self : a ∈ m'.timers ↔ present
  other : ∀ b, b ≠ a → (b ∈ m'.timers ↔ b ∈ m.timers)

theorem Changed.of_fields {m m' m'' : TimerManager F W} {a : Addr} {t : Timer F W} {p : Prop}
    (h : Changed m a t p m') (hheap : m''.heap = m'.heap) (htimers : m''.timers = m'.timers) :
    Changed m a t p m'' where
  kept := h.kept.of_fields hheap htimers
  heap := hheap.trans h.heap
  self := by rw [htimers]; exact h.self
  other b hb := by rw [htimers]; exact h.other b hb

/-- A timer outside of the set is stored to and then inserted. -/
theorem changed_insert {m : TimerManager F W} {a : Addr} {ts : List Addr} (h : m.Kept)
    (t : Timer F W) (hs : Sorted m.heap.less ts) (ha : a ∉ ts)
    (hmem : ∀ b, b ≠ a → (b ∈ ts ↔ b ∈ m.timers)) :
    Changed m a t True { m with
      heap := m.heap.store a t
      timers := (insert (m.heap.store a t).less a ts).2 } := by
  -- a store outside of the set keeps its order
  have hst := TimerHeap.sorted_store t hs ha
  have hins := mem_insert (TimerHeap.less_strictTotal _) hst ha
  have hother : ∀ b, b ≠ a → (b ∈ (insert (m.heap.store a t).less a ts).2 ↔ b ∈ m.timers) := by
    intro b hb
    rw [hins, ← hmem b hb]
    exact ⟨fun h => h.resolve_left hb, Or.inr⟩
  have hself : a ∈ (insert (m.heap.store a t).less a ts).2 := (hins a).mpr (Or.inl rfl)
  refine ⟨⟨⟨Sorted.insert (TimerHeap.less_strictTotal _) hst ha, ?_⟩, ?_⟩, rfl,
    ⟨fun _ => trivial, fun _ => hself⟩, hother⟩
  · intro b hb
    by_cases hba : b = a
    · exact ⟨t, by rw [hba]; exact TimerHeap.store_self ..⟩
    · show ∃ s, m.heap.store a t b = some s
      rw [TimerHeap.store_other _ _ hba]
      exact h.allocated b ((hother b hba).mp hb)
  · rintro b ⟨s, hs', hcb⟩
    by_cases hba : b = a
    · rw [hba]
      exact hself
    · apply (hother b hba).mpr
      apply h.member b
      refine ⟨s, ?_, hcb⟩
      rw [← TimerHeap.store_other m.heap t hba]
      exact hs'

/-- What erasing a member leaves. -/
theorem Filed.erase {m : TimerManager F W} (h : m.Filed) {a : Addr} (ha : a ∈ m.timers) :
    Sorted m.heap.less (m.timers.eraseIdx (find m.heap.less a m.timers)) ∧
      a ∉ m.timers.eraseIdx (find m.heap.less a m.timers) ∧
      ∀ b, b ≠ a → (b ∈ m.timers.eraseIdx (find m.heap.less a m.timers) ↔ b ∈ m.timers) := by
  have hmem := mem_eraseIdx_find m.heap.less_strictTotal h.sorted ha
  refine ⟨h.sorted.eraseIdx _, ?_, ?_⟩
  · rw [hmem]
    exact fun hm => hm.2 rfl
  · intro b hb
    rw [hmem]
    exact ⟨And.left, fun hm => ⟨hm, hb⟩⟩

theorem Filed.find_ne {m : TimerManager F W} (h : m.Filed) {a : Addr} (ha : a ∈ m.timers) :
    find m.heap.less a m.timers ≠ m.timers.length :=
  Nat.ne_of_lt (find_lt_length m.heap.less_strictTotal h.sorted ha)

/-! ## The calls -/

theorem addTimer_changed {m : TimerManager F W} (h : m.Kept) {a : Addr} (hfree : m.heap a = none)
    (ms : UInt64) (cb : Option (Callback F W)) (recurring : Bool) (now : UInt64) :
    Changed m a { recurring, ms, next := now + ms, cb } True
      (m.addTimer a ms cb recurring now).2 := by
  -- a member is allocated, and the address is free
  have hna : a ∉ m.timers := by
    intro ha
    rcases h.allocated a ha with ⟨t, ht⟩
    rw [hfree] at ht
    cases ht
  exact (changed_insert h { recurring, ms, next := now + ms, cb } h.sorted hna
    fun _ _ => Iff.rfl).of_fields rfl rfl

/-- `cancel` goes by the callback alone. -/
theorem cancel_kept {m : TimerManager F W} (h : m.Kept) {a : Addr} {t : Timer F W}
    (ht : m.heap a = some t) :
    (t.cb.isSome ∧ ∃ m', m.cancel a = some (true, m') ∧
        Changed m a { t with cb := none } False m') ∨
      (t.cb = none ∧ m.cancel a = some (false, m)) := by
  by_cases hcb : t.cb.isSome
  · left
    have ha := h.member a ⟨t, ht, hcb⟩
    -- `erase(find(...))` searches with the comparator behind the store
    have hless : (m.heap.store a { t with cb := none }).less = m.heap.less :=
      TimerHeap.less_store_of_next ht rfl
    rcases h.toFiled.erase ha with ⟨hsorted, hout, hmem⟩
    refine ⟨hcb, { m with
      heap := m.heap.store a { t with cb := none }
      timers := m.timers.eraseIdx (find m.heap.less a m.timers) }, ?_, ⟨⟨?_, ?_⟩, ?_⟩, rfl,
      ⟨hout, False.elim⟩, hmem⟩
    · simp only [cancel, ht, hcb, ↓reduceIte, hless, h.toFiled.find_ne ha]
    · show Sorted (m.heap.store a { t with cb := none }).less _
      rw [hless]
      exact hsorted
    · intro b hb
      have hba : b ≠ a := fun heq => hout (heq ▸ hb)
      show ∃ s, m.heap.store a { t with cb := none } b = some s
      rw [TimerHeap.store_other _ _ hba]
      exact h.allocated b ((hmem b hba).mp hb)
    · rintro b hb
      rcases (pending_store a b _).mp hb with ⟨-, hsome⟩ | ⟨hba, hp⟩
      · cases hsome
      · exact (hmem b hba).mpr (h.member b hp)
  · right
    have hnone : t.cb = none := by simpa using hcb
    exact ⟨hnone, by simp [cancel, ht, hnone]⟩

/-- `refresh` looks for the timer in the set once it has seen the callback. -/
theorem refresh_kept {m : TimerManager F W} (h : m.Kept) {a : Addr} {t : Timer F W}
    (ht : m.heap a = some t) (now : UInt64) :
    (t.cb.isSome ∧ ∃ m', m.refresh a now = some (true, m') ∧
        Changed m a { t with next := now + t.ms } True m') ∨
      (t.cb = none ∧ m.refresh a now = some (false, m)) := by
  by_cases hcb : t.cb.isSome
  · left
    have ha := h.member a ⟨t, ht, hcb⟩
    have hne : t.cb.isNone = false := by simpa [Option.isNone_iff_eq_none] using hcb
    rcases h.toFiled.erase ha with ⟨hsorted, hout, hmem⟩
    refine ⟨hcb, _, ?_, changed_insert h { t with next := now + t.ms } hsorted hout hmem⟩
    simp only [refresh, ht, hne, Bool.false_eq_true, ↓reduceIte, h.toFiled.find_ne ha]
  · right
    have hnone : t.cb = none := by simpa using hcb
    exact ⟨hnone, by simp [refresh, ht, hnone]⟩

/-- The start `reset` counts the new period from. -/
def resetStart (t : Timer F W) (fromNow : Bool) (now : UInt64) : UInt64 :=
  if fromNow then now else t.next - t.ms

/-- The arguments for which `reset` returns before it takes the lock. -/
def ResetsNothing (t : Timer F W) (ms : UInt64) (fromNow : Bool) : Prop :=
  ms = t.ms ∧ fromNow = false

theorem reset_kept {m : TimerManager F W} (h : m.Kept) {a : Addr} {t : Timer F W}
    (ht : m.heap a = some t) (ms : UInt64) (fromNow : Bool) (now : UInt64) :
    (ResetsNothing t ms fromNow ∧ m.reset a ms fromNow now = some (true, false, m)) ∨
      (¬ ResetsNothing t ms fromNow ∧ t.cb = none ∧
        m.reset a ms fromNow now = some (false, false, m)) ∨
      (¬ ResetsNothing t ms fromNow ∧ t.cb.isSome ∧
        ∃ front m', m.reset a ms fromNow now = some (true, front, m') ∧
          Changed m a { t with ms := ms, next := resetStart t fromNow now + ms } True m') := by
  by_cases hsame : ms = t.ms ∧ fromNow = false
  · exact Or.inl ⟨hsame, by simp only [reset, ht, hsame, and_self, ↓reduceIte]⟩
  by_cases hcb : t.cb.isSome
  · right
    right
    have ha := h.member a ⟨t, ht, hcb⟩
    have hne : t.cb.isNone = false := by simpa [Option.isNone_iff_eq_none] using hcb
    rcases h.toFiled.erase ha with ⟨hsorted, hout, hmem⟩
    -- past the early exit, the callback and the search
    have hreset : m.reset a ms fromNow now = some (true, addTimerLocked { m with
        timers := m.timers.eraseIdx (find m.heap.less a m.timers)
        heap := m.heap.store a { t with ms := ms, next := resetStart t fromNow now + ms } } a) := by
      simp only [reset, ht, hsame, hne, Bool.false_eq_true, ↓reduceIte, h.toFiled.find_ne ha]
      rfl
    have hchanged := changed_insert h { t with ms := ms, next := resetStart t fromNow now + ms }
      hsorted hout hmem
    exact ⟨hsame, hcb, _, _, hreset, hchanged.of_fields rfl rfl⟩
  · right
    left
    have hnone : t.cb = none := by simpa using hcb
    exact ⟨hsame, hnone, by simp [reset, ht, hnone, hsame]⟩

/-! ## What a step can do -/

inductive Stepped (m : TimerManager F W) : TimerEvent F W → TimerManager F W → Prop where
  | addTimer {a : Addr} {ms : UInt64} {cb : Option (Callback F W)} {recurring front : Bool}
    {now : UInt64} (hfree : m.heap a = none) :
    Stepped m (.addTimer a ms cb recurring now, { insertedAtFront := front })
      (m.addTimer a ms cb recurring now).2
  | addConditionTimer {a : Addr} {ms : UInt64} {cb : Option F} {weakCond : W}
    {recurring front : Bool} {now : UInt64} (hfree : m.heap a = none) :
    Stepped m (.addConditionTimer a ms cb weakCond recurring now, { insertedAtFront := front })
      (m.addTimer a ms (some (.onTimer weakCond cb)) recurring now).2
  | cancel {a : Addr} {t : Timer F W} {m' : TimerManager F W} (ht : m.heap a = some t)
    (hcb : t.cb.isSome) (hchanged : Changed m a { t with cb := none } False m') :
    Stepped m (.cancel a, { ret := some true }) m'
  | cancelNothing {a : Addr} {t : Timer F W} (ht : m.heap a = some t) (hcb : t.cb = none) :
    Stepped m (.cancel a, { ret := some false }) m
  | refresh {a : Addr} {now : UInt64} {t : Timer F W} {m' : TimerManager F W}
    (ht : m.heap a = some t) (hcb : t.cb.isSome)
    (hchanged : Changed m a { t with next := now + t.ms } True m') :
    Stepped m (.refresh a now, { ret := some true }) m'
  | refreshNothing {a : Addr} {now : UInt64} {t : Timer F W} (ht : m.heap a = some t)
    (hcb : t.cb = none) : Stepped m (.refresh a now, { ret := some false }) m
  | reset {a : Addr} {ms now : UInt64} {fromNow front : Bool} {t : Timer F W}
    {m' : TimerManager F W} (ht : m.heap a = some t) (hcb : t.cb.isSome)
    (hchanged : Changed m a { t with ms := ms, next := resetStart t fromNow now + ms } True m') :
    Stepped m (.reset a ms fromNow now, { ret := some true, insertedAtFront := front }) m'
  /-- The period is the one the timer has, and it counts from the same start. -/
  | resetSame {a : Addr} {ms now : UInt64} {fromNow : Bool} {t : Timer F W}
    (ht : m.heap a = some t) (hsame : ResetsNothing t ms fromNow) :
    Stepped m (.reset a ms fromNow now, { ret := some true }) m
  | resetNothing {a : Addr} {ms now : UInt64} {fromNow : Bool} {t : Timer F W}
    (ht : m.heap a = some t) (hcb : t.cb = none) :
    Stepped m (.reset a ms fromNow now, { ret := some false }) m
  | getNextTimer {now : UInt64} {timeout : Option UInt64} {m' : TimerManager F W}
    (hheap : m'.heap = m.heap) (htimers : m'.timers = m.timers) :
    Stepped m (.getNextTimer now, { timeout }) m'
  | listExpiredCb {nowTimer : Addr} {now : UInt64} (hfree : m.heap nowTimer = none) :
    Stepped m (.listExpiredCb nowTimer now, { collected := (m.listExpiredCb nowTimer now).1 })
      (m.listExpiredCb nowTimer now).2

theorem Kept.stepped {m m' : TimerManager F W} {e : TimerEvent F W} (h : m.Kept)
    (hs : Step m e m') : Stepped m e m' := by
  rcases e with ⟨op, eff⟩
  unfold Step at hs
  cases op with
  | addTimer a ms cb recurring now =>
    simp only [call, Option.isSome_iff_ne_none, ne_eq, ite_not] at hs
    split at hs
    · next hfree =>
      cases hs
      exact .addTimer hfree
    · cases hs
  | addConditionTimer a ms cb weakCond recurring now =>
    simp only [call, Option.isSome_iff_ne_none, ne_eq, ite_not] at hs
    split at hs
    · next hfree =>
      cases hs
      exact .addConditionTimer hfree
    · cases hs
  | cancel a =>
    rcases Option.map_eq_some_iff.mp hs with ⟨r, hr, heq⟩
    cases heq
    cases ht : m.heap a with
    | none => simp [TimerManager.cancel, ht] at hr
    | some t =>
      rcases cancel_kept h ht with ⟨hcb, m'', hm, hchanged⟩ | ⟨hcb, hm⟩
      · rw [hm] at hr
        cases hr
        exact .cancel ht hcb hchanged
      · rw [hm] at hr
        cases hr
        exact .cancelNothing ht hcb
  | refresh a now =>
    rcases Option.map_eq_some_iff.mp hs with ⟨r, hr, heq⟩
    cases heq
    cases ht : m.heap a with
    | none => simp [TimerManager.refresh, ht] at hr
    | some t =>
      rcases refresh_kept h ht now with ⟨hcb, m'', hm, hchanged⟩ | ⟨hcb, hm⟩
      · rw [hm] at hr
        cases hr
        exact .refresh ht hcb hchanged
      · rw [hm] at hr
        cases hr
        exact .refreshNothing ht hcb
  | reset a ms fromNow now =>
    rcases Option.map_eq_some_iff.mp hs with ⟨r, hr, heq⟩
    cases heq
    cases ht : m.heap a with
    | none => simp [TimerManager.reset, ht] at hr
    | some t =>
      rcases reset_kept h ht ms fromNow now with ⟨hsame, hm⟩ | ⟨-, hcb, hm⟩ |
        ⟨-, hcb, front, m'', hm, hchanged⟩
      · rw [hm] at hr
        cases hr
        exact .resetSame ht hsame
      · rw [hm] at hr
        cases hr
        exact .resetNothing ht hcb
      · rw [hm] at hr
        cases hr
        exact .reset ht hcb hchanged
  | getNextTimer now =>
    cases hs
    apply Stepped.getNextTimer
    · unfold TimerManager.getNextTimer
      split <;> rfl
    · unfold TimerManager.getNextTimer
      split <;> rfl
  | listExpiredCb nowTimer now =>
    simp only [call, Option.isSome_iff_ne_none, ne_eq, ite_not] at hs
    split at hs
    · next hfree =>
      cases hs
      exact .listExpiredCb hfree
    · cases hs

end TimerManager

end Azure
