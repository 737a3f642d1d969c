import Azure.Timer.Lifecycle

/-!
# What the calls on a timer report

Whether a timer is pending is written down twice, as membership in `m_timers` and as a callback
that is not null.  The set is kept in order by every call, also for timers that were created with
an empty callback; what `cancel`, `refresh` and `reset` return is compared with the membership.
-/

namespace Azure

open Reasoning OrderedSet

variable {F W : Type}

namespace TimerManager

/-! ### `listExpiredCb` -/

/-- The loop puts the recurring timers back into the set and leaves the others out. -/
theorem expireFold_timers (now : UInt64) {expired : List Addr} (hnd : expired.Nodup)
    {m : TimerManager F W} (hs : Sorted m.heap.less m.timers)
    (hout : ∀ a ∈ expired, a ∉ m.timers) :
    Sorted (expired.foldl (expireOne now) m).heap.less (expired.foldl (expireOne now) m).timers ∧
      ∀ b, b ∈ (expired.foldl (expireOne now) m).timers ↔
        b ∈ m.timers ∨ b ∈ expired ∧ ∃ t, m.heap b = some t ∧ t.recurring = true := by
  induction expired generalizing m with
  | nil => exact ⟨hs, fun b => by simp⟩
  | cons a rest ih =>
    have hna : a ∉ rest := (List.nodup_cons.mp hnd).1
    have hrest : ∀ b ∈ rest, b ≠ a := fun b hb heq => hna (heq ▸ hb)
    have hamem : a ∉ m.timers := hout a (List.mem_cons_self ..)
    have hothers : ∀ b ∈ rest, b ∉ m.timers := fun b hb => hout b (List.mem_cons_of_mem a hb)
    rw [List.foldl_cons]
    cases ht : m.heap a with
    | none =>
      have hone : expireOne now m a = m := by
        unfold expireOne
        rw [ht]
      rw [hone]
      rcases ih (List.nodup_cons.mp hnd).2 hs hothers with ⟨hsorted, hmem⟩
      refine ⟨hsorted, fun b => ?_⟩
      rw [hmem, List.mem_cons]
      by_cases hba : b = a
      · simp [hba, ht]
      · simp [hba]
    | some t =>
      by_cases hrec : t.recurring = true
      · -- the timer goes back with its new deadline, and the rest stays outside
        have hst := TimerHeap.sorted_store { t with next := now + t.ms } hs hamem
        have hins := mem_insert (TimerHeap.less_strictTotal _) hst hamem
        rw [expireOne_recurring ht hrec]
        have hback : ∀ b ∈ rest,
            b ∉ (insert (m.heap.store a { t with next := now + t.ms }).less a m.timers).2 :=
          fun b hb hmem => hothers b hb (((hins b).mp hmem).resolve_left (hrest b hb))
        rcases ih (m := { m with heap := m.heap.store a { t with next := now + t.ms }, timers := _ })
          (List.nodup_cons.mp hnd).2 (Sorted.insert (TimerHeap.less_strictTotal _) hst hamem) hback
          with ⟨hsorted, hmem⟩
        refine ⟨hsorted, fun b => ?_⟩
        rw [hmem, hins, List.mem_cons]
        by_cases hba : b = a
        · simp [hba, ht, hrec]
        · simp [hba]
      · rw [expireOne_oneShot ht (by simpa using hrec)]
        rcases ih (m := { m with heap := m.heap.store a { t with cb := none } })
          (List.nodup_cons.mp hnd).2 (TimerHeap.sorted_store { t with cb := none } hs hamem) hothers with ⟨hsorted, hmem⟩
        refine ⟨hsorted, fun b => ?_⟩
        rw [hmem, List.mem_cons]
        by_cases hba : b = a
        · simp [hba, ht, hrec, hna]
        · simp [hba]

/-- `listExpiredCb` collects a prefix of the set.  Its recurring timers stay in the set with a new
deadline, the others leave it without their callback. -/
theorem Filed.listExpiredCb {m : TimerManager F W} (h : m.Filed) (nowTimer : Addr)
    (now : UInt64) : ∃ n, n = m.expiredCount nowTimer now ∧
      (m.listExpiredCb nowTimer now).1 = (m.timers.take n).map (fun a => (a, m.callbackAt a)) ∧
      Sorted (m.listExpiredCb nowTimer now).2.heap.less (m.listExpiredCb nowTimer now).2.timers ∧
      (∀ b, b ∈ (m.listExpiredCb nowTimer now).2.timers ↔
        b ∈ m.timers.drop n ∨ b ∈ m.timers.take n ∧ ∃ t, m.heap b = some t ∧ t.recurring = true) ∧
      ∀ b, (m.listExpiredCb nowTimer now).2.heap b =
        if b ∈ m.timers.take n then (m.heap b).map fun t =>
          if t.recurring then { t with next := now + t.ms } else { t with cb := none }
        else m.heap b := by
  rcases listExpiredCb_cases m nowTimer now with ⟨n, previous, hn, -, hcol, hres⟩
  have hnd := h.sorted.nodup m.heap.less_strictTotal
  rw [← List.take_append_drop n m.timers, List.nodup_append] at hnd
  -- the loop starts with the prefix outside of the set
  have hfold := expireFold_timers now hnd.1
    (m := { m with previousTime := previous, timers := m.timers.drop n })
    (h.sorted.sublist (List.drop_sublist _ _)) fun a ha hd => hnd.2.2 a ha a hd rfl
  have hheap := expireFold_heap now (m.timers.take n) hnd.1
    { m with previousTime := previous, timers := m.timers.drop n }
  rw [← hres] at hfold hheap
  exact ⟨n, hn, hcol, hfold.1, hfold.2, hheap⟩

theorem listExpiredCb_kept {m : TimerManager F W} (h : m.Kept) (nowTimer : Addr) (now : UInt64) :
    (m.listExpiredCb nowTimer now).2.Kept := by
  rcases h.toFiled.listExpiredCb nowTimer now with ⟨n, -, -, hsorted, hmem, hheap⟩
  have hsplit : ∀ b, b ∈ m.timers ↔ b ∈ m.timers.take n ∨ b ∈ m.timers.drop n := by
    intro b
    conv_lhs => rw [← List.take_append_drop n m.timers, List.mem_append]
  refine ⟨⟨hsorted, ?_⟩, ?_⟩
  · intro b hb
    have hold : b ∈ m.timers := by
      rw [hsplit]
      exact ((hmem b).mp hb).elim Or.inr fun h => Or.inl h.1
    rcases h.allocated b hold with ⟨t, ht⟩
    rw [hheap, ht]
    split
    · exact ⟨_, rfl⟩
    · exact ⟨t, rfl⟩
  -- a collected timer that still has its callback is a recurring one
  · rintro b ⟨s, hs, hcb⟩
    rw [hmem]
    rw [hheap] at hs
    by_cases hb : b ∈ m.timers.take n
    · rw [if_pos hb] at hs
      rcases Option.map_eq_some_iff.mp hs with ⟨t, ht, heq⟩
      cases hrec : t.recurring with
      | true => exact Or.inr ⟨hb, t, ht, hrec⟩
      | false =>
        rw [hrec] at heq
        rw [← heq] at hcb
        cases hcb
    · rw [if_neg hb] at hs
      exact Or.inl (((hsplit b).mp (h.member b ⟨s, hs, hcb⟩)).resolve_left hb)

/-! ## Runs -/

theorem Kept.step {m m' : TimerManager F W} {e : TimerEvent F W} (h : m.Kept)
    (hs : Step m e m') : m'.Kept := by
  cases h.stepped hs with
  | addTimer hfree => exact (addTimer_changed h hfree _ _ _ _).kept
  | addConditionTimer hfree => exact (addTimer_changed h hfree _ _ _ _).kept
  | cancel _ _ hchanged => exact hchanged.kept
  | cancelNothing _ _ => exact h
  | refresh _ _ hchanged => exact hchanged.kept
  | refreshNothing _ _ => exact h
  | reset _ _ hchanged => exact hchanged.kept
  | resetSame _ _ => exact h
  | resetNothing _ _ => exact h
  | getNextTimer hheap htimers => exact h.of_fields hheap htimers
  | listExpiredCb _ => exact listExpiredCb_kept h _ _

theorem kept_of_run {start : UInt64} {hist : List (TimerEvent F W)} {m : TimerManager F W}
    (hrun : Run Step (new start) hist m) : m.Kept :=
  hrun.invariant _ (kept_new start) fun _ _ _ h hs => h.step hs

/-! ## Reports -/

/-- The answer says whether the timer was in the set, and `false` means that nothing has changed. -/
def Truthful (m : TimerManager F W) (a : Addr) (ret : Bool) (m' : TimerManager F W) : Prop :=
  (ret = true ↔ a ∈ m.timers) ∧ (ret = false → m' = m)

def CancelReports (m : TimerManager F W) (a : Addr) : Prop :=
  ∃ ret m', m.cancel a = some (ret, m') ∧ Truthful m a ret m'

def RefreshReports (m : TimerManager F W) (a : Addr) (now : UInt64) : Prop :=
  ∃ ret m', m.refresh a now = some (ret, m') ∧ Truthful m a ret m'

/-- After a `reset` that returns true the timer is in the set with the new period, counted from
`resetStart`. -/
def ResetReports (m : TimerManager F W) (a : Addr) (t : Timer F W) (ms : UInt64) (fromNow : Bool)
    (now : UInt64) : Prop :=
  ∃ ret front m', m.reset a ms fromNow now = some (ret, front, m') ∧ Truthful m a ret m' ∧
    (ret = true → a ∈ m'.timers ∧ ∃ t', m'.heap a = some t' ∧ t'.ms = ms ∧
      t'.next = resetStart t fromNow now + ms)

/-- A call that goes by the callback is truthful when the callback goes by the set. -/
theorem truthful_iff {m : TimerManager F W} (h : m.Kept) {a : Addr} {t : Timer F W}
    (ht : m.heap a = some t) {call : Option (Bool × TimerManager F W)}
    (hcall : (t.cb.isSome ∧ ∃ m', call = some (true, m')) ∨ (t.cb = none ∧ call = some (false, m))) :
    (∃ ret m', call = some (ret, m') ∧ Truthful m a ret m') ↔ (a ∈ m.timers → t.cb.isSome) := by
  rcases hcall with ⟨hcb, m', hcall⟩ | ⟨hcb, hcall⟩
  -- with a callback the answer is true, and the timer is in the set
  · have ha := h.member a ⟨t, ht, hcb⟩
    constructor
    · exact fun _ _ => hcb
    · exact fun _ => ⟨true, m', hcall, ⟨fun _ => ha, fun _ => rfl⟩, nofun⟩
  -- without one the answer is false
  · rw [hcb]
    constructor
    · rintro ⟨ret, m', heq, htruth, -⟩ ha
      rw [hcall] at heq
      cases heq
      exact htruth.mpr ha
    · intro hset
      refine ⟨false, m, hcall, ⟨nofun, fun ha => ?_⟩, fun _ => rfl⟩
      cases hset ha

theorem resetReports_iff {m : TimerManager F W} (h : m.Kept) {a : Addr} {t : Timer F W}
    (ht : m.heap a = some t) (ms : UInt64) (fromNow : Bool) (now : UInt64) :
    ResetReports m a t ms fromNow now ↔
      (ResetsNothing t ms fromNow → a ∈ m.timers) ∧
        (¬ ResetsNothing t ms fromNow → a ∈ m.timers → t.cb.isSome) := by
  rcases reset_kept h ht ms fromNow now with ⟨hsame, hreset⟩ | ⟨hsame, hcb, hreset⟩ |
    ⟨hsame, hcb, front, m', hreset, hchanged⟩
  · constructor
    · rintro ⟨ret, front, m', heq, ⟨htruth, -⟩, -⟩
      rw [hreset] at heq
      cases heq
      exact ⟨fun _ => htruth.mp rfl, fun hnot => absurd hsame hnot⟩
    · intro hset
      have ha := hset.1 hsame
      -- the same period from the same start is the same deadline
      have hnext : resetStart t fromNow now + ms = t.next := by
        rw [hsame.1, hsame.2]
        exact UInt64.sub_add_cancel t.next t.ms
      exact ⟨true, false, m, hreset, ⟨⟨fun _ => ha, fun _ => rfl⟩, nofun⟩,
        fun _ => ⟨ha, t, ht, hsame.1.symm, hnext.symm⟩⟩
  · constructor
    · rintro ⟨ret, front, m', heq, ⟨htruth, -⟩, -⟩
      rw [hreset] at heq
      cases heq
      exact ⟨fun hs => absurd hs hsame, fun _ ha => nomatch htruth.mpr ha⟩
    · intro hset
      refine ⟨false, false, m, hreset, ⟨⟨nofun, fun ha => ?_⟩,
        fun _ => rfl⟩, nofun⟩
      have hsome := hset.2 hsame ha
      rw [hcb] at hsome
      cases hsome
  · have ha := h.member a ⟨t, ht, hcb⟩
    constructor
    · exact fun _ => ⟨fun hs => absurd hs hsame, fun _ _ => hcb⟩
    · intro _
      refine ⟨true, front, m', hreset, ⟨⟨fun _ => ha, fun _ => rfl⟩, nofun⟩,
        fun _ => ⟨hchanged.self.mpr trivial,
          { t with ms := ms, next := resetStart t fromNow now + ms }, ?_, rfl, rfl⟩⟩
      rw [hchanged.heap]
      exact TimerHeap.store_self ..

/-- In every state of every run the three calls report the truth about a timer exactly when it is
not in the set with an empty callback, and a `reset` that leaves before it takes the lock does so
for a timer in the set. -/
theorem reports_iff {start : UInt64} {hist : List (TimerEvent F W)} {m : TimerManager F W}
    (hrun : Run Step (new start) hist m) {a : Addr} {t : Timer F W} (ht : m.heap a = some t)
    (ms : UInt64) (fromNow : Bool) (now : UInt64) :
    (CancelReports m a ↔ (a ∈ m.timers → t.cb.isSome)) ∧
      (RefreshReports m a now ↔ (a ∈ m.timers → t.cb.isSome)) ∧
      (ResetReports m a t ms fromNow now ↔
        (ResetsNothing t ms fromNow → a ∈ m.timers) ∧
          (¬ ResetsNothing t ms fromNow → a ∈ m.timers → t.cb.isSome)) := by
  have h := kept_of_run hrun
  refine ⟨truthful_iff h ht ?_, truthful_iff h ht ?_, resetReports_iff h ht ms fromNow now⟩
  · rcases cancel_kept h ht with ⟨hcb, m', hcancel, -⟩ | hnone
    · exact Or.inl ⟨hcb, m', hcancel⟩
    · exact Or.inr hnone
  · rcases refresh_kept h ht now with ⟨hcb, m', hrefresh, -⟩ | hnone
    · exact Or.inl ⟨hcb, m', hrefresh⟩
    · exact Or.inr hnone

/-- A timer that was added and cancelled. -/
theorem cancelled_run : ∃ m : TimerManager Nat Unit, Run Step (new 0)
    [(.addTimer 8 10 (some (.fn 1)) false 0, { insertedAtFront := true }),
      (.cancel 8, { ret := some true })] m ∧
    m.heap 8 = some { ms := 10, next := 10 } ∧ m.timers = [] := by
  have hnew : Run Step (new 0 : TimerManager Nat Unit) [] (new 0) := .nil _
  have hadd := hnew.snoc (show Step _ (.addTimer 8 10 (some (.fn 1)) false 0, _) _ from rfl)
  have hcancel := hadd.snoc (show Step _ (.cancel 8, _) _ from rfl)
  exact ⟨_, hcancel, rfl, rfl⟩

theorem reports_iff_cancelled : ∃ m : TimerManager Nat Unit, m.timers = [] ∧
    CancelReports m 8 ∧ RefreshReports m 8 3 ∧
      ResetReports m 8 { ms := 10, next := 10 } 20 false 3 := by
  rcases cancelled_run with ⟨m, hrun, ht, htimers⟩
  have hout : 8 ∉ m.timers := by
    rw [htimers]
    exact List.not_mem_nil
  have h := reports_iff hrun ht 20 false 3
  exact ⟨m, htimers, h.1.mpr fun ha => absurd ha hout, h.2.1.mpr fun ha => absurd ha hout,
    h.2.2.mpr ⟨fun hs => absurd hs.1 (by decide), fun _ ha => absurd ha hout⟩⟩

/-- With the period it has already a cancelled timer is reset successfully; and a timer with an
empty callback is in the set, but is not cancelled. -/
theorem cancelled_but_reset :
    (∃ m : TimerManager Nat Unit, (∃ hist, Run Step (new 0) hist m) ∧ 8 ∉ m.timers ∧
      m.reset 8 10 false 3 = some (true, false, m) ∧
      ¬ ResetReports m 8 { ms := 10, next := 10 } 10 false 3) ∧
    ∃ m : TimerManager Nat Unit, (∃ hist, Run Step (new 0) hist m) ∧ 8 ∈ m.timers ∧
      m.cancel 8 = some (false, m) ∧ ¬ CancelReports m 8 := by
  constructor
  · rcases cancelled_run with ⟨m, hrun, ht, htimers⟩
    have hreset : m.reset 8 10 false 3 = some (true, false, m) := by
      unfold reset
      rw [ht]
      rfl
    have hout : 8 ∉ m.timers := by
      rw [htimers]
      exact List.not_mem_nil
    refine ⟨m, ⟨_, hrun⟩, hout, hreset, ?_⟩
    rintro ⟨ret, front, m', heq, ⟨htruth, -⟩, -⟩
    rw [hreset] at heq
    cases heq
    exact hout (htruth.mp rfl)
  · have hnew : Run Step (new 0 : TimerManager Nat Unit) [] (new 0) := .nil _
    have hadd := hnew.snoc (show Step _ (.addTimer 8 10 none false 0, _) _ from rfl)
    refine ⟨_, ⟨_, hadd⟩, List.mem_singleton_self 8, rfl, ?_⟩
    rintro ⟨ret, m', heq, htruth, -⟩
    cases heq
    exact absurd (htruth.mpr (List.mem_singleton_self 8)) (by decide)

end TimerManager

end Azure
