import Azure.Timer.Calls
import Azure.Timer.Wakeup

/-!
# What fires, and when

`listExpiredCb` cuts the set at the upper bound of a temporary timer that is due now.  The
comparator breaks ties by address, so for the timers due exactly now the cut is where the allocator
put the temporary.  A deadline is the start of the period plus the period, modulo `2^64`.
-/

namespace Azure

open Reasoning OrderedSet

variable {F W : Type}

namespace TimerManager

/-! ## The cut -/

/-- Before the cut are the timers that are due, and of those due exactly now the ones whose
addresses are below that of the temporary. -/
theorem Filed.cut {m : TimerManager F W} (h : m.Filed) {nowTimer : Addr} {now : UInt64}
    (hfree : m.heap nowTimer = none) (hroll : (m.detectClockRollover now).1 = false) :
    (∀ a ∈ m.timers.take (m.expiredCount nowTimer now),
        m.heap.next a < now ∨ m.heap.next a = now ∧ a < nowTimer) ∧
      ∀ a ∈ m.timers.drop (m.expiredCount nowTimer now),
        now < m.heap.next a ∨ m.heap.next a = now ∧ nowTimer < a := by
  -- the temporary is a new object, so no member has its address
  have hout : ∀ a ∈ m.timers, a ≠ nowTimer := by
    intro a ha heq
    rcases h.allocated a ha with ⟨t, ht⟩
    rw [heq, hfree] at ht
    cases ht
  have hsorted := h.sorted
  unfold expiredCount
  cases htimers : m.timers with
  | nil => exact ⟨fun a ha => absurd ha List.not_mem_nil, fun a ha => absurd ha List.not_mem_nil⟩
  | cons first rest =>
    dsimp only
    rw [hroll]
    by_cases hearly : now < m.heap.next first
    · -- the first deadline is the earliest
      rw [if_pos ⟨rfl, hearly⟩, List.take_zero, List.drop_zero]
      rw [htimers] at hsorted
      refine ⟨fun a ha => absurd ha List.not_mem_nil, fun a ha => Or.inl ?_⟩
      rcases List.mem_cons.mp ha with rfl | ha
      · exact hearly
      · rcases (TimerHeap.less_iff ..).mp (List.rel_of_pairwise_cons hsorted ha) with
          hlt | ⟨heq, -⟩
        · exact UInt64.lt_trans hearly hlt
        · exact heq ▸ hearly
    · rw [if_neg fun hand => hearly hand.2, ← htimers]
      have hnot : nowTimer ∉ m.timers := fun hmem => hout nowTimer hmem rfl
      have hsplit := upperBound_split (TimerHeap.less_strictTotal _)
        nowTimer (TimerHeap.sorted_store { next := now } hsorted hnot)
      -- the comparator between the temporary and a member
      have hless : ∀ a ∈ m.timers, (m.heap.store nowTimer { next := now }).less nowTimer a = true ↔
          now < m.heap.next a ∨ m.heap.next a = now ∧ nowTimer < a := by
        intro a ha
        rw [TimerHeap.less_iff, TimerHeap.next_store_other _ _ (hout a ha), eq_comm (a := m.heap.next a)]
        simp only [TimerHeap.next, TimerHeap.store_self]
      refine ⟨fun a ha => ?_, fun a ha => ?_⟩
      · have hmem := List.mem_of_mem_take ha
        have hnot := hsplit.1 a ha
        rw [← Bool.not_eq_true, hless a hmem, not_or, not_and] at hnot
        by_cases heq : m.heap.next a = now
        · right
          have hle := Nat.le_of_not_lt (hnot.2 heq)
          exact ⟨heq, Nat.lt_of_le_of_ne hle (hout a hmem)⟩
        · left
          exact (UInt64.lt_or_lt_of_ne heq).resolve_right hnot.1
      · exact (hless a (List.mem_of_mem_drop ha)).mp (hsplit.2 a ha)

/-! ## Exactness -/

/-- The callbacks of the timers that are due are collected in the order of their deadlines; then
the recurring ones among them run again and the others are gone. -/
structure ExpiresExactly (m : TimerManager F W) (nowTimer : Addr) (now : UInt64) : Prop where
  collected : (m.listExpiredCb nowTimer now).1 =
    (m.timers.filter fun a => m.heap.next a ≤ now).map fun a => (a, m.callbackAt a)
  inOrder : (m.listExpiredCb nowTimer now).1.Pairwise fun p q => m.heap.next p.1 ≤ m.heap.next q.1
  recurring : ∀ a ∈ m.timers, ∀ t, m.heap a = some t → t.next ≤ now → t.recurring = true →
    a ∈ (m.listExpiredCb nowTimer now).2.timers ∧
      (m.listExpiredCb nowTimer now).2.heap a = some { t with next := now + t.ms }
  oneShot : ∀ a ∈ m.timers, ∀ t, m.heap a = some t → t.next ≤ now → t.recurring = false →
    a ∉ (m.listExpiredCb nowTimer now).2.timers ∧
      (m.listExpiredCb nowTimer now).2.heap a = some { t with cb := none }
  untouched : ∀ a, ¬ (a ∈ m.timers ∧ m.heap.next a ≤ now) →
    (a ∈ (m.listExpiredCb nowTimer now).2.timers ↔ a ∈ m.timers) ∧
      (m.listExpiredCb nowTimer now).2.heap a = m.heap a

/-- Expiry is exact when the prefix that is taken out is the timers that are due. -/
theorem Filed.expiresExactly {m : TimerManager F W} (h : m.Filed) {nowTimer : Addr} {now : UInt64}
    (htake : m.timers.take (m.expiredCount nowTimer now) =
      m.timers.filter fun a => m.heap.next a ≤ now) : ExpiresExactly m nowTimer now := by
  rcases h.listExpiredCb nowTimer now with ⟨n, hn, hcol, -, hmem, hheap⟩
  rw [← hn] at htake
  -- collected is the same as due
  have hdue : ∀ a, a ∈ m.timers.take n ↔ a ∈ m.timers ∧ m.heap.next a ≤ now := by
    intro a
    rw [htake, List.mem_filter, decide_eq_true_iff]
  have hnd := h.sorted.nodup m.heap.less_strictTotal
  rw [← List.take_append_drop n m.timers, List.nodup_append] at hnd
  have hsplit : ∀ a, a ∈ m.timers ↔ a ∈ m.timers.take n ∨ a ∈ m.timers.drop n := by
    intro a
    conv_lhs => rw [← List.take_append_drop n m.timers, List.mem_append]
  have hnext : ∀ {a t}, m.heap a = some t → m.heap.next a = t.next := by
    intro a t ht
    rw [TimerHeap.next, ht]
  refine ⟨by rw [hcol, htake], ?_, ?_, ?_, ?_⟩
  · rw [hcol, List.pairwise_map]
    apply (h.sorted.sublist (List.take_sublist n _)).imp
    intro a b hab
    rcases (TimerHeap.less_iff ..).mp hab with hlt | ⟨heq, -⟩
    · exact UInt64.le_of_lt hlt
    · exact heq ▸ UInt64.le_refl _
  · intro a ha t ht hle hrec
    have htaken := (hdue a).mpr ⟨ha, by rw [hnext ht]; exact hle⟩
    refine ⟨(hmem a).mpr (Or.inr ⟨htaken, t, ht, hrec⟩), ?_⟩
    rw [hheap, if_pos htaken, ht, Option.map_some, if_pos hrec]
  · intro a ha t ht hle hrec
    have htaken := (hdue a).mpr ⟨ha, by rw [hnext ht]; exact hle⟩
    refine ⟨?_, ?_⟩
    · intro hback
      rcases (hmem a).mp hback with hdrop | ⟨-, t', ht', hrec'⟩
      · exact hnd.2.2 a htaken a hdrop rfl
      · rw [ht] at ht'
        cases ht'
        rw [hrec] at hrec'
        cases hrec'
    · rw [hheap, if_pos htaken, ht, Option.map_some, if_neg (by rw [hrec]; decide)]
  · intro a ha
    rw [← hdue a] at ha
    rw [hmem, hheap, if_neg ha, hsplit]
    simp only [ha, false_and, or_false, false_or, and_self]

/-- Expiry is exact exactly when every timer that is due now lies below the temporary. -/
theorem expiresExactly_iff {m : TimerManager F W} (h : m.Filed) {nowTimer : Addr} {now : UInt64}
    (hfree : m.heap nowTimer = none) (hroll : (m.detectClockRollover now).1 = false) :
    ExpiresExactly m nowTimer now ↔ ∀ a ∈ m.timers, m.heap.next a = now → a < nowTimer := by
  have hcut := h.cut hfree hroll
  constructor
  · intro hexact a ha heq
    rcases h.listExpiredCb nowTimer now with ⟨n, hn, hcol, -⟩
    have hlists := hcol.symm.trans hexact.collected
    -- the list collected names the prefix that was taken out
    have haddr := congrArg (List.map Prod.fst) hlists
    rw [List.map_map, List.map_map] at haddr
    have htake : m.timers.take n = m.timers.filter fun a => m.heap.next a ≤ now := by
      simpa [Function.comp_def] using haddr
    have htaken : a ∈ m.timers.take n := by
      rw [htake, List.mem_filter, decide_eq_true_iff, heq]
      exact ⟨ha, UInt64.le_refl _⟩
    rw [hn] at htaken
    rcases hcut.1 a htaken with hlt | ⟨-, hlt⟩
    · rw [heq] at hlt
      exact absurd hlt (UInt64.lt_irrefl _)
    · exact hlt
  · intro hbelow
    apply h.expiresExactly
    -- all of the prefix is due, and nothing behind it
    have hfirst : (m.timers.take (m.expiredCount nowTimer now)).filter
        (fun a => m.heap.next a ≤ now) = m.timers.take (m.expiredCount nowTimer now) := by
      apply List.filter_eq_self.mpr
      intro a ha
      rw [decide_eq_true_iff]
      rcases hcut.1 a ha with hlt | ⟨heq, -⟩
      · exact UInt64.le_of_lt hlt
      · exact heq ▸ UInt64.le_refl _
    have hsecond : (m.timers.drop (m.expiredCount nowTimer now)).filter
        (fun a => m.heap.next a ≤ now) = [] := by
      apply List.filter_eq_nil_iff.mpr
      intro a ha
      rw [decide_eq_true_iff]
      rcases hcut.2 a ha with hlt | ⟨heq, hlt⟩
      · exact UInt64.not_le.mpr hlt
      · have hle := hbelow a (List.mem_of_mem_drop ha) heq
        exact absurd hle (Nat.not_lt.mpr (Nat.le_of_lt hlt))
    conv_rhs => rw [← List.take_append_drop (m.expiredCount nowTimer now) m.timers,
      List.filter_append, hfirst, hsecond, List.append_nil]

/-- Two timers that are due at 10, at the addresses 8 and 24. -/
theorem two_due_run : ∃ m : TimerManager Nat Unit, (∃ hist, Run Step (new 0) hist m) ∧
    m.timers = [8, 24] ∧ m.heap.next 24 = 10 ∧ m.heap 16 = none ∧ m.heap 32 = none ∧
    (m.detectClockRollover 10).1 = false ∧
    (m.listExpiredCb 16 10).1 = [(8, some (.fn 1))] := by
  have hnew : Run Step (new 0 : TimerManager Nat Unit) [] (new 0) := .nil _
  have hadd := hnew.snoc (show Step _ (.addTimer 8 10 (some (.fn 1)) false 0, _) _ from rfl)
  have hadd' := hadd.snoc (show Step _ (.addTimer 24 7 (some (.fn 2)) false 3, _) _ from rfl)
  exact ⟨_, ⟨_, hadd'⟩, rfl, rfl, rfl, rfl, rfl, rfl⟩

theorem expiresExactly_iff_above : ∃ m : TimerManager Nat Unit,
    m.timers = [8, 24] ∧ ExpiresExactly m 32 10 := by
  rcases two_due_run with ⟨m, ⟨hist, hrun⟩, htimers, -, -, hfree, hroll, -⟩
  have hbelow : ∀ a ∈ ([8, 24] : List Addr), a < 32 := by decide
  refine ⟨m, htimers, (expiresExactly_iff (kept_of_run hrun).toFiled hfree hroll).mpr ?_⟩
  rw [htimers]
  exact fun a ha _ => hbelow a ha

/-- With the temporary between the two, one of them is left in the set. -/
theorem due_timer_left : ∃ m : TimerManager Nat Unit, (∃ hist, Run Step (new 0) hist m) ∧
    m.heap 16 = none ∧ (m.detectClockRollover 10).1 = false ∧ 24 ∈ m.timers ∧
    m.heap.next 24 = 10 ∧ (m.listExpiredCb 16 10).1 = [(8, some (.fn 1))] ∧
    ¬ ExpiresExactly m 16 10 := by
  rcases two_due_run with ⟨m, ⟨hist, hrun⟩, htimers, hnext, hfree, -, hroll, hcol⟩
  have hmem : 24 ∈ m.timers := by
    rw [htimers]
    decide
  refine ⟨m, ⟨hist, hrun⟩, hfree, hroll, hmem, hnext, hcol, ?_⟩
  intro hexact
  have hdue : (24 : Addr) ∈ m.timers.filter fun a => m.heap.next a ≤ 10 := by
    rw [List.mem_filter, decide_eq_true_iff, hnext]
    exact ⟨hmem, by decide⟩
  have hlists := congrArg (List.map Prod.fst) (hcol.symm.trans hexact.collected)
  rw [List.map_map, Function.comp_def] at hlists
  rw [← List.map_id' (m.timers.filter _), ← hlists] at hdue
  exact absurd hdue (by decide)

/-! ## Never early -/

structure Arming where
  start : UInt64
  period : UInt64
  recurring : Bool

/-- The armings after a call: a period starts when the timer is created, refreshed, reset from now
or, when it is a recurring one, collected. -/
def arm (r : Addr → Option Arming) (e : TimerEvent F W) : Addr → Option Arming :=
  match e.1 with
  | .addTimer a ms _ recurring now => Function.update r a (some { start := now, period := ms, recurring })
  | .addConditionTimer a ms _ _ recurring now =>
    Function.update r a (some { start := now, period := ms, recurring })
  | .refresh a now =>
    if e.2.ret = some true then Function.update r a ((r a).map fun x => { x with start := now })
    else r
  | .reset a ms fromNow now =>
    if e.2.ret = some true then
      Function.update r a ((r a).map fun x =>
        { x with start := if fromNow then now else x.start, period := ms })
    else r
  -- the deadline of a one-shot timer is not written again
  | .listExpiredCb _ now => fun a =>
    if a ∈ collectedBy e then (r a).map fun x => if x.recurring then { x with start := now } else x
    else r a
  | .cancel _ => r
  | .getNextTimer _ => r

def armings (hist : List (TimerEvent F W)) : Addr → Option Arming := hist.foldl arm fun _ => none

def Arming.InRange (x : Arming) : Prop := x.start.toNat + x.period.toNat < 2 ^ 64

structure Arming.Matches (x : Arming) (t : Timer F W) : Prop where
  ms : t.ms = x.period
  recurring : t.recurring = x.recurring
  next : t.next = x.start + x.period

theorem Arming.Matches.start {x : Arming} {t : Timer F W} (h : x.Matches t) :
    t.next - t.ms = x.start := by
  rw [h.next, h.ms, UInt64.add_sub_cancel]

/-- Every timer in the set has the deadline of its arming, which `p` says more about. -/
structure Dated (p : Arming → Prop) (r : Addr → Option Arming) (m : TimerManager F W) : Prop where
  kept : m.Kept
  dated : ∀ a ∈ m.timers, ∃ t x, m.heap a = some t ∧ r a = some x ∧ x.Matches t ∧ p x

/-- A call that changes one timer. -/
theorem Dated.changed {p : Arming → Prop} {r r' : Addr → Option Arming} {m m' : TimerManager F W}
    {a : Addr} {t : Timer F W} {present : Prop} (h : Dated p r m)
    (hc : Changed m a t present m') (hr : ∀ b, b ≠ a → r' b = r b)
    (hself : present → ∃ x, r' a = some x ∧ x.Matches t ∧ p x) : Dated p r' m' := by
  refine ⟨hc.kept, fun b hb => ?_⟩
  by_cases hba : b = a
  · rw [hba] at hb ⊢
    rcases hself (hc.self.mp hb) with ⟨x, hx, hmatch, hp⟩
    exact ⟨t, x, by rw [hc.heap]; exact TimerHeap.store_self .., hx, hmatch, hp⟩
  · rcases h.dated b ((hc.other b hba).mp hb) with ⟨s, x, hs, hx, hmatch, hp⟩
    refine ⟨s, x, ?_, (hr b hba).trans hx, hmatch, hp⟩
    rw [hc.heap, TimerHeap.store_other _ _ hba]
    exact hs

def Grants (p : Arming → Prop) (m : TimerManager F W) (e : TimerEvent F W) : Prop :=
  match e.1 with
  | .addTimer _ ms _ recurring now => p { start := now, period := ms, recurring }
  | .addConditionTimer _ ms _ _ recurring now => p { start := now, period := ms, recurring }
  | .refresh a now => a ∈ m.timers → ∀ t (x : Arming), m.heap a = some t → x.Matches t →
      p { x with start := now }
  | .reset a ms fromNow now => a ∈ m.timers → ∀ t (x : Arming), m.heap a = some t → x.Matches t →
      p { x with start := if fromNow then now else x.start, period := ms }
  | .listExpiredCb _ now => ∀ a ∈ collectedBy e, ∀ t (x : Arming), m.heap a = some t →
      x.Matches t → t.recurring = true → p { x with start := now }
  | .cancel _ => True
  | .getNextTimer _ => True

theorem Dated.addTimer {p : Arming → Prop} {r : Addr → Option Arming} {m : TimerManager F W}
    (h : Dated p r m) {a : Addr} (hfree : m.heap a = none) {ms : UInt64}
    {cb : Option (Callback F W)} {recurring : Bool} {now : UInt64}
    (hp : p { start := now, period := ms, recurring }) :
    Dated p (Function.update r a (some { start := now, period := ms, recurring }))
      (m.addTimer a ms cb recurring now).2 := by
  refine h.changed (addTimer_changed h.kept hfree ms cb recurring now)
    (fun b hb => Function.update_of_ne hb _ _) fun _ => ?_
  exact ⟨_, Function.update_self .., ⟨rfl, rfl, rfl⟩, hp⟩

theorem Dated.listExpiredCb {p : Arming → Prop} {r : Addr → Option Arming}
    {m : TimerManager F W} (h : Dated p r m) (nowTimer : Addr) (now : UInt64)
    (hp : Grants p m (.listExpiredCb nowTimer now,
      { collected := (m.listExpiredCb nowTimer now).1 })) :
    Dated p (arm r ((.listExpiredCb nowTimer now,
      { collected := (m.listExpiredCb nowTimer now).1 }) : TimerEvent F W))
      (m.listExpiredCb nowTimer now).2 := by
  rcases h.kept.toFiled.listExpiredCb nowTimer now with ⟨n, -, hcol, -, hmem, hheap⟩
  have hby : collectedBy ((.listExpiredCb nowTimer now,
      { collected := (m.listExpiredCb nowTimer now).1 }) : TimerEvent F W) = m.timers.take n := by
    rw [collectedBy, hcol, List.map_map]
    exact List.map_id _
  have hnd := h.kept.sorted.nodup m.heap.less_strictTotal
  rw [← List.take_append_drop n m.timers, List.nodup_append] at hnd
  refine ⟨listExpiredCb_kept h.kept nowTimer now, fun a ha => ?_⟩
  rw [hheap]
  simp only [arm, hby]
  rcases (hmem a).mp ha with hdrop | ⟨htake, t, ht, hrec⟩
  · -- not collected, so nothing about it has changed
    have hnot : a ∉ m.timers.take n := fun htake => hnd.2.2 a htake a hdrop rfl
    rw [if_neg hnot, if_neg hnot]
    exact h.dated a (List.mem_of_mem_drop hdrop)
  · rcases h.dated a (List.mem_of_mem_take htake) with ⟨s, x, hs, hx, hmatch, -⟩
    rw [ht] at hs
    cases hs
    have hrec' : x.recurring = true := hmatch.recurring ▸ hrec
    rw [if_pos htake, if_pos htake, ht, hx]
    refine ⟨{ t with next := now + t.ms }, { x with start := now }, ?_, ?_,
      ⟨hmatch.ms, hmatch.recurring, ?_⟩, hp a (by rw [hby]; exact htake) t x ht hmatch hrec⟩
    · rw [Option.map_some, if_pos hrec]
    · rw [Option.map_some, if_pos hrec']
    · show now + t.ms = now + x.period
      rw [hmatch.ms]

theorem Dated.step {p : Arming → Prop} {r : Addr → Option Arming} {m m' : TimerManager F W}
    {e : TimerEvent F W} (h : Dated p r m) (hp : Grants p m e) (hs : Step m e m') :
    Dated p (arm r e) m' := by
  -- a timer with a callback is in the set, so its arming is known
  have harmed : ∀ {a t}, m.heap a = some t → t.cb.isSome →
      a ∈ m.timers ∧ ∃ x, r a = some x ∧ x.Matches t := by
    intro a t ht hcb
    have hmem := h.kept.member a ⟨t, ht, hcb⟩
    rcases h.dated a hmem with ⟨s, x, hs', hx, hmatch, -⟩
    rw [ht] at hs'
    cases hs'
    exact ⟨hmem, x, hx, hmatch⟩
  cases h.kept.stepped hs with
  | addTimer hfree => exact h.addTimer hfree hp
  | addConditionTimer hfree => exact h.addTimer hfree hp
  | cancel _ _ hchanged => exact h.changed hchanged (fun _ _ => rfl) False.elim
  | cancelNothing _ _ => exact h
  | @refresh a now t _ ht hcb hchanged =>
    rcases harmed ht hcb with ⟨hmem, x, hx, hmatch⟩
    refine h.changed hchanged (fun b hb => Function.update_of_ne hb _ _) fun _ => ?_
    refine ⟨{ x with start := now }, ?_, ⟨hmatch.ms, hmatch.recurring, ?_⟩, hp hmem t x ht hmatch⟩
    · simp only [arm, if_true, Function.update_self, hx, Option.map_some]
    · show now + t.ms = now + x.period
      rw [hmatch.ms]
  | refreshNothing _ _ => exact h
  | @reset a ms now fromNow _ t _ ht hcb hchanged =>
    rcases harmed ht hcb with ⟨hmem, x, hx, hmatch⟩
    refine h.changed hchanged (fun b hb => Function.update_of_ne hb _ _) fun _ => ?_
    refine ⟨{ x with start := if fromNow then now else x.start, period := ms }, ?_,
      ⟨rfl, hmatch.recurring, ?_⟩, hp hmem t x ht hmatch⟩
    · simp only [arm, if_true, Function.update_self, hx, Option.map_some]
    · show resetStart t fromNow now + ms = (if fromNow then now else x.start) + ms
      rw [resetStart, hmatch.start]
  | @resetSame a ms now fromNow t ht hsame =>
    -- the arming is written again, with the period it has
    refine ⟨h.kept, fun b hb => ?_⟩
    rcases h.dated b hb with ⟨s, x, hs', hx, hmatch, hpx⟩
    by_cases hba : b = a
    · rw [hba] at hs' hx ⊢
      rw [ht] at hs'
      cases hs'
      refine ⟨t, x, ht, ?_, hmatch, hpx⟩
      simp only [arm, if_true, Function.update_self, hx, Option.map_some]
      rw [hsame.1, hsame.2, hmatch.ms]
      rfl
    · refine ⟨s, x, hs', ?_, hmatch, hpx⟩
      exact (Function.update_of_ne hba _ _).trans hx
  | resetNothing _ _ => exact h
  | getNextTimer hheap htimers =>
    refine ⟨h.kept.of_fields hheap htimers, ?_⟩
    rw [hheap, htimers]
    exact h.dated
  | listExpiredCb _ => exact h.listExpiredCb _ _ hp

theorem armings_snoc (hist : List (TimerEvent F W)) (e : TimerEvent F W) :
    armings (hist ++ [e]) = arm (armings hist) e := by
  rw [armings, List.foldl_append]
  rfl

theorem dated_of_run {p : Arming → Prop} {start : UInt64} {hist : List (TimerEvent F W)}
    {m : TimerManager F W} (hrun : Run (Guarded (Grants p) Step) (new start) hist m) :
    Dated p (armings hist) m := by
  apply hrun.history_invariant fun hist m => Dated p (armings hist) m
  · exact ⟨kept_new start, fun a ha => absurd ha List.not_mem_nil⟩
  · intro hist m e m' h hs
    rw [armings_snoc]
    exact h.step hs.1 hs.2

/-! ### Collections -/

def NoRollover (m : TimerManager F W) (e : TimerEvent F W) : Prop :=
  match e.1 with
  | .listExpiredCb _ now => m.timers ≠ [] → (m.detectClockRollover now).1 = false
  | _ => True

/-- Somewhere in the history, after the calls `before`, the timer is collected at `now`. -/
def Collection (hist before : List (TimerEvent F W)) (now : UInt64) (a : Addr) : Prop :=
  ∃ nowTimer eff after, hist = before ++ (.listExpiredCb nowTimer now, eff) :: after ∧
    a ∈ collectedBy (.listExpiredCb nowTimer now, eff)

/-- A collected timer was in the set, and it was due unless the clock was found to roll over. -/
theorem Collection.state {g : TimerManager F W → TimerEvent F W → Prop} {start : UInt64}
    {hist before : List (TimerEvent F W)} {m : TimerManager F W} {now : UInt64} {a : Addr}
    (hrun : Run (Guarded g Step) (new start) hist m) (hc : Collection hist before now a) :
    ∃ s, Run (Guarded g Step) (new start) before s ∧ a ∈ s.timers ∧
      ((∀ e, g s e → NoRollover s e) → s.heap.next a ≤ now) := by
  rcases hc with ⟨nowTimer, eff, after, hhist, ha⟩
  rw [hhist, List.append_cons] at hrun
  rcases hrun.append_inv with ⟨t, hpre, -⟩
  rcases hpre.snoc_inv with ⟨s, hbefore, hguard, hstep⟩
  have hkept : s.Kept := kept_of_run hbefore.unguarded
  -- the call that collected it
  unfold Step at hstep
  simp only [call, Option.isSome_iff_ne_none, ne_eq, ite_not] at hstep
  split at hstep
  · next hfree =>
    cases hstep
    rcases hkept.toFiled.listExpiredCb nowTimer now with ⟨n, hn, hcol, -⟩
    rw [collectedBy, hcol, List.map_map] at ha
    have htaken : a ∈ s.timers.take n := by simpa [Function.comp_def] using ha
    have hmem := List.mem_of_mem_take htaken
    refine ⟨s, hbefore, hmem, fun hg => ?_⟩
    have hroll : (s.detectClockRollover now).1 = false := hg _ hguard (List.ne_nil_of_mem hmem)
    rw [hn] at htaken
    rcases (hkept.toFiled.cut hfree hroll).1 a htaken with hlt | ⟨heq, -⟩
    · exact UInt64.le_of_lt hlt
    · exact heq ▸ UInt64.le_refl _
  · cases hstep

/-- Every timer is collected when at least the period it was armed with last is over, in unbounded
numbers. -/
def OnTime (hist : List (TimerEvent F W)) : Prop :=
  ∀ before now a, Collection hist before now a →
    ∃ x, armings before a = some x ∧ x.start.toNat + x.period.toNat ≤ now.toNat

/-- The armings of the timers that are collected do not go beyond `2^64`. -/
def CollectedInRange (hist : List (TimerEvent F W)) : Prop :=
  ∀ before now a, Collection hist before now a → ∀ x, armings before a = some x → x.InRange

/-- A call whose deadlines do not overflow gives out armings in range. -/
theorem NoOverflow.grants {m : TimerManager F W} {e : TimerEvent F W} (h : NoOverflow m e) :
    Grants Arming.InRange m e := by
  rcases e with ⟨op, eff⟩
  cases op with
  | addTimer a ms cb recurring now => exact h
  | addConditionTimer a ms cb weakCond recurring now => exact h
  | cancel a => trivial
  | refresh a now =>
    intro hmem t x ht hmatch
    have hlt := h hmem t ht
    rw [hmatch.ms] at hlt
    exact hlt
  | reset a ms fromNow now =>
    intro hmem t x ht hmatch
    have hlt := h hmem t ht
    rw [resetStart, hmatch.start] at hlt
    exact hlt
  | getNextTimer now => trivial
  | listExpiredCb nowTimer now =>
    intro a ha t x ht hmatch hrec
    have hlt := h a ha t ht hrec
    rw [hmatch.ms] at hlt
    exact hlt

/-- In a run without a detected rollover no callback is collected early exactly when no timer is
collected whose start and period add up to `2^64` or more; and so it is in every run whose calls
compute their deadlines without overflow. -/
theorem never_early_iff {start : UInt64} {hist : List (TimerEvent F W)} {m : TimerManager F W}
    (hrun : Run (Guarded NoRollover Step) (new start) hist m) :
    (OnTime hist ↔ CollectedInRange hist) ∧
      (Run (Guarded NoOverflow Step) (new start) hist m → OnTime hist) := by
  -- whatever is collected was armed, and its deadline is that of the arming
  have harmed : ∀ before now a, Collection hist before now a →
      ∃ x, armings before a = some x ∧ x.start + x.period ≤ now := by
    intro before now a hc
    rcases hc.state hrun with ⟨s, hbefore, hmem, hdue⟩
    have hdated : Dated (fun _ => True) (armings before) s := by
      apply dated_of_run (hbefore.mono ?_)
      intro m e m' hs
      refine ⟨?_, hs.2⟩
      unfold Grants
      split <;> simp only [implies_true]
    rcases hdated.dated a hmem with ⟨t, x, ht, hx, hmatch, -⟩
    refine ⟨x, hx, ?_⟩
    have hle := hdue fun _ hg => hg
    rw [TimerHeap.next, ht] at hle
    rw [← hmatch.next]
    exact hle
  have hiff : OnTime hist ↔ CollectedInRange hist := by
    constructor
    · intro hon before now a hc x hx
      rcases hon before now a hc with ⟨x', hx', hle⟩
      rw [hx] at hx'
      cases hx'
      exact Nat.lt_of_le_of_lt hle now.toNat_lt
    · intro hrange before now a hc
      rcases harmed before now a hc with ⟨x, hx, hle⟩
      have hin : x.start.toNat + x.period.toNat < 2 ^ 64 := hrange before now a hc x hx
      refine ⟨x, hx, ?_⟩
      -- without a wrap the sum is that of the naturals
      have hnat := UInt64.le_iff_toNat_le.mp hle
      rwa [UInt64.toNat_add, Nat.mod_eq_of_lt hin] at hnat
  refine ⟨hiff, fun hno => hiff.mpr ?_⟩
  intro before now a hc x hx
  rcases hc.state hno with ⟨s, hbefore, hmem, -⟩
  have hdated : Dated Arming.InRange (armings before) s :=
    dated_of_run (hbefore.mono fun _ _ _ hs => ⟨hs.1.grants, hs.2⟩)
  rcases hdated.dated a hmem with ⟨t, x', -, hx', -, hin⟩
  rw [hx] at hx'
  cases hx'
  exact hin

theorem timerRun_call {g : TimerManager F W → TimerEvent F W → Prop} {m m' m'' : TimerManager F W}
    {hist : List (TimerEvent F W)} (hrun : Run (Guarded g Step) m hist m') (op : TimerOp F W)
    {eff : TimerEffect F W} (hg : g m' (op, eff)) (hcall : m'.call op = some (eff, m'')) :
    Run (Guarded g Step) m (hist ++ [(op, eff)]) m'' :=
  Run.snoc hrun ⟨hg, hcall⟩

/-- A timer that is refreshed before it fires. -/
theorem never_early_iff_refreshed : ∃ hist : List (TimerEvent Nat Unit),
    Collection hist (hist.take 2) 15 8 ∧ OnTime hist := by
  have hnew : Run (Guarded NoRollover Step) (new 0 : TimerManager Nat Unit) [] (new 0) := .nil _
  have hadd := timerRun_call hnew (.addTimer 8 10 (some (.fn 1)) false 0) trivial rfl
  have hrefresh := timerRun_call hadd (.refresh 8 5) trivial rfl
  have hlist := timerRun_call hrefresh (.listExpiredCb 16 15) (fun _ => rfl) rfl
  have hnew' : Run (Guarded NoOverflow Step) (new 0 : TimerManager Nat Unit) [] (new 0) := .nil _
  have hadd' := timerRun_call hnew' (.addTimer 8 10 (some (.fn 1)) false 0)
    (by unfold NoOverflow; decide) rfl
  have hrefresh' := timerRun_call hadd' (.refresh 8 5) (fun _ t ht => by cases ht; decide) rfl
  have hlist' := timerRun_call hrefresh' (.listExpiredCb 16 15)
    (fun a ha t ht hrec => by
      rw [List.mem_singleton.mp ha] at ht
      cases ht
      cases hrec) rfl
  exact ⟨_, ⟨16, _, [], rfl, List.mem_singleton_self 8⟩, (never_early_iff hlist).2 hlist'⟩

/-- The longest period there is, and the timer fires in the same millisecond. -/
theorem fires_at_once : ∃ m : TimerManager Nat Unit,
    Run (Guarded NoRollover Step) (new 1000)
      [(.addTimer 8 (~~~0) (some (.fn 1)) false 1000, { insertedAtFront := true }),
        (.listExpiredCb 16 1000, { collected := [(8, some (.fn 1))] })] m ∧
      ¬ OnTime ([(.addTimer 8 (~~~0) (some (.fn 1)) false 1000, { insertedAtFront := true }),
        (.listExpiredCb 16 1000, { collected := [(8, some (.fn 1))] })] :
          List (TimerEvent Nat Unit)) := by
  have hnew : Run (Guarded NoRollover Step) (new 1000 : TimerManager Nat Unit) [] (new 1000) :=
    .nil _
  have hadd := timerRun_call hnew (.addTimer 8 (~~~0) (some (.fn 1)) false 1000) trivial rfl
  have hlist := timerRun_call hadd (.listExpiredCb 16 1000) (fun _ => rfl) rfl
  refine ⟨_, hlist, ?_⟩
  intro hon
  rcases hon [(.addTimer 8 (~~~0) (some (.fn 1)) false 1000, { insertedAtFront := true })] 1000 8
    ⟨16, _, [], rfl, List.mem_singleton_self 8⟩ with ⟨x, hx, hle⟩
  cases hx
  exact absurd hle (by decide)

end TimerManager

end Azure
