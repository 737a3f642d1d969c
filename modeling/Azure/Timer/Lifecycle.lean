import Azure.Timer.Keeping

/-!
# The life cycle of a timer

The invariant below says that the order of the set is the current one and that membership is exactly
`m_cb != nullptr`.  What is collected over a whole run follows from the history.
-/

namespace Azure

open Reasoning OrderedSet

variable {F W : Type}

/-! ## The invariant -/

namespace TimerManager

/-- `m_timers` is ordered by the current deadlines and holds exactly the pending timers. -/
structure Ordered (m : TimerManager F W) : Prop where
  sorted : Sorted m.heap.less m.timers
  mem_iff : ∀ a, a ∈ m.timers ↔ m.Pending a

/-- Mid-way through the loop of `listExpiredCb`: the timers still to be visited are pending but
outside the set. -/
structure Expiring (m : TimerManager F W) (rest : List Addr) : Prop where
  sorted : Sorted m.heap.less m.timers
  nodup : rest.Nodup
  visiting : ∀ a ∈ rest, m.Pending a ∧ a ∉ m.timers
  mem_iff : ∀ a, a ∉ rest → (a ∈ m.timers ↔ m.Pending a)

theorem Ordered.nodup {m : TimerManager F W} (h : m.Ordered) : m.timers.Nodup :=
  h.sorted.nodup m.heap.less_strictTotal

theorem new_ordered (now : UInt64) : (new now : TimerManager F W).Ordered where
  sorted := List.Pairwise.nil
  mem_iff a := by simp [new, Pending]

theorem Ordered.of_fields {m m' : TimerManager F W} (h : m.Ordered) (hh : m'.heap = m.heap)
    (ht : m'.timers = m.timers) : m'.Ordered where
  sorted := by rw [hh, ht]; exact h.sorted
  mem_iff a := by simp only [Pending, hh, ht]; exact h.mem_iff a

/-! ## What each call does -/

/-- An ordered set keeps every pending timer. -/
theorem Ordered.kept {m : TimerManager F W} (h : m.Ordered) : m.Kept where
  sorted := h.sorted
  allocated a ha := by
    rcases (h.mem_iff a).mp ha with ⟨t, ht, -⟩
    exact ⟨t, ht⟩
  member a ha := (h.mem_iff a).mpr ha

/-- A call that leaves a timer in the set exactly when it leaves it its callback. -/
theorem Changed.ordered {m m' : TimerManager F W} {a : Addr} {t : Timer F W} {p : Prop}
    (h : Changed m a t p m') (hord : m.Ordered) (hp : p ↔ t.cb.isSome) : m'.Ordered := by
  refine ⟨h.kept.sorted, fun b => ?_⟩
  have hpending : m'.Pending b ↔ b = a ∧ t.cb.isSome ∨ b ≠ a ∧ m.Pending b := by
    rw [← pending_store a b t, Pending, h.heap, Pending]
  rw [hpending]
  by_cases hba : b = a
  · subst hba
    rw [h.self, hp]
    exact ⟨fun hcb => Or.inl ⟨rfl, hcb⟩, fun hor => (hor.resolve_right fun hne => hne.1 rfl).2⟩
  · rw [h.other b hba, hord.mem_iff]
    exact ⟨fun hb => Or.inr ⟨hba, hb⟩, fun hor => (hor.resolve_left fun heq => hba heq.1).2⟩

theorem addTimer_ordered {m : TimerManager F W} (h : m.Ordered) {a : Addr}
    (hfree : m.heap a = none) (ms : UInt64) {cb : Option (Callback F W)} (hcb : cb.isSome)
    (recurring : Bool) (now : UInt64) : (m.addTimer a ms cb recurring now).2.Ordered :=
  (addTimer_changed h.kept hfree ms cb recurring now).ordered h ⟨fun _ => hcb, fun _ => trivial⟩

/-- `cancel` of an existing timer always finds it: it clears a pending timer and erases it, and
does nothing to a timer that is not pending. -/
theorem cancel_cases {m : TimerManager F W} (h : m.Ordered) {a : Addr} {t : Timer F W}
    (ht : m.heap a = some t) :
    (t.cb.isSome ∧ ∃ m', m.cancel a = some (true, m') ∧ m'.Ordered ∧
        m'.heap = m.heap.store a { t with cb := none }) ∨
      (t.cb = none ∧ m.cancel a = some (false, m)) := by
  rcases cancel_kept h.kept ht with ⟨hcb, m', hcancel, hchanged⟩ | hnone
  · exact Or.inl ⟨hcb, m', hcancel, hchanged.ordered h (by simp), hchanged.heap⟩
  · exact Or.inr hnone

/-! ## `listExpiredCb` -/

theorem expireOne_recurring {m : TimerManager F W} {a : Addr} {t : Timer F W} {now : UInt64}
    (ht : m.heap a = some t) (hrec : t.recurring = true) :
    expireOne now m a = { m with
      heap := m.heap.store a { t with next := now + t.ms }
      timers := (insert (m.heap.store a { t with next := now + t.ms }).less a m.timers).2 } := by
  unfold expireOne
  rw [ht]
  exact if_pos hrec

theorem expireOne_oneShot {m : TimerManager F W} {a : Addr} {t : Timer F W} {now : UInt64}
    (ht : m.heap a = some t) (hrec : t.recurring = false) :
    expireOne now m a = { m with heap := m.heap.store a { t with cb := none } } := by
  unfold expireOne
  rw [ht]
  exact if_neg (by simp [hrec])

theorem expireOne_expiring {m : TimerManager F W} {a : Addr} {rest : List Addr}
    (h : m.Expiring (a :: rest)) (now : UInt64) : (expireOne now m a).Expiring rest := by
  have hna : a ∉ rest := (List.nodup_cons.mp h.nodup).1
  have hne : ∀ b ∈ rest, b ≠ a := fun b hb e => hna (e ▸ hb)
  rcases h.visiting a (by simp) with ⟨⟨t, ht, hcb⟩, hout⟩
  have hst := fun t' : Timer F W => TimerHeap.sorted_store t' h.sorted hout
  have hmem : ∀ b, b ≠ a → b ∉ rest → (b ∈ m.timers ↔ m.Pending b) :=
    fun b hb hr => h.mem_iff b (by simp [hb, hr])
  by_cases hrec : t.recurring = true
  · -- a recurring timer goes back into the set with its new deadline
    have hins := mem_insert (TimerHeap.less_strictTotal _)
      (hst { t with next := now + t.ms }) hout
    rw [expireOne_recurring ht hrec]
    refine ⟨Sorted.insert (TimerHeap.less_strictTotal _) (hst _) hout,
      (List.nodup_cons.mp h.nodup).2, fun b hb => ?_, fun b hb => ?_⟩
    · have hv := h.visiting b (by simp [hb])
      refine ⟨by simpa [Pending, hne b hb] using hv.1, ?_⟩
      change b ∉ (insert _ _ _).2
      rw [hins]
      simpa [hne b hb] using hv.2
    · change b ∈ (insert _ _ _).2 ↔ _
      rw [hins]
      by_cases hba : b = a
      · subst hba; simp [Pending, hcb]
      · simp [Pending, hba, hmem b hba hb]
  · -- a one-shot timer stays outside and is no longer pending
    rw [expireOne_oneShot ht (by simpa using hrec)]
    refine ⟨hst _, (List.nodup_cons.mp h.nodup).2, fun b hb => ?_, fun b hb => ?_⟩
    · have hv := h.visiting b (by simp [hb])
      exact ⟨by simpa [Pending, hne b hb] using hv.1, hv.2⟩
    · by_cases hba : b = a
      · subst hba; simpa [Pending] using hout
      · simp [Pending, hba, hmem b hba hb]

theorem expireFold_ordered (now : UInt64) {m : TimerManager F W} {expired : List Addr}
    (h : m.Expiring expired) : (expired.foldl (expireOne now) m).Ordered := by
  induction expired generalizing m with
  | nil => exact ⟨h.sorted, fun a => h.mem_iff a (by simp)⟩
  | cons a rest ih => exact ih (expireOne_expiring h now)

/-- Taking the expired prefix out of an ordered set starts the loop. -/
theorem Ordered.expiring {m : TimerManager F W} (h : m.Ordered) (n : Nat) (previous : UInt64) :
    ({ m with previousTime := previous, timers := m.timers.drop n } :
      TimerManager F W).Expiring (m.timers.take n) := by
  have hnd := h.nodup
  rw [← List.take_append_drop n m.timers, List.nodup_append] at hnd
  refine ⟨h.sorted.sublist (List.drop_sublist _ _), hnd.1, fun a ha => ⟨?_, ?_⟩, fun a ha => ?_⟩
  · exact (h.mem_iff a).mp (List.mem_of_mem_take ha)
  · exact fun hd => hnd.2.2 a ha a hd rfl
  · refine Iff.trans ?_ (h.mem_iff a)
    constructor
    · exact List.mem_of_mem_drop
    · intro hm
      rw [← List.take_append_drop n m.timers, List.mem_append] at hm
      exact hm.resolve_left ha

/-- The loop of `listExpiredCb` leaves every other timer alone, keeps the kind of each timer, and
takes the callback from the one-shot timers it visits. -/
theorem expireFold_heap (now : UInt64) (expired : List Addr) (hnd : expired.Nodup)
    (m : TimerManager F W) (a : Addr) :
    (expired.foldl (expireOne now) m).heap a =
      if a ∈ expired then (m.heap a).map fun t =>
        if t.recurring then { t with next := now + t.ms } else { t with cb := none }
      else m.heap a := by
  induction expired generalizing m with
  | nil => simp
  | cons b rest ih =>
    have hnb := (List.nodup_cons.mp hnd).1
    rw [List.foldl_cons, ih (List.nodup_cons.mp hnd).2]
    have hone : ∀ c, (expireOne now m b).heap c =
        if c = b then (m.heap b).map fun t =>
          if t.recurring then { t with next := now + t.ms } else { t with cb := none }
        else m.heap c := by
      intro c
      cases hb : m.heap b with
      | none =>
        by_cases hc : c = b
        · subst hc; simp [expireOne, hb]
        · simp [expireOne, hb, hc]
      | some t =>
        by_cases hrec : t.recurring = true <;> by_cases hc : c = b
        · subst hc; simp [expireOne, hb, hrec]
        · simp [expireOne, hb, hrec, hc]
        · subst hc; simp [expireOne, hb, hrec]
        · simp [expireOne, hb, hrec, hc]
    rw [hone a]
    by_cases hab : a = b
    · subst hab; simp [hnb]
    · simp [hab]

def expiredCount (m : TimerManager F W) (nowTimer : Addr) (now : UInt64) : Nat :=
  match m.timers with
  | [] => 0
  | first :: _ =>
    let (rollover, m₁) := m.detectClockRollover now
    if rollover = false ∧ now < m.heap.next first then 0
    else m₁.expiredEnd nowTimer now rollover

/-- `listExpiredCb` collects a prefix of the set and then runs the loop over it. -/
theorem listExpiredCb_cases (m : TimerManager F W) (nowTimer : Addr) (now : UInt64) :
    ∃ n previous, n = m.expiredCount nowTimer now ∧
      (previous = m.previousTime ∨ previous = now) ∧
      (m.listExpiredCb nowTimer now).1 = (m.timers.take n).map (fun a => (a, m.callbackAt a)) ∧
      (m.listExpiredCb nowTimer now).2 = (m.timers.take n).foldl (expireOne now)
        { m with previousTime := previous, timers := m.timers.drop n } := by
  unfold listExpiredCb expiredCount
  cases htimers : m.timers with
  | nil =>
    refine ⟨0, m.previousTime, rfl, Or.inl rfl, rfl, ?_⟩
    show m = { m with timers := [] }
    rw [← htimers]
  | cons first rest =>
    dsimp only
    by_cases hearly : (m.detectClockRollover now).1 = false ∧ now < m.heap.next first
    · rw [if_pos hearly, if_pos hearly]
      exact ⟨0, now, rfl, Or.inr rfl, rfl, by rw [List.drop_zero, ← htimers]; rfl⟩
    · rw [if_neg hearly, if_neg hearly]
      exact ⟨_, now, rfl, Or.inr rfl, rfl, rfl⟩

/-! ## One call -/

def collectedBy (e : TimerEvent F W) : List Addr := e.2.collected.map Prod.fst

def collectedIn (hist : List (TimerEvent F W)) : List Addr := hist.flatMap collectedBy

/-- The caller of `addTimer` passes a callback. -/
def NonNullCallback (_ : TimerManager F W) (e : TimerEvent F W) : Prop :=
  match e.1 with
  | .addTimer _ _ cb _ _ => cb.isSome
  | _ => True

structure CallSpec (m : TimerManager F W) (e : TimerEvent F W) (m' : TimerManager F W) :
    Prop where
  ordered : m'.Ordered
  persists : ∀ a t, m.heap a = some t → ∃ t', m'.heap a = some t' ∧
    t'.recurring = t.recurring ∧ (t.cb = none → t'.cb = none)
  collectedNodup : (collectedBy e).Nodup
  collectedPending : ∀ a ∈ collectedBy e, m.Pending a
  oneShotSpent : ∀ a ∈ collectedBy e, ∀ t, m.heap a = some t → t.recurring = false →
    ¬ m'.Pending a
  cancelClears : ∀ a, e.1 = .cancel a → e.2.ret = some true → ∃ t, m'.heap a = some t ∧ t.cb = none

/-- A store to one object leaves the others as they are. -/
theorem persists_store {m m' : TimerManager F W} {a : Addr} {t t' : Timer F W}
    (ha : m.heap a = some t) (hh : m'.heap = m.heap.store a t')
    (hrec : t'.recurring = t.recurring) (hcb : t.cb = none → t'.cb = none) :
    ∀ b s, m.heap b = some s → ∃ s', m'.heap b = some s' ∧
      s'.recurring = s.recurring ∧ (s.cb = none → s'.cb = none) := by
  intro b s hs
  by_cases hb : b = a
  · subst hb
    rw [ha] at hs
    cases hs
    exact ⟨t', by rw [hh]; simp, hrec, hcb⟩
  · exact ⟨s, by rw [hh]; simpa [hb] using hs, rfl, id⟩

/-- A call that collects nothing and is no successful `cancel`. -/
theorem CallSpec.quiet {m m' : TimerManager F W} {e : TimerEvent F W} (hord : m'.Ordered)
    (hp : ∀ a t, m.heap a = some t → ∃ t', m'.heap a = some t' ∧
      t'.recurring = t.recurring ∧ (t.cb = none → t'.cb = none))
    (hc : e.2.collected = []) (hcancel : ∀ a, e.1 = .cancel a → e.2.ret ≠ some true) :
    CallSpec m e m' where
  ordered := hord
  persists := hp
  collectedNodup := by simp [collectedBy, hc]
  collectedPending := by simp [collectedBy, hc]
  oneShotSpent := by simp [collectedBy, hc]
  cancelClears a ha hr := absurd hr (hcancel a ha)

theorem addTimer_callSpec {m : TimerManager F W} (h : m.Ordered) {a : Addr}
    (hfree : m.heap a = none) (ms : UInt64) {cb : Option (Callback F W)} (hcb : cb.isSome)
    (recurring : Bool) (now : UInt64) {e : TimerEvent F W} (hc : e.2.collected = [])
    (hr : e.2.ret = none) : CallSpec m e (m.addTimer a ms cb recurring now).2 := by
  refine CallSpec.quiet (addTimer_ordered h hfree ms hcb recurring now) ?_ hc (by simp [hr])
  intro b s hs
  have hb : b ≠ a := by
    rintro rfl
    rw [hfree] at hs
    cases hs
  exact ⟨s, by simpa [addTimer, addTimerLocked, hb] using hs, rfl, id⟩

theorem listExpiredCb_callSpec {m : TimerManager F W} (h : m.Ordered) (nowTimer : Addr)
    (now : UInt64) : CallSpec m (.listExpiredCb nowTimer now,
      { collected := (m.listExpiredCb nowTimer now).1 }) (m.listExpiredCb nowTimer now).2 := by
  rcases listExpiredCb_cases m nowTimer now with ⟨n, previous, -, -, hcol, hres⟩
  have hexp := h.expiring n previous
  have hheap := expireFold_heap now (m.timers.take n) hexp.nodup
    { m with previousTime := previous, timers := m.timers.drop n }
  have hby : collectedBy ((.listExpiredCb nowTimer now,
      { collected := (m.listExpiredCb nowTimer now).1 }) : TimerEvent F W) = m.timers.take n := by
    simp [collectedBy, hcol, Function.comp_def]
  refine ⟨hres ▸ expireFold_ordered now hexp, fun a t ht => ?_, hby ▸ hexp.nodup,
    fun a ha => (hexp.visiting a (hby ▸ ha)).1, fun a ha t ht hrec => ?_, by simp⟩
  · rw [hres, hheap a]
    by_cases ha : a ∈ m.timers.take n
    · cases hrec : t.recurring <;> simp [ha, ht, hrec]
    · simp [ha, ht]
  · rw [hby] at ha
    rintro ⟨t', ht', hcb⟩
    rw [hres, hheap a] at ht'
    simp only [ha, ↓reduceIte, ht, Option.map_some, hrec, Bool.false_eq_true,
      Option.some.injEq] at ht'
    subst ht'
    simp at hcb

theorem step_callSpec {m m' : TimerManager F W} {e : TimerEvent F W} (h : m.Ordered)
    (hnn : NonNullCallback m e) (hs : Step m e m') : CallSpec m e m' := by
  -- a call that moves a pending timer or does nothing
  have hsame : ∀ a t, m.heap a = some t → ∃ t', m.heap a = some t' ∧
      t'.recurring = t.recurring ∧ (t.cb = none → t'.cb = none) := fun a t ht => ⟨t, ht, rfl, id⟩
  cases h.kept.stepped hs with
  | addTimer hfree => exact addTimer_callSpec h hfree _ hnn _ _ rfl rfl
  | addConditionTimer hfree => exact addTimer_callSpec h hfree _ rfl _ _ rfl rfl
  | @cancel a t _ ht hcb hchanged =>
    refine ⟨hchanged.ordered h (by simp), persists_store ht hchanged.heap rfl fun _ => rfl,
      by simp [collectedBy], by simp [collectedBy], by simp [collectedBy], fun b hb _ => ?_⟩
    cases hb
    exact ⟨{ t with cb := none }, by rw [hchanged.heap]; simp, rfl⟩
  | cancelNothing _ _ => exact .quiet h hsame rfl (by simp)
  | refresh ht hcb hchanged =>
    exact .quiet (hchanged.ordered h ⟨fun _ => hcb, fun _ => trivial⟩)
      (persists_store ht hchanged.heap rfl id) rfl (by simp)
  | refreshNothing _ _ => exact .quiet h hsame rfl (by simp)
  | reset ht hcb hchanged =>
    exact .quiet (hchanged.ordered h ⟨fun _ => hcb, fun _ => trivial⟩)
      (persists_store ht hchanged.heap rfl id) rfl (by simp)
  | resetSame _ _ => exact .quiet h hsame rfl (by simp)
  | resetNothing _ _ => exact .quiet h hsame rfl (by simp)
  | getNextTimer hheap htimers =>
    exact .quiet (h.of_fields hheap htimers) (by rw [hheap]; exact hsame) rfl (by simp)
  | listExpiredCb _ => exact listExpiredCb_callSpec h _ _

/-! ## Runs -/

def SpentOnce (hist : List (TimerEvent F W)) (m : TimerManager F W) : Prop :=
  ∀ a, match m.heap a with
    | none => (collectedIn hist).count a = 0
    | some t => t.recurring = false →
        (collectedIn hist).count a + (if t.cb.isSome then 1 else 0) ≤ 1

theorem collectedIn_snoc (hist : List (TimerEvent F W)) (e : TimerEvent F W) :
    collectedIn (hist ++ [e]) = collectedIn hist ++ collectedBy e := by
  simp [collectedIn]

theorem SpentOnce.step {hist : List (TimerEvent F W)} {m m' : TimerManager F W}
    {e : TimerEvent F W} (h : SpentOnce hist m) (hs : CallSpec m e m') :
    SpentOnce (hist ++ [e]) m' := by
  intro a
  have hcount : (collectedBy e).count a ≤ 1 := List.nodup_iff_count_le_one.mp hs.collectedNodup a
  have ha := h a
  rw [collectedIn_snoc, List.count_append]
  by_cases hmem : a ∈ collectedBy e
  · -- collected now: it was pending, so never collected before, and is spent afterwards
    rcases hs.collectedPending a hmem with ⟨t, ht, hcb⟩
    rcases hs.persists a t ht with ⟨t', ht', hrec, -⟩
    simp only [ht, hcb, ↓reduceIte] at ha
    simp only [ht']
    intro hone
    have hspent := hs.oneShotSpent a hmem t ht (hrec ▸ hone)
    have hnone : ¬ t'.cb.isSome := fun hc => hspent ⟨t', ht', hc⟩
    have hz := ha (hrec ▸ hone)
    rw [if_neg hnone]
    omega
  · have hz : (collectedBy e).count a = 0 := List.count_eq_zero.mpr hmem
    rw [hz, Nat.add_zero]
    cases ht : m.heap a with
    | none =>
      simp only [ht] at ha
      cases ht' : m'.heap a with
      | none => exact ha
      | some t' =>
        intro _
        rw [ha]
        split <;> omega
    | some t =>
      rcases hs.persists a t ht with ⟨t', ht', hrec, hkeep⟩
      simp only [ht] at ha
      simp only [ht']
      intro hone
      have hle := ha (hrec ▸ hone)
      by_cases hcb : t.cb.isSome
      · rw [if_pos hcb] at hle
        split <;> omega
      · have hnone : t'.cb = none := hkeep (by simpa using hcb)
        simp only [hnone, Option.isSome_none, Bool.false_eq_true, ↓reduceIte]
        omega

/-- The runs of the manager in which every timer is created with a callback. -/
abbrev CallbackRun (m : TimerManager F W) (hist : List (TimerEvent F W))
    (m' : TimerManager F W) : Prop :=
  Run (Guarded NonNullCallback Step) m hist m'

theorem CallbackRun.call {m m' m'' : TimerManager F W} {hist : List (TimerEvent F W)}
    (hrun : CallbackRun m hist m') (op : TimerOp F W) {eff : TimerEffect F W}
    (hnn : NonNullCallback m' (op, eff)) (hcall : m'.call op = some (eff, m'')) :
    CallbackRun m (hist ++ [(op, eff)]) m'' :=
  Run.snoc hrun ⟨hnn, hcall⟩

theorem CallbackRun.ordered {m m' : TimerManager F W} {hist : List (TimerEvent F W)}
    (hrun : CallbackRun m hist m') (h : m.Ordered) : m'.Ordered :=
  hrun.invariant _ h fun _ _ _ hi hs => (step_callSpec hi hs.1 hs.2).ordered

theorem CallbackRun.spentOnce {m' : TimerManager F W} {hist : List (TimerEvent F W)}
    {start : UInt64} (hrun : CallbackRun (new start) hist m') :
    m'.Ordered ∧ SpentOnce hist m' := by
  refine hrun.history_invariant (fun hist m => m.Ordered ∧ SpentOnce hist m)
    ⟨new_ordered start, fun a => by simp [new, collectedIn]⟩ ?_
  intro hist s e t hinv hs
  have hspec := step_callSpec hinv.1 hs.1 hs.2
  exact ⟨hspec.ordered, hinv.2.step hspec⟩

/-- A timer without a callback stays without one and is never collected. -/
theorem CallbackRun.cleared {m m' : TimerManager F W} {hist : List (TimerEvent F W)} {a : Addr}
    {t : Timer F W} (hrun : CallbackRun m hist m') (h : m.Ordered) (ht : m.heap a = some t)
    (hcb : t.cb = none) : a ∉ collectedIn hist := by
  have hinv := hrun.history_invariant
    (fun hist s => s.Ordered ∧ (∃ t, s.heap a = some t ∧ t.cb = none) ∧
      a ∉ collectedIn hist) ⟨h, ⟨t, ht, hcb⟩, by simp [collectedIn]⟩ ?_
  · exact hinv.2.2
  intro hist s e u hi hs
  rcases hi with ⟨hord, ⟨t, ht, hcb⟩, hno⟩
  have hspec := step_callSpec hord hs.1 hs.2
  rcases hspec.persists a t ht with ⟨t', ht', -, hkeep⟩
  refine ⟨hspec.ordered, ⟨t', ht', hkeep hcb⟩, ?_⟩
  rw [collectedIn_snoc, List.mem_append]
  rintro (hm | hm)
  · exact hno hm
  · rcases hspec.collectedPending a hm with ⟨s', hs', hsome⟩
    rw [ht] at hs'
    cases hs'
    simp [hcb] at hsome

/-- After a successful `cancel` no later call collects the timer. -/
theorem CallbackRun.cancelled {m' : TimerManager F W} {start : UInt64}
    {before after : List (TimerEvent F W)} {a : Addr} {eff : TimerEffect F W}
    (hrun : CallbackRun (new start) (before ++ (.cancel a, eff) :: after) m')
    (hret : eff.ret = some true) : a ∉ collectedIn after := by
  rw [List.append_cons] at hrun
  rcases hrun.append_inv with ⟨t, hpre, hafter⟩
  rcases hpre.snoc_inv with ⟨s, hbefore, hcancel⟩
  -- the state before the `cancel` is ordered, so it clears the callback
  have hord := CallbackRun.ordered hbefore (new_ordered start)
  have hspec := step_callSpec hord hcancel.1 hcancel.2
  rcases hspec.cancelClears a rfl hret with ⟨tm, htm, hcb⟩
  exact CallbackRun.cleared hafter hspec.ordered htm hcb

/-- The life cycle of timers over every run with callbacks: `m_timers` is strictly ordered by the
current deadlines and addresses and holds exactly the pending timers, so `cancel` always finds the
timer it erases; a one-shot timer is collected at most once; and a cancelled timer never again. -/
theorem timer_lifecycle {start : UInt64} {hist : List (TimerEvent F W)} {m : TimerManager F W}
    (hrun : CallbackRun (new start) hist m) :
    (Sorted m.heap.less m.timers ∧ m.timers.Nodup ∧ ∀ a, a ∈ m.timers ↔ m.Pending a) ∧
      (∀ a, (m.heap a).isSome → (m.cancel a).isSome) ∧
      (∀ a t, m.heap a = some t → t.recurring = false → (collectedIn hist).count a ≤ 1) ∧
      ∀ before after a eff, hist = before ++ (.cancel a, eff) :: after → eff.ret = some true →
        a ∉ collectedIn after := by
  have hinv := hrun.spentOnce
  refine ⟨⟨hinv.1.sorted, hinv.1.nodup, hinv.1.mem_iff⟩, fun a ha => ?_, fun a t ht hone => ?_,
    fun before after a eff heq hret => ?_⟩
  · rcases Option.isSome_iff_exists.mp ha with ⟨t, ht⟩
    rcases cancel_cases hinv.1 ht with ⟨-, m', hm', -⟩ | ⟨-, hm'⟩
    · simp [hm']
    · simp [hm']
  · have h := hinv.2 a
    simp only [ht] at h
    have hle := h hone
    omega
  · subst heq
    exact CallbackRun.cancelled hrun hret

/-- A recurring timer that fires and is then cancelled, next to a one-shot timer that stays. -/
theorem timer_lifecycle_cancelled : ∃ m : TimerManager Nat Unit,
    CallbackRun (new 0)
      [(.addTimer 8 10 (some (.fn 1)) true 0, { insertedAtFront := true }),
        (.addConditionTimer 16 30 (some 2) () false 5, {}),
        (.listExpiredCb 24 12, { collected := [(8, some (.fn 1))] }),
        (.cancel 8, { ret := some true })] m ∧
      Sorted m.heap.less m.timers ∧ (m.cancel 16).isSome := by
  have hnew : CallbackRun (new 0 : TimerManager Nat Unit) [] (new 0) := .nil _
  have hadd := hnew.call (.addTimer 8 10 (some (.fn 1)) true 0) rfl rfl
  have hcond := hadd.call (.addConditionTimer 16 30 (some 2) () false 5) trivial rfl
  have hlist := hcond.call (.listExpiredCb 24 12) trivial rfl
  have hcancel := hlist.call (.cancel 8) trivial rfl
  exact ⟨_, hcancel, (timer_lifecycle hcancel).1.1, (timer_lifecycle hcancel).2.1 16 rfl⟩

end TimerManager

end Azure
