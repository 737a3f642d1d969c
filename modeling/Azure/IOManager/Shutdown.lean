import Azure.IOManager.Model
import Azure.IOManager.PendingCount
import Azure.Scheduler.Conservation
import Azure.Scheduler.Resume

/-!
# Shutdown

`stopping` reads the timers, the pending count and the queue with the active count one after the
other, and a worker for which it comes out true ends its idle fiber for good.  From then on nothing
watches for work that was in none of the three: callbacks that are collected and not yet scheduled,
a `READY` fiber behind the decrement, timers and events that came after they were read.  When
nothing of that kind exists at the last read, the manager is quiet, and it stays so.
-/

namespace Azure

open Reasoning

def Pc.Leaving {C : Type} (pc : Pc C) (f : FiberId) : Prop :=
  match pc with
  | .test g _ | .resetCb g => g = f
  | _ => False

/-- Behind the decrement, about to enqueue the fiber again or to store `HOLD`. -/
def Pc.Returns {C : Type} : Pc C → Bool
  | .requeue .. | .storeHold .. => true
  | _ => false

def Worker.Ended {C : Type} (wk : Worker C) : Prop := wk.idleTerm = true ∨ wk.pc = .exited

namespace Scheduler

variable {ω C : Type} [DecidableEq ω]

def Suspended (s : Scheduler ω C) (f : FiberId) : Prop :=
  s.stateOf f ≠ .init ∧ s.stateOf f ≠ .term ∧ s.stateOf f ≠ .except

def Over (s : Scheduler ω C) (f : FiberId) : Prop :=
  s.stateOf f = .term ∨ s.stateOf f = .except

structure Quiet (s : Scheduler ω C) : Prop where
  queue : s.fibers = []
  free : ∀ w, (s.worker w).pc.owes = false
  returned : ∀ w, (s.worker w).pc.Returns = false
  leaving : ∀ w f, (s.worker w).pc.Leaving f →
    s.Over f ∧ ∀ v, (s.worker v).pc.Leaving f → v = w
  ended : ∀ f, ¬ s.Suspended f

/-- One worker moves on without a task. -/
theorem Quiet.update {s s' : Scheduler ω C} (h : s.Quiet) {w : ω} {wk : Worker C}
    (hworker : s'.worker = Function.update s.worker w wk) (hqueue : s'.fibers = s.fibers)
    (hfiber : s'.fiber = s.fiber) (hfree : wk.pc.owes = false) (hreturned : wk.pc.Returns = false)
    (hleaving : ∀ f, wk.pc.Leaving f → (s.worker w).pc.Leaving f) : s'.Quiet := by
  have hstate : ∀ f, s'.stateOf f = s.stateOf f := fun f => by simp [stateOf, hfiber]
  have hold : ∀ v f, (s'.worker v).pc.Leaving f → (s.worker v).pc.Leaving f := by
    intro v f hv
    rw [hworker] at hv
    by_cases heq : v = w
    · subst heq
      rw [Function.update_self] at hv
      exact hleaving f hv
    · rwa [Function.update_of_ne heq] at hv
  refine ⟨hqueue.trans h.queue, fun v => ?_, fun v => ?_, fun v f hv => ?_, fun f hf => ?_⟩
  · rw [hworker]
    by_cases heq : v = w
    · subst heq
      rwa [Function.update_self]
    · rw [Function.update_of_ne heq]
      exact h.free v
  · rw [hworker]
    by_cases heq : v = w
    · subst heq
      rwa [Function.update_self]
    · rw [Function.update_of_ne heq]
      exact h.returned v
  · have hl := h.leaving v f (hold v f hv)
    refine ⟨?_, fun u hu => hl.2 u (hold u f hu)⟩
    rw [Over, hstate]
    exact hl.1
  · rw [Suspended, hstate] at hf
    exact h.ended f hf

/-- A quiet scheduler stays quiet whatever its workers do. -/
theorem Move.quiet {tid : ω → Int} {s s' : Scheduler ω C} {a : Action ω C} {e : Effect C}
    (h : Move tid s a e s') (hq : s.Quiet) (hl : Local s)
    (ha : (∃ w fresh, a = .work w fresh) ∨ ∃ w finished, a = .leaveIdle w finished) : s'.Quiet := by
  have hfree := hq.free
  cases h with
  | create _ | schedule _ | scheduleAll _ | await _ | fire _ | yield _ _ => simp at ha
  | assertFailed => exact ⟨hq.queue, hq.free, hq.returned, hq.leaving, hq.ended⟩
  -- the queue is empty, so nothing is found
  | @scanFound w _ ft rest hpc hscan =>
    rw [hq.queue] at hscan
    cases hscan
  | @branchFiber w _ ft isActive f hpc hf _ =>
    have := hl.active hpc (Or.inl (by simp [hf]))
    simpa [hpc, Pc.owes, this] using hfree w
  | @branchReset w _ ft isActive cb f hpc hcb _ _ | @branchNew w _ ft isActive cb hpc hcb _ _ =>
    have := hl.active hpc (Or.inr (by simp [hcb]))
    simpa [hpc, Pc.owes, this] using hfree w
  -- a worker here would still owe its decrement
  | @swapIn w _ f via hpc _ | @restore w _ f via hpc | @save w _ f via hpc
  | @decrement w _ f via hpc | @noTask w _ hpc =>
    simpa [hpc, Pc.owes] using hfree w
  | @requeue w _ f via hpc | @storeHold w _ f via hpc =>
    simpa [hpc, Pc.Returns] using hq.returned w
  | @testReady w _ f via hpc hstate | @testHold w _ f via hpc hstate =>
    -- what is behind the decrement is over
    have hover := (hq.leaving w f (by simp [hpc, Pc.Leaving])).1
    simp only [Over] at hover
    rcases hover with hover | hover <;> simp [hover] at hstate
  | @branchNone w _ ft isActive hpc _ =>
    have hactive : isActive = false := by simpa [hpc, Pc.owes] using hfree w
    subst hactive
    exact hq.update rfl rfl rfl rfl rfl (by simp [Pc.Leaving])
  | @testReset w _ f hpc _ =>
    exact hq.update rfl rfl rfl rfl rfl (by simp [Pc.Leaving, hpc])
  | @scanNone w _ hpc _ | @testOver w _ f hpc _ | @exit w _ hpc _ | @enterIdle w _ hpc _
  | @leaveIdle w _ hpc =>
    exact hq.update rfl rfl rfl rfl rfl (by simp [Pc.Leaving])
  | @resetCb w _ f hpc _ =>
    have hw : (s.worker w).pc.Leaving f := by simp [hpc, Pc.Leaving]
    have hmoved : (s.goto w .scan).Quiet :=
      hq.update rfl rfl rfl rfl rfl (by simp [Pc.Leaving])
    have hstate : ∀ g, ((s.setFiber f {}).goto w .scan).stateOf g =
        if g = f then .init else s.stateOf g := fun g => stateOf_setFiber s f g {}
    refine ⟨hmoved.queue, hmoved.free, hmoved.returned, fun v g hv => ?_, fun g hg => ?_⟩
    · have hl := hmoved.leaving v g hv
      -- nobody else is leaving the fiber that starts over
      have hne : g ≠ f := by
        rintro rfl
        have hvw : v ≠ w := by
          rintro rfl
          simp [goto, setWorker, Pc.Leaving] at hv
        refine hvw ((hq.leaving w g hw).2 v ?_)
        simpa [goto, setWorker, setFiber, hvw] using hv
      refine ⟨?_, hl.2⟩
      rw [Over, hstate, if_neg hne]
      exact hl.1
    · rw [Suspended, hstate] at hg
      by_cases heq : g = f
      · simp [heq] at hg
      · rw [if_neg heq] at hg
        exact hq.ended g hg

/-- Only the end of its idle fiber makes a worker end. -/
theorem Move.ended {tid : ω → Int} {s s' : Scheduler ω C} {a : Action ω C} {e : Effect C}
    (h : Move tid s a e s') (ha : ∀ w, a ≠ .leaveIdle w true) {v : ω} (hv : (s'.worker v).Ended) :
    (s.worker v).Ended := by
  cases h with
  | create _ | schedule _ | scheduleAll _ | await _ | fire _ | assertFailed => exact hv
  | @exit w _ hpc hidle =>
    by_cases heq : v = w
    · subst heq
      exact Or.inl hidle
    · simpa [goto, setWorker, heq] using hv
  | @leaveIdle w finished hpc =>
    by_cases heq : v = w
    · subst heq
      have hover : finished = true := by simpa [setWorker, Worker.Ended] using hv
      exact absurd (by rw [hover]) (ha v)
    · simpa [setWorker, heq] using hv
  | @requeue w _ f via hpc | @storeHold w _ f via hpc =>
    by_cases heq : v = w
    · subst heq
      exact Or.inl (by simpa [goto, setWorker, release, push, storeState, Worker.Ended] using hv)
    · simpa [goto, setWorker, release, push, storeState, heq] using hv
  | @yield w _ _ _ hpc _ | @scanNone w _ hpc _ | @scanFound w _ _ _ hpc _
  | @branchFiber w _ _ _ _ hpc _ _ | @branchReset w _ _ _ _ _ hpc _ _ _
  | @branchNew w _ _ _ _ hpc _ _ _ | @branchNone w _ _ _ hpc _ | @swapIn w _ _ _ hpc _
  | @restore w _ _ _ hpc | @save w _ _ _ hpc | @decrement w _ _ _ hpc | @testReady w _ _ _ hpc _
  | @testOver w _ _ hpc _ | @testReset w _ _ hpc _ | @testHold w _ _ _ hpc _
  | @resetCb w _ _ hpc _ | @noTask w _ hpc | @enterIdle w _ hpc _ =>
    by_cases heq : v = w
    · subst heq
      exact Or.inl (by simpa [goto, setWorker, setFiber, storeState, setSaved, Worker.Ended] using hv)
    · simpa [goto, setWorker, setFiber, storeState, setSaved, heq] using hv

end Scheduler

namespace EventTable

variable {S C τ : Type} [DecidableEq τ]

/-- Without a registered event there is nothing to dispatch. -/
theorem Move.quiet {s s' : EventTable S C τ} {op : TableOp S C τ} {e : TableEffect S C}
    (h : Move s op e s') (hnone : ∀ ctx ∈ s.contexts, ctx.events = {})
    (hop : (∃ t reports, op = .epollWait t reports) ∨ ∃ t ok, op = .dispatch t ok) :
    (∀ ctx ∈ s'.contexts, ctx.events = {}) ∧ s'.pendingEventCount = s.pendingEventCount ∧
      e.scheduled = [] := by
  cases h with
  | find _ _ | grow _ | refuse _ _ | resize _ _ | lock _ _ => simp at hop
  | epollWait _ | dispatched _ => exact ⟨hnone, rfl, rfl⟩
  | @dispatch t a ev rest ctx ok hcaller hctx =>
    have hevents := hnone ctx (List.mem_of_getElem? hctx)
    have hsame : ctx.dispatch ev ok = some { ctx } := by
      simp [FdContext.dispatch, hevents, Events.inter]
    rw [hsame]
    refine ⟨fun ctx' hmem => ?_, Int.add_zero _, rfl⟩
    rcases List.mem_or_eq_of_mem_set hmem with hold | rfl
    · exact hnone ctx' hold
    · exact hevents

omit [DecidableEq τ] in
/-- No bit is counted, so none is set. -/
theorem Counted.none_registered {s : EventTable S C τ} (h : s.Counted)
    (hzero : s.pendingEventCount = 0) : ∀ ctx ∈ s.contexts, ctx.events = {} := by
  have hnonneg : ∀ es : Events, 0 ≤ es.count := by
    rintro ⟨r, w⟩
    cases r <;> cases w <;> decide
  have hsum := h.count
  rw [hzero] at hsum
  intro ctx hctx
  have hle := List.single_le_sum (l := s.contexts.map fun ctx => ctx.events.count)
    (by
      intro n hn
      rcases List.mem_map.mp hn with ⟨ctx, -, rfl⟩
      exact hnonneg ctx.events)
    ctx.events.count (List.mem_map_of_mem hctx)
  have hcount : ctx.events.count = 0 := by
    have := hnonneg ctx.events
    omega
  generalize ctx.events = es at hcount
  rcases es with ⟨r, w⟩
  cases r <;> cases w <;> first | rfl | exact absurd hcount (by decide)

end EventTable

namespace IOManager

variable {ω ν F W : Type} [DecidableEq ω] [DecidableEq ν]

/-! ## What is asked of the last read -/

/-- Something that is queued, registered, held or collected can still resume the fiber. -/
def Resumable (s : IOManager ω ν F W) (f : FiberId) : Prop :=
  (∃ ft ∈ s.scheduler.fibers, ft.fiber = some f ∨ ft.cb.isSome) ∨
    (∃ ctx ∈ s.table.contexts, ∃ event, ctx.events.has event = true ∧
      ((ctx.getContext event).fiber = some f ∨ (ctx.getContext event).cb.isSome)) ∨
    s.timers.timers ≠ [] ∨
    (∃ w cbs, s.idle w = .flush cbs ∧ ∃ cb ∈ cbs, cb ≠ none) ∨
    ∃ w, (s.scheduler.worker w).pc.fiber = some f ∨ (s.scheduler.worker w).pc.owes = true

/-- No work is on its way from one place to another, and no fiber has been left behind. -/
structure Settled (s : IOManager ω ν F W) : Prop where
  timers : s.timers.timers = []
  pending : s.table.pendingEventCount = 0
  collected : ∀ w cbs, s.idle w = .flush cbs → ∀ cb ∈ cbs, cb = none
  returned : ∀ w, (s.scheduler.worker w).pc.Returns = false
  leaving : ∀ w f, (s.scheduler.worker w).pc.Leaving f →
    s.scheduler.Over f ∧ ∀ v, (s.scheduler.worker v).pc.Leaving f → v = w
  resumable : ∀ f, s.scheduler.Suspended f → s.Resumable f

/-- When the last read of `stopping` makes it true, everything is settled. -/
def StopsSettled (s : IOManager ω ν F W) (a : IoAction ω ν F W) : Prop :=
  match a with
  | .idle w _ => s.idle w = .stopQueue → s.schedulerStopping = true → s.Settled
  | _ => True

/-! ## What the steps keep -/

/-- The scheduler and the table have taken steps of their own, and no idle fiber has ended. -/
structure Keeps (tid : ω → Int) (s s' : IOManager ω ν F W) : Prop where
  scheduler : ∃ hist, Run (Scheduler.Step tid) s.scheduler hist s'.scheduler ∧
    ∀ e ∈ hist, ∀ w, e.1 ≠ .leaveIdle w true
  table : ∃ hist, Run EventTable.Step s.table hist s'.table

theorem Keeps.refl (tid : ω → Int) (s : IOManager ω ν F W) : Keeps tid s s :=
  ⟨⟨[], .nil _, by simp⟩, ⟨[], .nil _⟩⟩

theorem Keeps.trans {tid : ω → Int} {s t u : IOManager ω ν F W} (h₁ : Keeps tid s t)
    (h₂ : Keeps tid t u) : Keeps tid s u := by
  rcases h₁ with ⟨⟨hist₁, hrun₁, hno₁⟩, ⟨ops₁, htable₁⟩⟩
  rcases h₂ with ⟨⟨hist₂, hrun₂, hno₂⟩, ⟨ops₂, htable₂⟩⟩
  refine ⟨⟨hist₁ ++ hist₂, hrun₁.append hrun₂, fun e he => ?_⟩, ⟨_, htable₁.append htable₂⟩⟩
  exact (List.mem_append.mp he).elim (hno₁ e) (hno₂ e)

theorem Keeps.ended {tid : ω → Int} {s s' : IOManager ω ν F W} (h : Keeps tid s s') {w : ω}
    (hw : (s'.scheduler.worker w).Ended) : (s.scheduler.worker w).Ended := by
  rcases h.scheduler with ⟨hist, hrun, hno⟩
  generalize s'.scheduler = sch at hrun hw
  induction hrun with
  | nil => exact hw
  | @snoc t u hist e _ hs ih =>
    refine ih (fun e he => hno e (List.mem_append_left _ he)) ?_
    exact (Scheduler.move_of_act hs).2.ended (hno e (by simp)) hw

omit [DecidableEq ν] in
theorem actScheduler_cases {tid : ω → Int} {s s' : IOManager ω ν F W}
    {a : Action ω (Callback F W)} (h : s.actScheduler tid a = some s') :
    ∃ e sch, Scheduler.Step tid s.scheduler (a, e) sch ∧ s' = { s with scheduler := sch } := by
  rcases Option.map_eq_some_iff.mp h with ⟨⟨e, sch⟩, hact, rfl⟩
  exact ⟨e, sch, hact, rfl⟩

theorem actScheduler_keeps {tid : ω → Int} {s s' : IOManager ω ν F W}
    {a : Action ω (Callback F W)} (h : s.actScheduler tid a = some s')
    (ha : ∀ w, a ≠ .leaveIdle w true) : Keeps tid s s' ∧ s'.idle = s.idle := by
  rcases actScheduler_cases h with ⟨e, sch, hs, rfl⟩
  refine ⟨⟨⟨_, Run.single hs, fun e' he => ?_⟩, ⟨[], .nil _⟩⟩, rfl⟩
  rw [List.mem_singleton.mp he]
  exact ha

theorem scheduleEach_keeps {tid : ω → Int} {s s' : IOManager ω ν F W}
    {scheduled : List (Unit × FiberOrCb (Callback F W))}
    (h : s.scheduleEach tid scheduled = some s') : Keeps tid s s' ∧ s'.idle = s.idle := by
  induction scheduled generalizing s with
  | nil =>
    cases h
    exact ⟨.refl tid _, rfl⟩
  | cons p rest ih =>
    rcases Option.bind_eq_some_iff.mp h with ⟨t, ht, hrest⟩
    have hone := actScheduler_keeps ht (by simp)
    have hmore := ih hrest
    exact ⟨hone.1.trans hmore.1, hmore.2.trans hone.2⟩

theorem actTable_cases {tid : ω → Int} {s s' : IOManager ω ν F W}
    {op : TableOp Unit (Callback F W) (Thread ω ν)} (h : s.actTable tid op = some s') :
    ∃ e table, EventTable.Step s.table (op, e) table ∧
      { s with table }.scheduleEach tid e.scheduled = some s' := by
  rcases Option.bind_eq_some_iff.mp h with ⟨⟨e, table⟩, hact, hrest⟩
  exact ⟨e, table, hact, hrest⟩

theorem actTable_keeps {tid : ω → Int} {s s' : IOManager ω ν F W}
    {op : TableOp Unit (Callback F W) (Thread ω ν)} (h : s.actTable tid op = some s') :
    Keeps tid s s' ∧ s'.idle = s.idle := by
  rcases actTable_cases h with ⟨e, table, hs, hrest⟩
  have hone : Keeps tid s { s with table } := ⟨⟨[], .nil _, by simp⟩, ⟨_, Run.single hs⟩⟩
  have hmore := scheduleEach_keeps hrest
  exact ⟨hone.trans hmore.1, hmore.2⟩

omit [DecidableEq ω] [DecidableEq ν] in
theorem actTimers_cases {s s' : IOManager ω ν F W} {op : TimerOp F W} {e : TimerEffect F W}
    (h : s.actTimers op = some (e, s')) :
    ∃ timers, s.timers.call op = some (e, timers) ∧ s' = { s with timers } := by
  rcases Option.map_eq_some_iff.mp h with ⟨⟨e', timers⟩, hcall, heq⟩
  rcases Prod.mk.inj heq with ⟨rfl, rfl⟩
  exact ⟨timers, hcall, rfl⟩

theorem client_keeps {tid : ω → Int} {s s' : IOManager ω ν F W} {t : Thread ω ν}
    {call : ClientCall ω ν F W} (h : s.client tid t call = some s') :
    Keeps tid s s' ∧ s'.idle = s.idle := by
  cases call with
  | table op =>
    simp only [client] at h
    split at h
    · exact actTable_keeps h
    · cases h
  | timer op =>
    simp only [client] at h
    split at h
    · rcases Option.map_eq_some_iff.mp h with ⟨⟨e, t⟩, hcall, rfl⟩
      rcases actTimers_cases hcall with ⟨timers, -, rfl⟩
      exact ⟨⟨⟨[], .nil _, by simp⟩, ⟨[], .nil _⟩⟩, rfl⟩
    · cases h
  | create f | schedule fc thread | scheduleAll fcs =>
    simp only [client] at h
    split at h
    · exact actScheduler_keeps h (by simp)
    · cases h

/-- The thread may call: an outside thread before `stop`, a worker in a body. -/
def MayCall (s : IOManager ω ν F W) : Thread ω ν → Prop
  | .inl w => (s.scheduler.worker w).pc.owes = true
  | .inr _ => s.autostop = false

inductive Move (tid : ω → Int) (s : IOManager ω ν F W) :
    IoAction ω ν F W → IOManager ω ν F W → Prop
  | autostop : Move tid s .autostop { s with autostop := true }
  | stopping (h : s.autostop = true) : Move tid s .stopping { s with stopping := true }
  | client {a : IoAction ω ν F W} {t : Thread ω ν} {call : ClientCall ω ν F W}
      {s' : IOManager ω ν F W} (ht : s.MayCall t) (hcall : s.client tid t call = some s')
      (ha : ∀ w i, a ≠ .idle w i) : Move tid s a s'
  | yield {w : ω} {state : FiberState} {s' : IOManager ω ν F W}
      (hbody : (s.scheduler.worker w).pc.owes = true)
      (hact : s.actScheduler tid (.yield w state) = some s') : Move tid s (.yield w state) s'
  | work {w : ω} {fresh : FiberId} {s' : IOManager ω ν F W}
      (hact : s.actScheduler tid (.work w fresh) = some s') : Move tid s (.work w fresh) s'
  | idle {w : ω} {i : IdleInput} {s' : IOManager ω ν F W} (hact : s.actIdle tid w i = some s') :
      Move tid s (.idle w i) s'

theorem move_of_act {tid : ω → Int} {s s' : IOManager ω ν F W} {a : IoAction ω ν F W}
    (h : s.act tid a = some s') : Move tid s a s' := by
  unfold act at h
  split at h
  · cases h
  cases a with
  | autostop => cases h; exact .autostop
  | stopping =>
    dsimp only at h
    split at h
    · next hstop => cases h; exact .stopping hstop
    · cases h
  | outside t call =>
    dsimp only at h
    split at h
    · cases h
    · next hstop =>
      exact .client (t := .inr t) (by simpa [MayCall] using hstop) h (by simp)
  | body w call =>
    dsimp only at h
    split at h
    · next f via hpc =>
      have howes : s.MayCall (.inl w) := by simp [MayCall, hpc, Pc.owes]
      split at h
      · split at h
        · exact .client howes h (by simp)
        · cases h
      · exact .client howes h (by simp)
    · cases h
  | yield w state =>
    dsimp only at h
    split at h
    · rcases actScheduler_cases h with ⟨e, sch, hs, -⟩
      have hm := (Scheduler.move_of_act hs).2
      cases hm with
      | yield hpc hout => exact .yield (by simp [hpc, Pc.owes]) h
    · cases h
  | work w fresh => exact .work h
  | idle w i =>
    dsimp only at h
    split at h
    · exact .idle h
    · cases h

/-! ## The idle fiber -/

/-- The idle fiber ends its worker, or moves on; it comes to its end by the last read of
`stopping`. -/
theorem idle_cases {tid : ω → Int} {s s' : IOManager ω ν F W} {w : ω} {i : IdleInput}
    (h : s.actIdle tid w i = some s') :
    (s.idle w = .finished ∧ s.actScheduler tid (.leaveIdle w true) = some s') ∨
      (s.idle w ≠ .finished ∧ Keeps tid s s' ∧ ∃ pc, s'.idle = Function.update s.idle w pc ∧
        (pc = .finished → s.idle w = .stopQueue ∧ s.schedulerStopping = true ∧
          s' = s.goIdle w .finished)) := by
  cases hpc : s.idle w with
  | finished =>
    simp only [actIdle, hpc] at h
    exact Or.inl ⟨rfl, h⟩
  | stopTimers =>
    simp only [actIdle, hpc] at h
    rcases Option.map_eq_some_iff.mp h with ⟨⟨e, t⟩, hcall, rfl⟩
    rcases actTimers_cases hcall with ⟨timers, -, rfl⟩
    refine Or.inr ⟨by simp, ⟨⟨[], .nil _, by simp⟩, ⟨[], .nil _⟩⟩, _, rfl, fun hover => ?_⟩
    split at hover <;> cases hover
  | stopPending =>
    simp only [actIdle, hpc] at h
    cases h
    refine Or.inr ⟨by simp, ⟨⟨[], .nil _, by simp⟩, ⟨[], .nil _⟩⟩, _, rfl, fun hover => ?_⟩
    split at hover <;> cases hover
  -- the last of the three reads: only here can the loop be left
  | stopQueue =>
    simp only [actIdle, hpc] at h
    cases h
    refine Or.inr ⟨by simp, ⟨⟨[], .nil _, by simp⟩, ⟨[], .nil _⟩⟩, _, rfl, fun hover => ?_⟩
    split at hover
    · next hstop => exact ⟨rfl, hstop, by rw [if_pos hstop]⟩
    · cases hover
  | wait =>
    simp only [actIdle, hpc] at h
    rcases Option.map_eq_some_iff.mp h with ⟨t, hcall, rfl⟩
    have hkeeps := actTable_keeps hcall
    refine Or.inr ⟨by simp, ⟨hkeeps.1.scheduler, hkeeps.1.table⟩, .expire, ?_, by simp⟩
    rw [goIdle, hkeeps.2]
  | expire =>
    simp only [actIdle, hpc] at h
    rcases Option.map_eq_some_iff.mp h with ⟨⟨e, t⟩, hcall, rfl⟩
    rcases actTimers_cases hcall with ⟨timers, -, rfl⟩
    refine Or.inr ⟨by simp, ⟨⟨[], .nil _, by simp⟩, ⟨[], .nil _⟩⟩, _, rfl, fun hover => ?_⟩
    split at hover <;> cases hover
  | flush cbs =>
    simp only [actIdle, hpc] at h
    rcases Option.map_eq_some_iff.mp h with ⟨t, hcall, rfl⟩
    have hkeeps := actScheduler_keeps hcall (by simp)
    refine Or.inr ⟨by simp, ⟨hkeeps.1.scheduler, hkeeps.1.table⟩, .dispatch, ?_, by simp⟩
    rw [goIdle, hkeeps.2]
  | dispatch =>
    simp only [actIdle, hpc] at h
    rcases Option.map_eq_some_iff.mp h with ⟨t, hcall, rfl⟩
    have hkeeps := actTable_keeps hcall
    refine Or.inr ⟨by simp, ⟨hkeeps.1.scheduler, hkeeps.1.table⟩, _, by rw [goIdle, hkeeps.2], ?_⟩
    intro hover
    split at hover <;> cases hover
  | swapOut =>
    simp only [actIdle, hpc] at h
    rcases Option.map_eq_some_iff.mp h with ⟨t, hcall, rfl⟩
    have hkeeps := actScheduler_keeps hcall (by simp)
    refine Or.inr ⟨by simp, ⟨hkeeps.1.scheduler, hkeeps.1.table⟩, .stopTimers, ?_, by simp⟩
    rw [goIdle, hkeeps.2]

/-! ## The quiet manager -/

structure Quiet (s : IOManager ω ν F W) : Prop where
  scheduler : s.scheduler.Quiet
  timers : s.timers.timers = []
  events : ∀ ctx ∈ s.table.contexts, ctx.events = {}
  pending : s.table.pendingEventCount = 0
  collected : ∀ w cbs, s.idle w = .flush cbs → ∀ cb ∈ cbs, cb = none
  stopped : s.autostop = true

omit [DecidableEq ω] [DecidableEq ν] in
/-- A settled manager without a task is quiet: what could resume a fiber is not there. -/
theorem Settled.quiet [Fintype ω] {s : IOManager ω ν F W} (h : s.Settled)
    (hstop : s.schedulerStopping = true) (hlocal : Scheduler.Local s.scheduler)
    (hcount : s.scheduler.activeThreadCount = ∑ w, Scheduler.owed (s.scheduler.worker w))
    (hcounted : s.table.Counted) : s.Quiet := by
  simp only [schedulerStopping, Bool.and_eq_true, List.isEmpty_iff, beq_iff_eq] at hstop
  rcases hstop with ⟨⟨⟨hauto, -⟩, hqueue⟩, hactive⟩
  have hevents := hcounted.none_registered h.pending
  -- the active count is a sum of zeros
  have hfree : ∀ w, (s.scheduler.worker w).pc.owes = false := by
    intro w
    rw [hactive] at hcount
    have hzero := (Finset.sum_eq_zero_iff_of_nonneg (fun v _ => by
      unfold Scheduler.owed
      split <;> decide)).mp hcount.symm w (Finset.mem_univ w)
    simpa [Scheduler.owed] using hzero
  refine ⟨⟨hqueue, hfree, h.returned, h.leaving, fun f hf => ?_⟩, h.timers, hevents, h.pending,
    h.collected, hauto⟩
  rcases h.resumable f hf with ⟨ft, hft, -⟩ | ⟨ctx, hctx, event, hev, -⟩ | harmed |
    ⟨w, cbs, hw, cb, hcb, hne⟩ | ⟨w, hw⟩
  · rw [hqueue] at hft
    cases hft
  · rw [hevents ctx hctx] at hev
    cases event <;> cases hev
  · exact harmed h.timers
  · exact hne (h.collected w cbs hw cb hcb)
  · rcases hw with hw | hw
    · have hreturned := h.returned w
      have hnot := hfree w
      have hleaving := h.leaving w f
      have hover : s.scheduler.Over f := by
        cases hpc : (s.scheduler.worker w).pc with
        | branch ft isActive =>
          rw [hpc] at hw
          have hfiber : ft.fiber = some f := hw
          have := hlocal.active hpc (Or.inl (by simp [hfiber]))
          simp [hpc, Pc.owes, this] at hnot
        | test g via | resetCb g =>
          rw [hpc] at hw hleaving
          exact (hleaving (Option.some.inj hw)).1
        | _ => simp_all [Pc.fiber, Pc.owes, Pc.Returns]
      rcases hover with hover | hover
      · exact hf.2.1 hover
      · exact hf.2.2 hover
    · rw [hfree w] at hw
      cases hw

omit [DecidableEq ν] in
theorem Quiet.update {s s' : IOManager ω ν F W} (h : s.Quiet) {w : ω} {pc : IdlePc F W}
    (hscheduler : s'.scheduler.Quiet) (htimers : s'.timers.timers = [])
    (hevents : ∀ ctx ∈ s'.table.contexts, ctx.events = {})
    (hpending : s'.table.pendingEventCount = 0) (hidle : s'.idle = Function.update s.idle w pc)
    (hpc : ∀ cbs, pc = .flush cbs → ∀ cb ∈ cbs, cb = none) (hstopped : s'.autostop = s.autostop) :
    s'.Quiet := by
  refine ⟨hscheduler, htimers, hevents, hpending, fun v cbs hv => ?_, hstopped.trans h.stopped⟩
  rw [hidle] at hv
  by_cases heq : v = w
  · subst heq
    rw [Function.update_self] at hv
    exact hpc cbs hv
  · rw [Function.update_of_ne heq] at hv
    exact h.collected v cbs hv

omit [DecidableEq ν] in
theorem Quiet.leaveIdle {tid : ω → Int} {s s' : IOManager ω ν F W} (h : s.Quiet)
    (hlocal : Scheduler.Local s.scheduler) {w : ω} {finished : Bool}
    (hact : s.actScheduler tid (.leaveIdle w finished) = some s') : s'.Quiet := by
  rcases actScheduler_cases hact with ⟨e, sch, hs, rfl⟩
  have hm := (Scheduler.move_of_act hs).2
  exact ⟨hm.quiet h.scheduler hlocal (Or.inr ⟨w, finished, rfl⟩), h.timers, h.events, h.pending,
    h.collected, h.stopped⟩

theorem Quiet.actTable {tid : ω → Int} {s s' : IOManager ω ν F W} (h : s.Quiet)
    {op : TableOp Unit (Callback F W) (Thread ω ν)}
    (hop : (∃ t reports, op = .epollWait t reports) ∨ ∃ t ok, op = .dispatch t ok)
    (hact : s.actTable tid op = some s') : s'.Quiet := by
  rcases actTable_cases hact with ⟨e, table, hs, hrest⟩
  have hq := (EventTable.move_of_act hs).2.quiet h.events hop
  rw [hq.2.2] at hrest
  cases hrest
  exact ⟨h.scheduler, h.timers, hq.1, hq.2.1.trans h.pending, h.collected, h.stopped⟩

/-- Nothing a worker does in its idle fiber wakes a quiet manager. -/
theorem Quiet.idle {tid : ω → Int} {s s' : IOManager ω ν F W} (h : s.Quiet)
    (hlocal : Scheduler.Local s.scheduler) {w : ω} {i : IdleInput}
    (hact : s.actIdle tid w i = some s') : s'.Quiet := by
  cases hpc : s.idle w with
  | finished =>
    simp only [actIdle, hpc] at hact
    exact h.leaveIdle hlocal hact
  | stopTimers =>
    simp only [actIdle, hpc] at hact
    rcases Option.map_eq_some_iff.mp hact with ⟨⟨e, t⟩, hcall, rfl⟩
    rcases actTimers_cases hcall with ⟨timers, htimers, rfl⟩
    cases htimers
    refine h.update h.scheduler ?_ h.events h.pending rfl (by intro cbs hcbs; split at hcbs <;> cases hcbs) rfl
    show (s.timers.getNextTimer i.now).2.timers = []
    simp [TimerManager.getNextTimer, h.timers]
  | stopPending =>
    simp only [actIdle, hpc] at hact
    cases hact
    exact h.update h.scheduler h.timers h.events h.pending rfl
      (by intro cbs hcbs; split at hcbs <;> cases hcbs) rfl
  | stopQueue =>
    simp only [actIdle, hpc] at hact
    cases hact
    exact h.update h.scheduler h.timers h.events h.pending rfl
      (by intro cbs hcbs; split at hcbs <;> cases hcbs) rfl
  | wait =>
    simp only [actIdle, hpc] at hact
    rcases Option.map_eq_some_iff.mp hact with ⟨t, hcall, rfl⟩
    have ht := h.actTable (Or.inl ⟨_, _, rfl⟩) hcall
    exact ht.update ht.scheduler ht.timers ht.events ht.pending rfl (by simp) rfl
  | expire =>
    simp only [actIdle, hpc] at hact
    rcases Option.map_eq_some_iff.mp hact with ⟨⟨e, t⟩, hcall, rfl⟩
    rcases actTimers_cases hcall with ⟨timers, htimers, rfl⟩
    -- nothing is armed, so nothing is collected
    have hnone : s.timers.listExpiredCb i.nowTimer i.now = ([], s.timers) := by
      simp [TimerManager.listExpiredCb, h.timers]
    simp only [TimerManager.call, hnone] at htimers
    split at htimers
    · cases htimers
    · cases htimers
      exact h.update h.scheduler h.timers h.events h.pending rfl (by simp) rfl
  | flush cbs =>
    simp only [actIdle, hpc] at hact
    rcases Option.map_eq_some_iff.mp hact with ⟨t, hcall, rfl⟩
    rcases actScheduler_cases hcall with ⟨e, sch, hs, rfl⟩
    have hm := (Scheduler.move_of_act hs).2
    have hnull := h.collected w cbs hpc
    have hentries : Scheduler.entries (-1) (cbs.map .cb) = [] := by
      simp only [Scheduler.entries, List.filter_eq_nil_iff, List.mem_map]
      rintro ft ⟨fc, ⟨cb, hcb, rfl⟩, rfl⟩
      simp [FiberAndThread.of, hnull cb hcb]
    cases hm with
    | scheduleAll hvalid =>
      refine h.update ?_ h.timers h.events h.pending rfl (by simp) rfl
      have hq := h.scheduler
      refine ⟨?_, hq.free, hq.returned, hq.leaving, hq.ended⟩
      show s.scheduler.fibers ++ Scheduler.entries (-1) (cbs.map .cb) = []
      rw [hentries, hq.queue]
      rfl
  | dispatch =>
    simp only [actIdle, hpc] at hact
    rcases Option.map_eq_some_iff.mp hact with ⟨t, hcall, rfl⟩
    have ht := h.actTable (Or.inr ⟨_, _, rfl⟩) hcall
    exact ht.update ht.scheduler ht.timers ht.events ht.pending rfl
      (by intro cbs hcbs; split at hcbs <;> cases hcbs) rfl
  | swapOut =>
    simp only [actIdle, hpc] at hact
    rcases Option.map_eq_some_iff.mp hact with ⟨t, hcall, rfl⟩
    have ht := h.leaveIdle hlocal hcall
    exact ht.update ht.scheduler ht.timers ht.events ht.pending rfl (by simp) rfl

theorem Move.quiet {tid : ω → Int} {s s' : IOManager ω ν F W} {a : IoAction ω ν F W}
    (hm : Move tid s a s') (h : s.Quiet) (hlocal : Scheduler.Local s.scheduler) : s'.Quiet := by
  cases hm with
  | autostop => exact ⟨h.scheduler, h.timers, h.events, h.pending, h.collected, rfl⟩
  | stopping _ => exact ⟨h.scheduler, h.timers, h.events, h.pending, h.collected, h.stopped⟩
  | @client _ t _ _ ht _ _ =>
    -- no client is left
    cases t with
    | inl w => exact absurd (h.scheduler.free w) (by simpa [MayCall] using ht)
    | inr t => exact absurd h.stopped (by simpa [MayCall] using ht)
  | @yield w _ _ hbody _ => exact absurd (h.scheduler.free w) (by simp [hbody])
  | @work w fresh _ hact =>
    rcases actScheduler_cases hact with ⟨e, sch, hs, rfl⟩
    have hsch := (Scheduler.move_of_act hs).2.quiet h.scheduler hlocal (Or.inl ⟨w, fresh, rfl⟩)
    exact ⟨hsch, h.timers, h.events, h.pending, h.collected, h.stopped⟩
  | idle hact => exact h.idle hlocal hact

/-! ## Runs -/

/-- A worker that has ended did so in its idle fiber, and then the manager is quiet. -/
structure Inv [Fintype ω] (s : IOManager ω ν F W) : Prop where
  wellFormed : Scheduler.Local s.scheduler
  count : s.scheduler.activeThreadCount = ∑ w, Scheduler.owed (s.scheduler.worker w)
  counted : s.table.Counted
  finished : ∀ w, (s.scheduler.worker w).Ended → s.idle w = .finished
  quiet : ∀ w, s.idle w = .finished → s.Quiet

theorem Keeps.wellFormed {tid : ω → Int} {s s' : IOManager ω ν F W} (h : Keeps tid s s')
    (hl : Scheduler.Local s.scheduler) : Scheduler.Local s'.scheduler := by
  rcases h.scheduler with ⟨hist, hrun, -⟩
  exact hrun.invariant Scheduler.Local hl fun _ _ _ hl hs => (Scheduler.move_of_act hs).2.local hl

theorem Keeps.count [Fintype ω] {tid : ω → Int} {s s' : IOManager ω ν F W} (h : Keeps tid s s')
    (hl : Scheduler.Local s.scheduler)
    (hcount : s.scheduler.activeThreadCount = ∑ w, Scheduler.owed (s.scheduler.worker w)) :
    s'.scheduler.activeThreadCount = ∑ w, Scheduler.owed (s'.scheduler.worker w) := by
  rcases h.scheduler with ⟨hist, hrun, -⟩
  refine (hrun.invariant (fun s => Scheduler.Local s ∧
    s.activeThreadCount = ∑ w, Scheduler.owed (s.worker w)) ⟨hl, hcount⟩ ?_).2
  rintro s a t ⟨hl, hcount⟩ hs
  have hm := (Scheduler.move_of_act hs).2
  exact ⟨hm.local hl, hm.count hl hcount⟩

theorem Keeps.counted {tid : ω → Int} {s s' : IOManager ω ν F W} (h : Keeps tid s s')
    (hcounted : s.table.Counted) : s'.table.Counted := by
  rcases h.table with ⟨hist, hrun⟩
  exact hrun.invariant EventTable.Counted hcounted fun _ _ _ hc hs =>
    hc.step (EventTable.move_of_act hs).2

omit [DecidableEq ω] [DecidableEq ν] in
theorem inv_new [Fintype ω] (now : UInt64) : (new now : IOManager ω ν F W).Inv where
  wellFormed := ⟨by simp [new], by simp [new]⟩
  count := by simp [new, Scheduler.owed, Pc.owes]
  counted := EventTable.counted_new
  finished := by simp [new, Worker.Ended]
  quiet := by simp [new]

/-- A step that ends no idle fiber keeps the invariant. -/
theorem Inv.keeps [Fintype ω] {tid : ω → Int} {s s' : IOManager ω ν F W}
    {a : IoAction ω ν F W} (h : s.Inv) (hm : Move tid s a s') (hkeeps : Keeps tid s s')
    (hidle : s'.idle = s.idle) : s'.Inv where
  wellFormed := hkeeps.wellFormed h.wellFormed
  count := hkeeps.count h.wellFormed h.count
  counted := hkeeps.counted h.counted
  finished w hw := by
    rw [hidle]
    exact h.finished w (hkeeps.ended hw)
  quiet w hw := by
    rw [hidle] at hw
    exact hm.quiet (h.quiet w hw) h.wellFormed

theorem Inv.step [Fintype ω] {tid : ω → Int} {s s' : IOManager ω ν F W} {a : IoAction ω ν F W}
    (h : s.Inv) (hsettled : s.StopsSettled a) (hs : s.act tid a = some s') : s'.Inv := by
  have hm := move_of_act hs
  cases hm with
  | autostop | stopping _ =>
    exact h.keeps (move_of_act hs) ⟨⟨[], .nil _, by simp⟩, ⟨[], .nil _⟩⟩ rfl
  | client ht hcall _ =>
    exact h.keeps (move_of_act hs) (client_keeps hcall).1 (client_keeps hcall).2
  | yield _ hact | work hact =>
    have hkeeps := actScheduler_keeps hact (by simp)
    exact h.keeps (move_of_act hs) hkeeps.1 hkeeps.2
  | @idle w i _ hact =>
    rcases idle_cases hact with ⟨hover, hleave⟩ | ⟨hnot, hkeeps, pc, hidle, hpc⟩
    · -- the idle fiber ends, and with it sooner or later the worker
      have hquiet := (h.quiet w hover).leaveIdle h.wellFormed hleave
      rcases actScheduler_cases hleave with ⟨e, sch, hsch, rfl⟩
      have hmove := (Scheduler.move_of_act hsch).2
      refine ⟨hmove.local h.wellFormed, hmove.count h.wellFormed h.count, h.counted, ?_,
        fun _ _ => hquiet⟩
      intro v hv
      by_cases heq : v = w
      · subst heq
        exact hover
      · refine h.finished v ?_
        cases hmove with
        | leaveIdle hidle => simpa [Scheduler.setWorker, heq] using hv
    · have hover : ∀ v, s'.idle v = .finished →
          s.idle v = .finished ∨ (s.idle w = .stopQueue ∧ s.schedulerStopping = true ∧
            s' = s.goIdle w .finished) := by
        intro v hv
        rw [hidle] at hv
        by_cases heq : v = w
        · subst heq
          rw [Function.update_self] at hv
          exact Or.inr (hpc hv)
        · rw [Function.update_of_ne heq] at hv
          exact Or.inl hv
      refine ⟨hkeeps.wellFormed h.wellFormed, hkeeps.count h.wellFormed h.count,
        hkeeps.counted h.counted, fun v hv => ?_, fun v hv => ?_⟩
      · have hold := h.finished v (hkeeps.ended hv)
        rw [hidle]
        by_cases heq : v = w
        · subst heq
          exact absurd hold hnot
        · rw [Function.update_of_ne heq]
          exact hold
      · rcases hover v hv with hov | ⟨hq, hstop, rfl⟩
        · exact (move_of_act hs).quiet (h.quiet v hov) h.wellFormed
        · have hquiet := (hsettled hq hstop).quiet hstop h.wellFormed h.count h.counted
          exact hquiet.update hquiet.scheduler hquiet.timers hquiet.events hquiet.pending rfl
            (by simp) rfl

/-- When every `stopping` that comes out true meets a settled manager, then after the last worker has
returned from `run` nothing is queued, armed or registered, and every fiber that was started has
ended. -/
theorem shutdown_complete [Fintype ω] [Nonempty ω] {tid : ω → Int} {now : UInt64}
    {hist : List (IoAction ω ν F W)} {s : IOManager ω ν F W}
    (hrun : Run (Guarded StopsSettled (Step tid)) (new now) hist s)
    (hexited : ∀ w, (s.scheduler.worker w).pc = .exited) :
    s.scheduler.fibers = [] ∧ s.timers.timers = [] ∧ s.table.pendingEventCount = 0 ∧
      ∀ f, ¬ s.scheduler.Suspended f := by
  have hinv := hrun.invariant Inv (inv_new now) fun _ _ _ h hs => h.step hs.1 hs.2
  have hworker := Classical.arbitrary ω
  have hquiet := hinv.quiet hworker (hinv.finished hworker (Or.inr (hexited hworker)))
  exact ⟨hquiet.scheduler.queue, hquiet.timers, hquiet.pending, hquiet.scheduler.ended⟩

/-- One of two workers runs a callback to its end while the other is idle; both find everything empty after
`stop`, and return. -/
theorem shutdown_complete_two : ∃ (hist : List (IoAction Bool Unit Unit Unit))
    (s : IOManager Bool Unit Unit Unit),
    Run (Guarded StopsSettled (Step fun _ => 7)) (new 0) hist s ∧
      (∀ w, (s.scheduler.worker w).pc = .exited) ∧ s.scheduler.fibers = [] := by
  -- all steps but the last reads of `stopping` are free
  let free : IOManager Bool Unit Unit Unit → IoAction Bool Unit Unit Unit → Bool := fun s a =>
    match a with
    | .idle w _ => s.idle w ≠ .stopQueue
    | _ => true
  have hfree : ∀ s a, free s a = true → s.StopsSettled a := by
    intro s a h
    cases a with
    | idle w i => exact fun hq => absurd hq (of_decide_eq_true h)
    | _ => trivial
  have hsettled : ∀ s : IOManager Bool Unit Unit Unit, s.timers.timers = [] →
      s.table.pendingEventCount = 0 → (∀ w, (s.scheduler.worker w).pc = .idle) →
      (∀ w cbs, s.idle w ≠ .flush cbs) → (∀ f, ¬ s.scheduler.Suspended f) → s.Settled := by
    intro s htimers hpending hpc hidle hnone
    refine ⟨htimers, hpending, fun w cbs h => absurd h (hidle w cbs), fun w => ?_, fun w f h => ?_,
      fun f hf => absurd hf (hnone f)⟩
    · rw [hpc w]
      rfl
    · rw [hpc w] at h
      exact h.elim
  have hreads := run_of_runAll_guarded free hfree
    (show runAll (fun s a => if free s a then act (fun _ => 7) s a else none) (new 0)
      [.outside () (.schedule (.cb (some (.fn ()))) (-1)), .work false 0, .work true 1, .work true 1,
        .work true 1, .autostop, .stopping, .work false 0, .work false 0, .work false 0, .yield false .term,
        .work false 0, .work false 0, .work false 0, .work false 0, .idle true {}, .idle true {},
        .work false 0, .work false 0, .work false 0, .idle false {}, .idle false {}] = some _ from rfl)
  have hfirst := hreads.snoc ⟨by
      intro _ _
      exact hsettled _ rfl rfl (fun w => by cases w <;> rfl) (fun w cbs h => by cases w <;> cases h)
        fun f hf => by cases f <;> exact absurd rfl hf.1, show Step _ _ (.idle true {}) _ from rfl⟩
  have hsecond := hfirst.snoc ⟨by
      intro _ _
      exact hsettled _ rfl rfl (fun w => by cases w <;> rfl) (fun w cbs h => by cases w <;> cases h)
        fun f hf => by cases f <;> exact absurd rfl hf.1, show Step _ _ (.idle false {}) _ from rfl⟩
  have hexit := hsecond.append (run_of_runAll_guarded free hfree
    (show runAll (fun s a => if free s a then act (fun _ => 7) s a else none) _
      [.idle true {}, .work true 1, .idle false {}, .work false 0, .work true 1, .work true 1, .work false 0,
        .work false 0] = some _ from rfl))
  refine ⟨_, _, hexit, fun w => ?_, (shutdown_complete hexit fun w => ?_).1⟩
  · cases w <;> rfl
  · cases w <;> rfl

/-- The worker `false` runs a callback that yields `READY`; between the decrement and the enqueue
`true` finds everything empty and ends its idle fiber.  It then takes the fiber, which registers an
event and waits for it while `false` is between its reads. -/
def lostRun : List (IoAction Bool Unit Unit Unit) :=
  [.outside () (.schedule (.cb (some (.fn ()))) (-1)), .autostop, .stopping,
    .work false 0, .work false 0, .work false 0, .work false 0, .yield false .ready,
    .work false 0, .work false 0,
    .work true 1, .work true 1, .work true 1, .idle true {}, .idle true {}, .idle true {},
    .work false 0, .work false 0,
    .idle true {}, .work true 1, .work true 1, .work true 1, .work true 1,
    .work false 1, .work false 1, .work false 1, .idle false {}, .idle false {},
    .body true (.table (.call (.inl true) (.addEvent 5 .read none (some ()) 0))),
    .body true (.table (.lock (.inl true) true)), .yield true .hold,
    .work true 1, .work true 1,
    .idle false {},
    .work true 1, .work true 1, .work true 1, .work true 1, .work true 1,
    .idle false {}, .work false 1, .work false 1, .work false 1]

/-- Both workers have returned, an event is registered, and a fiber waits for it. -/
theorem shutdown_loses_fiber : ∃ (hist : List (IoAction Bool Unit Unit Unit))
    (s : IOManager Bool Unit Unit Unit), Run (Step fun _ => 7) (new 0) hist s ∧
      (∀ w, (s.scheduler.worker w).pc = .exited) ∧ s.table.pendingEventCount = 1 ∧
      s.scheduler.Suspended 0 := by
  have hlast : (runAll (act fun _ => 7) (new 0) lostRun).map (fun s =>
      ((s.scheduler.worker false).pc, (s.scheduler.worker true).pc, s.table.pendingEventCount,
        s.scheduler.stateOf 0)) = some (.exited, .exited, 1, .hold) := by
    decide
  rcases Option.map_eq_some_iff.mp hlast with ⟨s, hs, hvalues⟩
  simp only [Prod.mk.injEq] at hvalues
  rcases hvalues with ⟨hfalse, htrue, hpending, hstate⟩
  refine ⟨_, s, run_of_runAll hs, fun w => ?_, hpending, ?_⟩
  · cases w with
    | false => exact hfalse
    | true => exact htrue
  · simp [Scheduler.Suspended, hstate]

end IOManager

end Azure
