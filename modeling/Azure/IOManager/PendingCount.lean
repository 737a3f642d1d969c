import Azure.IOManager.Events
import Mathlib.Algebra.BigOperators.Group.List.Basic
import Mathlib.Algebra.Ring.Int.Defs
import Mathlib.Algebra.Ring.Nat

/-!
# The event table keeps its books

`m_pendingEventCount` is the number of bits set over all contexts, and a slot is populated exactly
when its bit is set, whatever the threads do.  What can go wrong is an assertion: `idle` triggers
every event in `real_events`, and `triggerEvent` asserts that the event is registered.
-/

namespace Azure

open Reasoning

variable {S C τ : Type}

/-- The slot as its bit has it: all null, or a scheduler with a fiber or with a function. -/
def EventContext.Matches (slot : EventContext S C) (bit : Bool) : Prop :=
  if bit then slot.scheduler.isSome ∧ slot.fiber.isSome = !slot.cb.isSome else slot = {}

def FdContext.Populated (ctx : FdContext S C) : Prop :=
  ∀ event, (ctx.getContext event).Matches (ctx.events.has event)

def FdContext.Covers (ctx : FdContext S C) (ev : EpollEvents) : Prop :=
  ctx.events.inter ev.realEvents ≠ {} → ev.realEvents.diff ctx.events = {}

instance (ctx : FdContext S C) (ev : EpollEvents) : Decidable (ctx.Covers ev) :=
  inferInstanceAs (Decidable (_ → _))

structure Section.Sound (before : FdContext S C) (r : Section S C) : Prop where
  populated : r.ctx.Populated
  count : r.count = r.ctx.events.count - before.events.count

/-! ## The slots of one context -/

@[simp] theorem FdContext.events_setContext (ctx : FdContext S C) (event : IoEvent)
    (slot : EventContext S C) : (ctx.setContext event slot).events = ctx.events := by
  cases event <;> rfl

@[simp] theorem FdContext.getContext_setContext_self (ctx : FdContext S C) (event : IoEvent)
    (slot : EventContext S C) : (ctx.setContext event slot).getContext event = slot := by
  cases event <;> rfl

theorem FdContext.getContext_setContext_of_ne (ctx : FdContext S C) {event other : IoEvent}
    (slot : EventContext S C) (h : other ≠ event) :
    (ctx.setContext event slot).getContext other = ctx.getContext other := by
  cases event <;> cases other <;> first | rfl | exact absurd rfl h

@[simp] theorem Events.has_add_self (es : Events) (event : IoEvent) :
    (es.add event).has event = true := by
  cases event <;> rfl

theorem Events.has_add_of_ne (es : Events) {event other : IoEvent} (h : other ≠ event) :
    (es.add event).has other = es.has other := by
  cases event <;> cases other <;> first | rfl | exact absurd rfl h

@[simp] theorem Events.has_remove_self (es : Events) (event : IoEvent) :
    (es.remove event).has event = false := by
  cases event <;> rfl

theorem Events.has_remove_of_ne (es : Events) {event other : IoEvent} (h : other ≠ event) :
    (es.remove event).has other = es.has other := by
  cases event <;> cases other <;> first | rfl | exact absurd rfl h

theorem Events.count_add {es : Events} {event : IoEvent} (h : es.has event = false) :
    (es.add event).count = es.count + 1 := by
  rcases es with ⟨r, w⟩
  cases event <;> cases r <;> cases w <;> first | rfl | exact absurd h (by decide)

theorem Events.count_remove {es : Events} {event : IoEvent} (h : es.has event = true) :
    (es.remove event).count = es.count - 1 := by
  rcases es with ⟨r, w⟩
  cases event <;> cases r <;> cases w <;> first | rfl | exact absurd h (by decide)

/-- One slot is stored together with its bit; the other stays. -/
theorem FdContext.Populated.set {ctx : FdContext S C} (h : ctx.Populated) {event : IoEvent}
    {es : Events} {slot : EventContext S C} (hslot : slot.Matches (es.has event))
    (hother : ∀ other, other ≠ event → es.has other = ctx.events.has other) :
    ({ ctx with events := es }.setContext event slot).Populated := by
  intro other
  by_cases heq : other = event
  · subst heq
    simpa using hslot
  · rw [getContext_setContext_of_ne _ _ heq, events_setContext, hother other heq]
    have hget : { ctx with events := es }.getContext other = ctx.getContext other := by
      cases other <;> rfl
    rw [hget]
    exact h other

/-! ## Triggering -/

theorem FdContext.triggerEvent_registered {ctx : FdContext S C} (h : ctx.Populated)
    {event : IoEvent} (hev : ctx.events.has event = true) :
    ∃ t, ctx.triggerEvent event = some t ∧ t.2.Populated ∧
      t.2.events = ctx.events.remove event := by
  have hslot := h event
  rw [hev, EventContext.Matches, if_pos rfl] at hslot
  rcases hslot with ⟨hscheduler, hone⟩
  rcases Option.isSome_iff_exists.mp hscheduler with ⟨scheduler, hsome⟩
  have hother : ∀ other, other ≠ event →
      (ctx.events.remove event).has other = ctx.events.has other :=
    fun other hne => Events.has_remove_of_ne _ hne
  unfold triggerEvent
  rw [if_pos hev]
  dsimp only
  rw [hsome]
  dsimp only
  cases hcb : (ctx.getContext event).cb with
  | some cb =>
    refine ⟨_, if_pos rfl, h.set ?_ hother, events_setContext _ _ _⟩
    -- with a function in the slot there was no fiber
    have hfiber : (ctx.getContext event).fiber = none := by simpa [hcb] using hone
    simp [EventContext.Matches, hfiber]
  | none =>
    refine ⟨_, if_neg (by simp), h.set ?_ hother, events_setContext _ _ _⟩
    simp [EventContext.Matches]

theorem FdContext.triggerEvent_unregistered {ctx : FdContext S C} {event : IoEvent}
    (hev : ctx.events.has event = false) : ctx.triggerEvent event = none := by
  simp [triggerEvent, hev]

/-- A trigger under a condition goes through exactly when it is for a registered event. -/
theorem Section.Sound.triggerIf {before : FdContext S C} {r : Section S C} (h : r.Sound before)
    (cond : Bool) (event : IoEvent) :
    ((r.triggerIf cond event).isSome ↔ (cond = true → r.ctx.events.has event = true)) ∧
      ∀ r', r.triggerIf cond event = some r' → r'.Sound before ∧
        r'.ctx.events = if cond then r.ctx.events.remove event else r.ctx.events := by
  cases cond with
  | false =>
    refine ⟨by simp [Section.triggerIf], fun r' hr' => ?_⟩
    cases hr'
    exact ⟨h, rfl⟩
  | true =>
    cases hev : r.ctx.events.has event with
    | false =>
      have hnone := FdContext.triggerEvent_unregistered hev
      simp [Section.triggerIf, hnone]
    | true =>
      rcases FdContext.triggerEvent_registered h.populated hev with ⟨t, ht, hpop, hevents⟩
      refine ⟨by simp [Section.triggerIf, ht], fun r' hr' => ?_⟩
      simp only [Section.triggerIf, if_true, ht, Option.map_some, Option.some.injEq] at hr'
      subst hr'
      refine ⟨⟨hpop, ?_⟩, hevents⟩
      show r.count - 1 = t.2.events.count - before.events.count
      rw [hevents, Events.count_remove hev, h.count]
      omega

theorem Section.sound_same {ctx : FdContext S C} (h : ctx.Populated) (ret : Bool)
    (ctl : Option EpollCtl) : ({ ctx, ret, ctl } : Section S C).Sound ctx :=
  ⟨h, (Int.sub_self _).symm⟩

/-! ## The sections -/

namespace IoCall

theorem addEventLocked_sound {ctx : FdContext S C} (h : ctx.Populated) (fd : Int) {event : IoEvent}
    (cb : Option C) {scheduler : Option S} (fiber : FiberId) (ok : Bool)
    (hfree : ctx.events.has event = false) (hscheduler : ok = true → scheduler.isSome) :
    ∃ r, addEventLocked ctx fd event cb scheduler fiber ok = some r ∧ r.Sound ctx := by
  have hslot := h event
  rw [hfree, EventContext.Matches, if_neg (by decide)] at hslot
  have hget : ({ ctx with events := ctx.events.add event } : FdContext S C).getContext event = {} := by
    rw [← hslot]
    cases event <;> rfl
  let ctl : EpollCtl :=
    { op := if ctx.events = {} then .add else .mod, fd, events := ctx.events.add event }
  cases ok with
  | false =>
    refine ⟨{ ctx, ret := false, ctl := some ctl }, ?_, Section.sound_same h _ _⟩
    simp [addEventLocked, hfree, ctl]
  | true =>
    let slot : EventContext S C :=
      if cb.isSome then { scheduler, cb } else { scheduler, fiber := fiber }
    refine ⟨{ ctx := { ctx with events := ctx.events.add event }.setContext event slot
              ctl := some ctl, count := 1 }, ?_, h.set ?_ ?_, ?_⟩
    · have hnull : scheduler ≠ none := Option.isSome_iff_ne_none.mp (hscheduler rfl)
      simp [addEventLocked, hfree, hget, hnull, ctl, slot]
    · rw [Events.has_add_self, EventContext.Matches, if_pos rfl]
      cases cb <;> simp [slot, hscheduler]
    · intro other hne
      exact Events.has_add_of_ne _ hne
    · rw [FdContext.events_setContext]
      show (1 : Int) = (ctx.events.add event).count - ctx.events.count
      rw [Events.count_add hfree]
      omega

theorem delEventLocked_sound {ctx : FdContext S C} (h : ctx.Populated) (fd : Int) (event : IoEvent)
    (ok : Bool) : ∃ r, delEventLocked ctx fd event ok = some r ∧ r.Sound ctx := by
  cases hev : ctx.events.has event with
  | false =>
    exact ⟨{ ctx, ret := false }, by simp [delEventLocked, hev], Section.sound_same h _ _⟩
  | true =>
    let ctl := some (ctlWithout ctx fd event)
    cases ok with
    | false =>
      exact ⟨{ ctx, ret := false, ctl }, by simp [delEventLocked, hev, ctl],
        Section.sound_same h _ _⟩
    | true =>
      refine ⟨{ ctx := { ctx with events := ctx.events.remove event }.resetContext event
                ctl, count := -1 }, by simp [delEventLocked, hev, ctl], h.set ?_ ?_, ?_⟩
      · simp [EventContext.Matches]
      · intro other hne
        exact Events.has_remove_of_ne _ hne
      · rw [FdContext.resetContext, FdContext.events_setContext]
        show (-1 : Int) = (ctx.events.remove event).count - ctx.events.count
        rw [Events.count_remove hev]
        omega

theorem cancelEventLocked_sound {ctx : FdContext S C} (h : ctx.Populated) (fd : Int)
    (event : IoEvent) (ok : Bool) :
    ∃ r, cancelEventLocked ctx fd event ok = some r ∧ r.Sound ctx := by
  cases hev : ctx.events.has event with
  | false =>
    exact ⟨{ ctx, ret := false }, by simp [cancelEventLocked, hev], Section.sound_same h _ _⟩
  | true =>
    let ctl := some (ctlWithout ctx fd event)
    cases ok with
    | false =>
      exact ⟨{ ctx, ret := false, ctl }, by simp [cancelEventLocked, hev, ctl],
        Section.sound_same h _ _⟩
    | true =>
      rcases (Section.sound_same h true ctl).triggerIf true event with ⟨hsome, hsound⟩
      rcases Option.isSome_iff_exists.mp (hsome.mpr fun _ => hev) with ⟨r, hr⟩
      refine ⟨r, ?_, (hsound r hr).1⟩
      simpa [cancelEventLocked, hev] using hr

theorem cancelAllLocked_sound {ctx : FdContext S C} (h : ctx.Populated) (fd : Int) (ok : Bool) :
    ∃ r, cancelAllLocked ctx fd ok = some r ∧ r.Sound ctx := by
  by_cases hempty : ctx.events = {}
  · exact ⟨{ ctx, ret := false }, by simp [cancelAllLocked, hempty], Section.sound_same h _ _⟩
  let ctl : Option EpollCtl := some { op := .del, fd, events := {} }
  cases ok with
  | false =>
    exact ⟨{ ctx, ret := false, ctl }, by simp [cancelAllLocked, hempty, ctl],
      Section.sound_same h _ _⟩
  | true =>
    rcases (Section.sound_same h true ctl).triggerIf ctx.events.read .read with ⟨hsome₁, hsound₁⟩
    rcases Option.isSome_iff_exists.mp (hsome₁.mpr id) with ⟨r₁, hr₁⟩
    rcases hsound₁ r₁ hr₁ with ⟨hr₁sound, hevents₁⟩
    rcases hr₁sound.triggerIf r₁.ctx.events.write .write with ⟨hsome₂, hsound₂⟩
    rcases Option.isSome_iff_exists.mp (hsome₂.mpr id) with ⟨r₂, hr₂⟩
    rcases hsound₂ r₂ hr₂ with ⟨hr₂sound, hevents₂⟩
    -- both bits are gone, so the last assertion holds
    have hnone : r₂.ctx.events = {} := by
      rw [hevents₂, hevents₁]
      rcases ctx.events with ⟨r, w⟩
      cases r <;> cases w <;> rfl
    refine ⟨r₂, ?_, hr₂sound⟩
    simp [cancelAllLocked, hempty, hr₁, hr₂, hnone, ctl]

/-- What `addEvent` asks for: a slot that is free, and a thread with a scheduler. -/
def Accepts (call : IoCall S C) (ctx : FdContext S C) : Prop :=
  match call with
  | .addEvent _ event _ scheduler _ => ctx.events.has event = false ∧ scheduler.isSome
  | _ => True

theorem locked_isSome {ctx : FdContext S C} (h : ctx.Populated) {call : IoCall S C} (ok : Bool)
    (haccepts : call.Accepts ctx) : (call.locked ctx ok).isSome := by
  cases call with
  | addEvent fd event cb scheduler fiber =>
    rcases addEventLocked_sound h fd cb fiber ok haccepts.1 (fun _ => haccepts.2) with ⟨r, hr, -⟩
    exact Option.isSome_of_eq_some hr
  | delEvent fd event =>
    rcases delEventLocked_sound h fd event ok with ⟨r, hr, -⟩
    exact Option.isSome_of_eq_some hr
  | cancelEvent fd event =>
    rcases cancelEventLocked_sound h fd event ok with ⟨r, hr, -⟩
    exact Option.isSome_of_eq_some hr
  | cancelAll fd =>
    rcases cancelAllLocked_sound h fd ok with ⟨r, hr, -⟩
    exact Option.isSome_of_eq_some hr

/-- Whatever is asked, a section that ends is sound. -/
theorem locked_sound {ctx : FdContext S C} (h : ctx.Populated) {call : IoCall S C} {ok : Bool}
    {r : Section S C} (hr : call.locked ctx ok = some r) : r.Sound ctx := by
  cases call with
  | addEvent fd event cb scheduler fiber =>
    have hends : addEventLocked ctx fd event cb scheduler fiber ok = some r := hr
    have hfree : ctx.events.has event = false := by
      by_contra hset
      simp [addEventLocked, hset] at hends
    have hscheduler : ok = true → scheduler.isSome := by
      rintro rfl
      by_contra hnull
      simp [addEventLocked, hfree, Option.not_isSome_iff_eq_none.mp hnull] at hends
    rcases addEventLocked_sound h fd cb fiber ok hfree hscheduler with ⟨r', hr', hsound⟩
    rw [hends] at hr'
    cases hr'
    exact hsound
  | delEvent fd event =>
    rcases delEventLocked_sound h fd event ok with ⟨r', hr', hsound⟩
    cases hr'.symm.trans hr
    exact hsound
  | cancelEvent fd event =>
    rcases cancelEventLocked_sound h fd event ok with ⟨r', hr', hsound⟩
    cases hr'.symm.trans hr
    exact hsound
  | cancelAll fd =>
    rcases cancelAllLocked_sound h fd ok with ⟨r', hr', hsound⟩
    cases hr'.symm.trans hr
    exact hsound

end IoCall

theorem FdContext.dispatch_sound {ctx : FdContext S C} (h : ctx.Populated) (ev : EpollEvents)
    (ok : Bool) :
    ((ctx.dispatch ev ok).isSome ↔ (ok = true → ctx.Covers ev)) ∧
      ∀ r, ctx.dispatch ev ok = some r → r.Sound ctx := by
  by_cases hmeet : ctx.events.inter ev.realEvents = {}
  · refine ⟨by simp [dispatch, hmeet, Covers], fun r hr => ?_⟩
    simp only [dispatch, hmeet, if_true, Option.some.injEq] at hr
    subst hr
    exact Section.sound_same h _ _
  cases ok with
  | false =>
    refine ⟨by simp [dispatch, hmeet], fun r hr => ?_⟩
    simp only [dispatch, hmeet, if_false, Bool.not_false, if_true, Option.some.injEq] at hr
    subst hr
    exact Section.sound_same h _ _
  | true =>
    let ctl : EpollCtl := {
      op := if ctx.events.diff ev.realEvents = {} then .del else .mod
      fd := ctx.fd
      events := ctx.events.diff ev.realEvents }
    have hdispatch : ctx.dispatch ev true =
        (Section.triggerIf { ctx, ctl := some ctl } ev.realEvents.read .read).bind fun r =>
          r.triggerIf ev.realEvents.write .write := by
      simp [dispatch, hmeet, ctl]
    rw [hdispatch]
    rcases (Section.sound_same h true (some ctl)).triggerIf ev.realEvents.read .read with
      ⟨hsome₁, hsound₁⟩
    have hcovers : ctx.Covers ev ↔ (ev.realEvents.read = true → ctx.events.read = true) ∧
        (ev.realEvents.write = true → ctx.events.write = true) := by
      simp only [Covers, Events.diff, Events.mk.injEq]
      cases ev.realEvents.read <;> cases ev.realEvents.write <;> simp [hmeet]
    cases hr₁ : Section.triggerIf { ctx, ctl := some ctl } ev.realEvents.read .read with
    | none =>
      rw [hr₁] at hsome₁
      refine ⟨?_, by simp⟩
      -- the read event is triggered without being registered
      simp only [Option.bind_none, Option.isSome_none, Bool.false_eq_true, false_iff] at hsome₁ ⊢
      intro hcov
      exact hsome₁ (hcovers.mp (hcov trivial)).1
    | some r₁ =>
      rw [hr₁] at hsome₁
      rcases hsound₁ r₁ hr₁ with ⟨hr₁sound, hevents₁⟩
      rcases hr₁sound.triggerIf ev.realEvents.write .write with ⟨hsome₂, hsound₂⟩
      have hwrite : r₁.ctx.events.has .write = ctx.events.write := by
        rw [hevents₁]
        cases ev.realEvents.read <;> rfl
      refine ⟨?_, fun r hr => (hsound₂ r hr).1⟩
      rw [Option.bind_some, hsome₂, hwrite, hcovers]
      have hread : ev.realEvents.read = true → ctx.events.read = true := hsome₁.mp rfl
      exact ⟨fun hw _ => ⟨hread, hw⟩, fun hcov => (hcov rfl).2⟩

namespace EventTable

variable [DecidableEq τ]

/-! ## One step -/

inductive Move (s : EventTable S C τ) :
    TableOp S C τ → TableEffect S C → EventTable S C τ → Prop
  | find {t : τ} {call : IoCall S C} {a : CtxAddr} (hcaller : s.caller t = .out)
      (hctx : s.fdContext call.fd = some a) :
      Move s (.call t call) {} (s.setCaller t (.lock call a))
  | grow {t : τ} {call : IoCall S C} (hcaller : s.caller t = .out) :
      Move s (.call t call) {} (s.setCaller t (.resize call))
  | refuse {t : τ} {call : IoCall S C} (hcaller : s.caller t = .out)
      (hfd : s.fdContexts.length ≤ call.fd) : Move s (.call t call) { ret := some false } s
  | resize {t : τ} {call : IoCall S C} {a : CtxAddr} (hcaller : s.caller t = .resize call)
      (hctx : (s.contextResize (call.fd * 3 / 2).toNat).fdContext call.fd = some a) :
      Move s (.resize t) {}
        ((s.contextResize (call.fd * 3 / 2).toNat).setCaller t (.lock call a))
  | lock {t : τ} {call : IoCall S C} {a : CtxAddr} {ctx : FdContext S C} {ok : Bool}
      (hcaller : s.caller t = .lock call a) (hctx : s.contexts[a]? = some ctx) :
      Move s (.lock t ok) (s.leave t a .out (fun r => some r.ret) (call.locked ctx ok)).1
        (s.leave t a .out (fun r => some r.ret) (call.locked ctx ok)).2
  | epollWait {t : τ} {reports : List (CtxAddr × EpollEvents)} (hcaller : s.caller t = .out) :
      Move s (.epollWait t reports) {} (s.setCaller t (.dispatch reports))
  | dispatched {t : τ} {ok : Bool} (hcaller : s.caller t = .dispatch []) :
      Move s (.dispatch t ok) {} (s.setCaller t .out)
  | dispatch {t : τ} {a : CtxAddr} {ev : EpollEvents} {rest : List (CtxAddr × EpollEvents)}
      {ctx : FdContext S C} {ok : Bool} (hcaller : s.caller t = .dispatch ((a, ev) :: rest))
      (hctx : s.contexts[a]? = some ctx) :
      Move s (.dispatch t ok) (s.leave t a (.dispatch rest) (fun _ => none) (ctx.dispatch ev ok)).1
        (s.leave t a (.dispatch rest) (fun _ => none) (ctx.dispatch ev ok)).2

theorem move_of_find {s s' : EventTable S C τ} {t : τ} {call : IoCall S C} {e : TableEffect S C}
    (hcaller : s.caller t = .out) (h : s.find t call = some (e, s')) :
    Move s (.call t call) e s' := by
  unfold find at h
  split at h
  · rcases Option.map_eq_some_iff.mp h with ⟨a, ha, heq⟩
    cases heq
    exact .find hcaller ha
  · next hfd =>
    cases call with
    | addEvent fd event cb scheduler fiber => cases h; exact .grow hcaller
    | delEvent fd event => cases h; exact .refuse hcaller (Int.not_lt.mp hfd)
    | cancelEvent fd event => cases h; exact .refuse hcaller (Int.not_lt.mp hfd)
    | cancelAll fd => cases h; exact .refuse hcaller (Int.not_lt.mp hfd)

theorem move_of_act {s s' : EventTable S C τ} {op : TableOp S C τ} {e : TableEffect S C}
    (h : s.act op = some (e, s')) : s.aborted = false ∧ Move s op e s' := by
  unfold act at h
  split at h
  · cases h
  next habort =>
  refine ⟨by simpa using habort, ?_⟩
  cases op with
  | call t call =>
    dsimp only at h
    split at h
    · next hcaller => exact move_of_find hcaller h
    · cases h
  | resize t =>
    dsimp only at h
    split at h
    · next call hcaller =>
      rcases Option.map_eq_some_iff.mp h with ⟨a, ha, heq⟩
      cases heq
      exact .resize hcaller ha
    · cases h
  | lock t ok =>
    dsimp only at h
    split at h
    · next call a hcaller =>
      rcases Option.map_eq_some_iff.mp h with ⟨ctx, hctx, heq⟩
      rcases Prod.mk.inj heq.symm with ⟨rfl, rfl⟩
      exact .lock hcaller hctx
    · cases h
  | epollWait t reports =>
    dsimp only at h
    split at h
    · next hcaller => cases h; exact .epollWait hcaller
    · cases h
  | dispatch t ok =>
    dsimp only at h
    split at h
    · next hcaller => cases h; exact .dispatched hcaller
    · next a ev rest hcaller =>
      rcases Option.map_eq_some_iff.mp h with ⟨ctx, hctx, heq⟩
      rcases Prod.mk.inj heq.symm with ⟨rfl, rfl⟩
      exact .dispatch hcaller hctx
    · cases h

/-! ## What is asked of a step -/

/-- The callers keep to their side: a thread that calls `addEvent` has a scheduler, the event is
not registered when it is added, and the kernel reports descriptors with registered events. -/
def Admissible (s : EventTable S C τ) : TableOp S C τ → Prop
  | .call _ (.addEvent _ _ _ scheduler _) => scheduler.isSome
  | .lock t _ =>
    match s.caller t with
    | .lock (.addEvent _ event ..) a => ∀ ctx ∈ s.contexts[a]?, ctx.events.has event = false
    | _ => True
  | .epollWait _ reports => ∀ r ∈ reports, ∃ ctx ∈ s.contexts[r.1]?, ctx.events ≠ {}
  | _ => True

instance [DecidableEq S] [DecidableEq C] (s : EventTable S C τ) (op : TableOp S C τ) :
    Decidable (s.Admissible op) := by
  unfold Admissible
  split
  · infer_instance
  · split <;> infer_instance
  · infer_instance
  · infer_instance

/-- A report that is dispatched with success wakes no event beyond the registered ones. -/
def Covered (s : EventTable S C τ) : TableOp S C τ → Prop
  | .dispatch t ok =>
    match s.caller t with
    | .dispatch ((a, ev) :: _) => ∀ ctx ∈ s.contexts[a]?, ok = true → ctx.Covers ev
    | _ => True
  | _ => True

/-! ## The invariant -/

structure Counted (s : EventTable S C τ) : Prop where
  populated : ∀ ctx ∈ s.contexts, ctx.Populated
  count : s.pendingEventCount = (s.contexts.map fun ctx => ctx.events.count).sum

omit [DecidableEq τ] in
theorem populated_empty (fd : Nat) : ({ fd } : FdContext S C).Populated := by
  intro event
  cases event <;> rfl

omit [DecidableEq τ] in
theorem Counted.contextResize {s : EventTable S C τ} (h : s.Counted) (size : Nat) :
    (s.contextResize size).Counted where
  populated ctx hctx := by
    rcases List.mem_append.mp hctx with hold | hnew
    · exact h.populated ctx hold
    · rcases List.mem_map.mp hnew with ⟨fd, -, rfl⟩
      exact populated_empty fd
  count := by
    have hzero : ∀ fds : List Nat,
        ((fds.map fun i => ({ fd := i } : FdContext S C)).map fun ctx => ctx.events.count).sum =
          0 := by
      intro fds
      induction fds with
      | nil => rfl
      | cons fd fds ih => simpa [Events.count] using ih
    show s.pendingEventCount = _
    rw [EventTable.contextResize, List.map_append, List.sum_append, hzero, add_zero]
    exact h.count

omit [DecidableEq τ] in
theorem counted_new : (new : EventTable S C τ).Counted :=
  Counted.contextResize ⟨by simp, rfl⟩ 32

/-- Leaving a sound section keeps the books. -/
theorem Counted.leave {s : EventTable S C τ} (h : s.Counted) (t : τ) {a : CtxAddr}
    {ctx : FdContext S C} (next : Caller S C) (ret : Section S C → Option Bool)
    {r : Option (Section S C)} (hctx : s.contexts[a]? = some ctx)
    (hr : ∀ r', r = some r' → r'.Sound ctx) : (s.leave t a next ret r).2.Counted := by
  cases r with
  | none => exact ⟨h.populated, h.count⟩
  | some r =>
    have hsound := hr r rfl
    refine ⟨fun ctx' hmem => ?_, ?_⟩
    · rcases List.mem_or_eq_of_mem_set hmem with hold | rfl
      · exact h.populated ctx' hold
      · exact hsound.populated
    · rcases List.getElem?_eq_some_iff.mp hctx with ⟨hlt, hget⟩
      show s.pendingEventCount + r.count = ((s.contexts.set a r.ctx).map _).sum
      rw [List.map_set, List.sum_set', dif_pos (by rw [List.length_map]; exact hlt),
        List.getElem_map, hget, h.count, hsound.count]
      omega

theorem Counted.step {s s' : EventTable S C τ} {op : TableOp S C τ} {e : TableEffect S C}
    (h : s.Counted) (hm : Move s op e s') : s'.Counted := by
  cases hm with
  | find _ _ | grow _ | epollWait _ | dispatched _ => exact ⟨h.populated, h.count⟩
  | refuse _ _ => exact h
  | resize _ _ => exact ⟨(h.contextResize _).populated, (h.contextResize _).count⟩
  | @lock t call a ctx ok hcaller hctx =>
    exact h.leave t _ _ hctx fun r' => IoCall.locked_sound (h.populated ctx
      (List.mem_of_getElem? hctx))
  | @dispatch t a ev rest ctx ok hcaller hctx =>
    exact h.leave t _ _ hctx (FdContext.dispatch_sound (h.populated ctx
      (List.mem_of_getElem? hctx)) ev ok).2

def Scheduled (s : EventTable S C τ) : Prop :=
  ∀ t fd event cb scheduler fiber,
    (s.caller t = .resize (.addEvent fd event cb scheduler fiber) ∨
      ∃ a, s.caller t = .lock (.addEvent fd event cb scheduler fiber) a) → scheduler.isSome

/-- A thread moves on to something other than `addEvent`, or to an `addEvent` with a scheduler. -/
theorem Scheduled.update {s s' : EventTable S C τ} (h : s.Scheduled) {t : τ} {c : Caller S C}
    (hcaller : s'.caller = Function.update s.caller t c)
    (hc : ∀ fd event cb scheduler fiber,
      (c = .resize (.addEvent fd event cb scheduler fiber) ∨
        ∃ a, c = .lock (.addEvent fd event cb scheduler fiber) a) → scheduler.isSome) :
    s'.Scheduled := by
  intro v fd event cb scheduler fiber hv
  rw [hcaller] at hv
  by_cases heq : v = t
  · subst heq
    rw [Function.update_self] at hv
    exact hc fd event cb scheduler fiber hv
  · rw [Function.update_of_ne heq] at hv
    exact h v fd event cb scheduler fiber hv

theorem Scheduled.leave {s : EventTable S C τ} (h : s.Scheduled) (t : τ) (a : CtxAddr)
    {next : Caller S C} (ret : Section S C → Option Bool) (r : Option (Section S C))
    (hnext : next = .out ∨ ∃ reports, next = .dispatch reports) :
    (s.leave t a next ret r).2.Scheduled := by
  cases r with
  | none => exact h
  | some r =>
    refine h.update rfl ?_
    rcases hnext with rfl | ⟨reports, rfl⟩ <;> simp

theorem Scheduled.step {s s' : EventTable S C τ} {op : TableOp S C τ} {e : TableEffect S C}
    (h : s.Scheduled) (hadm : s.Admissible op) (hm : Move s op e s') : s'.Scheduled := by
  cases hm with
  | @find t call a hcaller hctx =>
    refine h.update rfl ?_
    rintro fd event cb scheduler fiber (hc | ⟨a, hc⟩)
    · cases hc
    · cases hc
      exact hadm
  | @grow t call hcaller =>
    refine h.update rfl ?_
    rintro fd event cb scheduler fiber (hc | ⟨a, hc⟩)
    · cases hc
      exact hadm
    · cases hc
  | refuse hcaller hfd => exact h
  | @resize t call a hcaller hctx =>
    refine h.update rfl ?_
    rintro fd event cb scheduler fiber (hc | ⟨a, hc⟩)
    · cases hc
    · cases hc
      exact h t fd event cb scheduler fiber (Or.inl hcaller)
  | @lock t call a ctx ok hcaller hctx => exact h.leave t a _ _ (Or.inl rfl)
  | epollWait _ => exact h.update rfl (by simp)
  | dispatched _ => exact h.update rfl (by simp)
  | @dispatch t a ev rest ctx ok hcaller hctx => exact h.leave t a _ _ (Or.inr ⟨rest, rfl⟩)

theorem leave_aborted (s : EventTable S C τ) (t : τ) (a : CtxAddr) (next : Caller S C)
    (ret : Section S C → Option Bool) {r : Option (Section S C)} (hab : s.aborted = false) :
    (s.leave t a next ret r).2.aborted = false ↔ r.isSome := by
  cases r <;> simp [EventTable.leave, setCaller, hab]

/-- An assertion fails in a step exactly when the report it dispatches is not covered. -/
theorem Move.aborted_iff {s s' : EventTable S C τ} {op : TableOp S C τ} {e : TableEffect S C}
    (hm : Move s op e s') (hcount : s.Counted) (hsched : s.Scheduled) (hadm : s.Admissible op)
    (hab : s.aborted = false) : s'.aborted = false ↔ s.Covered op := by
  cases hm with
  | find _ _ | grow _ | refuse _ _ | epollWait _ =>
    simp [Covered, setCaller, hab]
  | resize _ _ => simp [Covered, setCaller, contextResize, hab]
  | dispatched hcaller => simp [Covered, setCaller, hab, hcaller]
  | @lock t call a ctx ok hcaller hctx =>
    have haccepts : call.Accepts ctx := by
      cases call with
      | addEvent fd event cb scheduler fiber =>
        refine ⟨?_, hsched t fd event cb scheduler fiber (Or.inr ⟨a, hcaller⟩)⟩
        simp only [Admissible, hcaller] at hadm
        exact hadm ctx hctx
      | _ => trivial
    rw [leave_aborted s t a .out _ hab]
    have hends := IoCall.locked_isSome (hcount.populated ctx (List.mem_of_getElem? hctx)) ok haccepts
    simp [hends, Covered]
  | @dispatch t a ev rest ctx ok hcaller hctx =>
    rw [leave_aborted s t a _ _ hab,
      (FdContext.dispatch_sound (hcount.populated ctx (List.mem_of_getElem? hctx)) ev ok).1]
    simp [Covered, hcaller, hctx]

/-! ## Runs -/

abbrev AdmissibleStep : EventTable S C τ → Event S C τ → EventTable S C τ → Prop :=
  Guarded (fun s e => s.Admissible e.1) Step

/-- In every run the pending count is the number of bits set over all contexts and a slot is
populated exactly when its bit is set; and no assertion fails in the run if and only if every report
that is dispatched is covered by the registered events. -/
theorem events_counted {hist : List (Event S C τ)} {s : EventTable S C τ}
    (hrun : Run AdmissibleStep new hist s) :
    s.pendingEventCount = (s.contexts.map fun ctx => ctx.events.count).sum ∧
      (∀ ctx ∈ s.contexts, ctx.Populated) ∧
      (s.aborted = false ↔ Run (Guarded (fun s e => s.Covered e.1) AdmissibleStep) new hist s) := by
  have hbooks : ∀ {hist : List (Event S C τ)} {s : EventTable S C τ},
      Run AdmissibleStep new hist s → s.Counted ∧ s.Scheduled := by
    intro hist s hrun
    refine hrun.invariant (fun s => s.Counted ∧ s.Scheduled) ⟨counted_new, by simp [Scheduled, new,
      contextResize]⟩ ?_
    rintro s e s' ⟨hcount, hsched⟩ ⟨hadm, hs⟩
    have hm := (move_of_act hs).2
    exact ⟨hcount.step hm, hsched.step hadm hm⟩
  refine ⟨(hbooks hrun).1.count, (hbooks hrun).1.populated, fun hab => ?_, fun hcovered => ?_⟩
  · -- nothing follows a failed assertion, so each step of the run has left the flag unset
    induction hrun with
    | nil => exact .nil _
    | snoc hrun hs ih =>
      rcases move_of_act hs.2 with ⟨hab', hm⟩
      have hcov := (hm.aborted_iff (hbooks hrun).1 (hbooks hrun).2 hs.1 hab').mp hab
      exact .snoc (ih hab') ⟨hcov, hs⟩
  · cases hcovered with
    | nil => rfl
    | snoc hbefore hs =>
      rcases move_of_act hs.2.2 with ⟨hab', hm⟩
      have hstart := hbooks hbefore.unguarded
      exact (hm.aborted_iff hstart.1 hstart.2 hs.2.1 hab').mpr hs.1

/-- An event is registered, reported and dispatched. -/
theorem events_counted_one : ∃ (hist : List (Event Unit Unit Bool)) (s : EventTable Unit Unit Bool),
    Run AdmissibleStep new hist s ∧ s.pendingEventCount = 0 ∧ s.aborted = false ∧
      s.pendingEventCount = (s.contexts.map fun ctx => ctx.events.count).sum := by
  have hnew : Run AdmissibleStep (new : EventTable Unit Unit Bool) [] new := .nil _
  have hcall := hnew.snoc
    ⟨by decide, show Step _ (.call true (.addEvent 5 .read none (some ()) 9), _) _ from rfl⟩
  have hadd := hcall.snoc ⟨by decide, show Step _ (.lock true true, _) _ from rfl⟩
  have hwait := hadd.snoc ⟨by decide, show Step _ (.epollWait false [(5, { epollin := true })], _) _ from rfl⟩
  have hdispatch := hwait.snoc ⟨by decide, show Step _ (.dispatch false true, _) _ from rfl⟩
  exact ⟨_, _, hdispatch, rfl, rfl, (events_counted hdispatch).1⟩

/-- Only `READ` is registered when the peer hangs up: the report wakes both directions, and the
assertion of `triggerEvent(WRITE)` fails. -/
theorem hangup_aborts : ∃ (hist : List (Event Unit Unit Bool)) (s : EventTable Unit Unit Bool),
    Run AdmissibleStep new hist s ∧ s.aborted = true := by
  have hnew : Run AdmissibleStep (new : EventTable Unit Unit Bool) [] new := .nil _
  have hcall := hnew.snoc
    ⟨by decide, show Step _ (.call true (.addEvent 5 .read none (some ()) 9), _) _ from rfl⟩
  have hadd := hcall.snoc ⟨by decide, show Step _ (.lock true true, _) _ from rfl⟩
  have hwait := hadd.snoc ⟨by decide, show Step _ (.epollWait false [(5, { epollhup := true })], _) _ from rfl⟩
  have hdispatch := hwait.snoc ⟨by decide, show Step _ (.dispatch false true, _) _ from rfl⟩
  exact ⟨_, _, hdispatch, rfl⟩

end EventTable

end Azure
