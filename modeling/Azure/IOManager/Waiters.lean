import Azure.IOManager.PendingCount
import Azure.Reasoning.WaitSlots

/-!
# Fibers in the event table

A slot of the table is a context with one of the two events, and holds the fiber that is registered
there.  A section under the mutex of a context either registers one fiber in a free slot, or takes
some fibers out of their slots and hands exactly these to their schedulers.
-/

namespace Azure

open Reasoning

variable {S C τ : Type}

def FdContext.waiter (ctx : FdContext S C) (event : IoEvent) : Option FiberId :=
  if ctx.events.has event then (ctx.getContext event).fiber else none

def FdContext.NoCb (ctx : FdContext S C) : Prop := ∀ event, (ctx.getContext event).cb = none

structure Section.Wakes (before : FdContext S C) (r : Section S C) : Prop where
  noCb : r.ctx.NoCb
  less : ∀ {event g}, r.ctx.waiter event = some g → before.waiter event = some g
  scheduled : ∀ g, (∃ p ∈ r.scheduled, p.2 = .fiber (some g)) ↔
    ∃ event, before.waiter event = some g ∧ r.ctx.waiter event ≠ some g

theorem Section.wakes_same {ctx : FdContext S C} (h : ctx.NoCb) (ret : Bool)
    (ctl : Option EpollCtl) : ({ ctx, ret, ctl } : Section S C).Wakes ctx where
  noCb := h
  less := id
  scheduled := fun g => by
    constructor
    · rintro ⟨p, hp, -⟩
      cases hp
    · rintro ⟨event, hg, hne⟩
      exact absurd hg hne

theorem FdContext.waiter_setContext_of_ne (ctx : FdContext S C) {event other : IoEvent}
    (es : Events) (slot : EventContext S C) (hne : other ≠ event)
    (hes : es.has other = ctx.events.has other) :
    ({ ctx with events := es }.setContext event slot).waiter other = ctx.waiter other := by
  unfold waiter
  rw [events_setContext, getContext_setContext_of_ne _ _ hne, hes]
  cases other <;> rfl

theorem FdContext.triggerEvent_wakes {ctx ctx' : FdContext S C} (h : ctx.NoCb) {event : IoEvent}
    {p : S × FiberOrCb C} (ht : ctx.triggerEvent event = some (p, ctx')) :
    p.2 = .fiber (ctx.waiter event) ∧ ctx'.NoCb ∧ ctx'.waiter event = none ∧
      ∀ other, other ≠ event → ctx'.waiter other = ctx.waiter other := by
  unfold triggerEvent at ht
  split at ht
  · next hev =>
    dsimp only at ht
    split at ht
    · cases ht
    · next scheduler hscheduler =>
      have hcb : (({ ctx with events := ctx.events.remove event } : FdContext S C).getContext
          event).cb = none := by
        have := h event
        cases event <;> exact this
      rw [if_neg (by rw [h event]; simp)] at ht
      cases ht
      refine ⟨?_, fun other => ?_, ?_, fun other hne => ?_⟩
      · simp [waiter, hev]
      · by_cases heq : other = event
        · subst heq
          rw [getContext_setContext_self]
          exact h other
        · rw [getContext_setContext_of_ne _ _ heq]
          have := h other
          cases other <;> exact this
      · simp [waiter]
      · exact waiter_setContext_of_ne ctx _ _ hne (Events.has_remove_of_ne _ hne)
  · cases ht

theorem Section.Wakes.triggerIf {before : FdContext S C} {r r' : Section S C} (h : r.Wakes before)
    {cond : Bool} {event : IoEvent} (hr : r.triggerIf cond event = some r') : r'.Wakes before := by
  cases cond with
  | false =>
    cases hr
    exact h
  | true =>
    simp only [Section.triggerIf, if_true] at hr
    rcases Option.map_eq_some_iff.mp hr with ⟨⟨p, ctx'⟩, ht, rfl⟩
    obtain ⟨hp, hcb, hgone, hother⟩ := FdContext.triggerEvent_wakes h.noCb ht
    have hless : ∀ {e g}, ctx'.waiter e = some g → r.ctx.waiter e = some g := by
      intro e g he
      by_cases heq : e = event
      · rw [heq, hgone] at he
        cases he
      · rw [← hother e heq]
        exact he
    refine ⟨hcb, fun he => h.less (hless he), fun g => ?_⟩
    constructor
    · rintro ⟨q, hq, hg⟩
      rcases List.mem_append.mp hq with hold | hnew
      · obtain ⟨e, he, hne⟩ := (h.scheduled g).mp ⟨q, hold, hg⟩
        exact ⟨e, he, fun he' => hne (hless he')⟩
      · rw [List.mem_singleton.mp hnew, hp] at hg
        refine ⟨event, h.less (FiberOrCb.fiber.inj hg), ?_⟩
        show ctx'.waiter event ≠ some g
        rw [hgone]
        simp
    · rintro ⟨e, he, hne⟩
      by_cases hold : r.ctx.waiter e = some g
      · -- this trigger has taken it out
        have heq : e = event := by
          by_contra hne'
          exact hne ((hother e hne').trans hold)
        subst heq
        exact ⟨p, List.mem_append_right _ (List.mem_singleton_self p), by rw [hp, hold]⟩
      · obtain ⟨q, hq, hg⟩ := (h.scheduled g).mpr ⟨e, he, hold⟩
        exact ⟨q, List.mem_append_left _ hq, hg⟩

namespace IoCall

theorem cancelEventLocked_wakes {ctx : FdContext S C} (h : ctx.NoCb) {fd : Int} {event : IoEvent}
    {ok : Bool} {r : Section S C} (hr : cancelEventLocked ctx fd event ok = some r) :
    r.Wakes ctx := by
  unfold cancelEventLocked at hr
  split at hr
  · cases hr
    exact Section.wakes_same h _ _
  · dsimp only at hr
    split at hr
    · cases hr
      exact Section.wakes_same h _ _
    · exact (Section.wakes_same h true _).triggerIf hr

theorem cancelAllLocked_wakes {ctx : FdContext S C} (h : ctx.NoCb) {fd : Int} {ok : Bool}
    {r : Section S C} (hr : cancelAllLocked ctx fd ok = some r) : r.Wakes ctx := by
  unfold cancelAllLocked at hr
  split at hr
  · cases hr
    exact Section.wakes_same h _ _
  · dsimp only at hr
    split at hr
    · cases hr
      exact Section.wakes_same h _ _
    · rcases Option.bind_eq_some_iff.mp hr with ⟨r₁, hr₁, hrest⟩
      rcases Option.bind_eq_some_iff.mp hrest with ⟨r₂, hr₂, hlast⟩
      split at hlast
      · cases hlast
        exact ((Section.wakes_same h true _).triggerIf hr₁).triggerIf hr₂
      · cases hlast

/-- `addEvent` of a fiber either changes nothing or takes a free slot. -/
theorem addEventLocked_wakes {ctx : FdContext S C} (h : ctx.NoCb) {fd : Int} {event : IoEvent}
    {scheduler : Option S} {fiber : FiberId} {ok : Bool} {r : Section S C}
    (hr : addEventLocked ctx fd event none scheduler fiber ok = some r) :
    (r.ret = false ∧ r.Wakes ctx) ∨
      (r.ret = true ∧ r.scheduled = [] ∧ r.ctx.NoCb ∧ ctx.waiter event = none ∧
        r.ctx.waiter event = some fiber ∧
        ∀ other, other ≠ event → r.ctx.waiter other = ctx.waiter other) := by
  unfold addEventLocked at hr
  split at hr
  · cases hr
  · next hfree =>
    dsimp only at hr
    split at hr
    · cases hr
      exact .inl ⟨rfl, Section.wakes_same h _ _⟩
    -- `epoll_ctl` succeeded: the assertions on the free slot hold, or the call aborts
    · split at hr
      · cases hr
      · split at hr
        · cases hr
        · cases hr
          have hnone : ctx.waiter event = none := by simp [FdContext.waiter, hfree]
          refine .inr ⟨rfl, rfl, fun other => ?_, hnone, ?_, fun other hne => ?_⟩
          · by_cases heq : other = event
            · subst heq
              rw [FdContext.getContext_setContext_self]
              have := h other
              cases other <;> exact this
            · rw [FdContext.getContext_setContext_of_ne _ _ heq]
              have := h other
              cases other <;> exact this
          · simp [FdContext.waiter]
          · exact FdContext.waiter_setContext_of_ne ctx _ _ hne (Events.has_add_of_ne _ hne)

/-- Where `epoll_ctl` succeeds, `addEvent` does or an assertion fails. -/
theorem addEventLocked_ret {ctx : FdContext S C} {fd : Int} {event : IoEvent} {cb : Option C}
    {scheduler : Option S} {fiber : FiberId} {r : Section S C}
    (hr : addEventLocked ctx fd event cb scheduler fiber true = some r) : r.ret = true := by
  unfold addEventLocked at hr
  split at hr
  · cases hr
  dsimp only at hr
  split at hr
  · contradiction
  split at hr
  · cases hr
  split at hr
  · cases hr
  · cases hr
    rfl

end IoCall

theorem FdContext.dispatch_wakes {ctx : FdContext S C} (h : ctx.NoCb) {ev : EpollEvents} {ok : Bool}
    {r : Section S C} (hr : ctx.dispatch ev ok = some r) : r.Wakes ctx := by
  unfold dispatch at hr
  dsimp only at hr
  split at hr
  · cases hr
    exact Section.wakes_same h _ _
  · split at hr
    · cases hr
      exact Section.wakes_same h _ _
    · rcases Option.bind_eq_some_iff.mp hr with ⟨r₁, hr₁, hrest⟩
      exact ((Section.wakes_same h true _).triggerIf hr₁).triggerIf hrest

namespace EventTable

variable [DecidableEq τ]

def slot (s : EventTable S C τ) (k : CtxAddr × IoEvent) : Option FiberId :=
  (s.contexts[k.1]?).bind fun ctx => ctx.waiter k.2

def FiberCall : IoCall S C → Prop
  | .addEvent _ _ cb _ _ => cb = none
  | .delEvent .. => False
  | .cancelEvent .. | .cancelAll _ => True

def callIn : Caller S C → Option (IoCall S C)
  | .resize call | .lock call _ => some call
  | _ => none

/-- No function is registered or about to be, and nobody calls `delEvent`. -/
structure Fibers (s : EventTable S C τ) : Prop where
  noCb : ∀ ctx ∈ s.contexts, ctx.NoCb
  calls : ∀ t call, callIn (s.caller t) = some call → FiberCall call

def threadOf : TableOp S C τ → τ
  | .call t _ | .resize t | .lock t _ | .epollWait t _ | .dispatch t _ => t

def callOf (s : EventTable S C τ) : TableOp S C τ → Option (IoCall S C)
  | .call _ call => some call
  | op => callIn (s.caller (threadOf op))

/-- What a step does to the slots: it wakes the fibers it takes out, or registers one. -/
inductive SlotChange (s : EventTable S C τ) (op : TableOp S C τ) (e : TableEffect S C)
    (s' : EventTable S C τ) : Prop
  | wakes (hless : ∀ {k g}, s'.slot k = some g → s.slot k = some g)
      (hscheduled : ∀ g, (∃ p ∈ e.scheduled, p.2 = .fiber (some g)) ↔
        ∃ k, s.slot k = some g ∧ s'.slot k ≠ some g)
      (hret : e.ret = some true → ∀ t ok fd event cb scheduler f a, op = .lock t ok →
        s.caller t ≠ .lock (.addEvent fd event cb scheduler f) a)
  | registers {t : τ} {ok : Bool} {fd : Int} {event : IoEvent} {scheduler : Option S} {f : FiberId}
      {a : CtxAddr} (hop : op = .lock t ok)
      (hcaller : s.caller t = .lock (.addEvent fd event none scheduler f) a)
      (hret : e.ret = some true) (hscheduled : e.scheduled = []) (hfree : s.slot (a, event) = none)
      (hslot : s'.slot (a, event) = some f)
      (hother : ∀ k, k ≠ (a, event) → s'.slot k = s.slot k)

omit [DecidableEq τ] in
theorem slot_congr {s s' : EventTable S C τ} (h : s'.contexts = s.contexts)
    (k : CtxAddr × IoEvent) : s'.slot k = s.slot k := by
  unfold slot
  rw [h]

omit [DecidableEq τ] in
/-- A step that leaves the slots alone. -/
theorem SlotChange.quiet {s s' : EventTable S C τ} {op : TableOp S C τ} {e : TableEffect S C}
    (hslot : ∀ k, s'.slot k = s.slot k) (hscheduled : e.scheduled = []) (hret : e.ret ≠ some true) :
    SlotChange s op e s' := by
  refine .wakes (fun {k g} hk => by rw [← hslot k]; exact hk) (fun g => ?_) (fun h => absurd h hret)
  rw [hscheduled]
  constructor
  · rintro ⟨p, hp, -⟩
    cases hp
  · rintro ⟨k, hk, hne⟩
    exact absurd ((hslot k).trans hk) hne

theorem slot_leave {s : EventTable S C τ} {t : τ} {a : CtxAddr} {ctx : FdContext S C}
    {next : Caller S C} {ret : Section S C → Option Bool} {r : Section S C}
    (hctx : s.contexts[a]? = some ctx) (k : CtxAddr × IoEvent) :
    (s.leave t a next ret (some r)).2.slot k =
      if k.1 = a then r.ctx.waiter k.2 else s.slot k := by
  unfold slot
  show ((s.contexts.set a r.ctx)[k.1]?).bind _ = _
  have hlt := (List.getElem?_eq_some_iff.mp hctx).choose
  by_cases hk : k.1 = a
  · rw [if_pos hk, hk, List.getElem?_set_self hlt]
    rfl
  · rw [if_neg hk, List.getElem?_set_ne (Ne.symm hk)]

/-- A section that wakes what it takes out. -/
theorem SlotChange.leave {s : EventTable S C τ} {op : TableOp S C τ} {t : τ} {a : CtxAddr}
    {ctx : FdContext S C} {next : Caller S C} {ret : Section S C → Option Bool} {r : Section S C}
    (hctx : s.contexts[a]? = some ctx) (hr : r.Wakes ctx)
    (hret : ret r = some true → ∀ t ok fd event cb scheduler f a, op = .lock t ok →
      s.caller t ≠ .lock (.addEvent fd event cb scheduler f) a) :
    SlotChange s op (s.leave t a next ret (some r)).1 (s.leave t a next ret (some r)).2 := by
  have hslot : ∀ event, s.slot (a, event) = ctx.waiter event := by
    intro event
    unfold slot
    rw [hctx]
    rfl
  refine .wakes (fun {k g} hk => ?_) (fun g => ?_) hret
  · rw [slot_leave hctx] at hk
    split at hk
    · next heq =>
      rw [show k = (a, k.2) from Prod.ext heq rfl, hslot]
      exact hr.less hk
    · exact hk
  · rw [show (∃ p ∈ (s.leave t a next ret (some r)).1.scheduled, p.2 = .fiber (some g)) ↔ _ from
      hr.scheduled g]
    constructor
    · rintro ⟨event, hg, hne⟩
      refine ⟨(a, event), (hslot event).trans hg, ?_⟩
      rw [slot_leave hctx, if_pos rfl]
      exact hne
    · rintro ⟨k, hk, hne⟩
      rw [slot_leave hctx] at hne
      split at hne
      · next heq =>
        rw [show k = (a, k.2) from Prod.ext heq rfl, hslot] at hk
        exact ⟨k.2, hk, hne⟩
      · exact absurd hk hne

theorem slotChange_of_act {s s' : EventTable S C τ} {op : TableOp S C τ} {e : TableEffect S C}
    (hs : s.Fibers) (h : s.act op = some (e, s')) : SlotChange s op e s' := by
  have hm := (move_of_act h).2
  cases hm with
  | find _ _ | grow _ | epollWait _ | dispatched _ =>
    exact .quiet (fun k => slot_congr rfl k) rfl (by simp)
  | refuse _ _ => exact .quiet (fun k => rfl) rfl (by simp)
  | @resize t call a hcaller hctx =>
    refine .quiet (fun k => ?_) rfl (by simp)
    unfold slot
    show ((s.contexts ++ _)[k.1]?).bind _ = _
    by_cases hk : k.1 < s.contexts.length
    · rw [List.getElem?_append_left hk]
    · have hge := Nat.le_of_not_lt hk
      rw [List.getElem?_append_right hge, List.getElem?_eq_none (l := s.contexts) hge]
      cases hnew : ((List.range' (List.take (call.fd * 3 / 2).toNat s.fdContexts).length
          ((call.fd * 3 / 2).toNat - (List.take (call.fd * 3 / 2).toNat s.fdContexts).length)).map
          fun i => ({ fd := i } : FdContext S C))[k.1 - s.contexts.length]? with
      | none => rfl
      | some ctx =>
        -- a new context has no events
        rcases List.mem_map.mp (List.mem_of_getElem? hnew) with ⟨i, -, rfl⟩
        cases k.2 <;> rfl
  | @lock t call a ctx ok hcaller hctx =>
    have hcb := hs.noCb ctx (List.mem_of_getElem? hctx)
    cases hr : call.locked ctx ok with
    | none => exact .quiet (fun k => rfl) rfl (by simp [leave])
    | some r =>
      have hcall : FiberCall call := hs.calls t call (by rw [hcaller]; rfl)
      cases call with
      | addEvent fd event cb scheduler f =>
        obtain rfl : cb = none := hcall
        rcases IoCall.addEventLocked_wakes hcb hr with
          ⟨hfalse, hwakes⟩ | ⟨htrue, hscheduled, -, hfree, hnew, hother⟩
        · exact .leave hctx hwakes (by simp [hfalse])
        · refine .registers rfl hcaller (by simp [leave, htrue]) hscheduled ?_ ?_ fun k hk => ?_
          · unfold slot
            rw [hctx]
            exact hfree
          · rw [slot_leave hctx, if_pos rfl]
            exact hnew
          · rw [slot_leave hctx]
            split
            · next heq =>
              have hne : k.2 ≠ event := fun h => hk (Prod.ext heq h)
              rw [hother k.2 hne]
              unfold slot
              rw [heq, hctx]
              rfl
            · rfl
      | delEvent fd event => exact hcall.elim
      | cancelEvent fd event =>
        refine .leave hctx (IoCall.cancelEventLocked_wakes hcb hr) fun _ t' ok' _ _ _ _ _ _ heq => ?_
        cases heq
        rw [hcaller]
        simp
      | cancelAll fd =>
        refine .leave hctx (IoCall.cancelAllLocked_wakes hcb hr) fun _ t' ok' _ _ _ _ _ _ heq => ?_
        cases heq
        rw [hcaller]
        simp
  | @dispatch t a ev rest ctx ok hcaller hctx =>
    have hcb := hs.noCb ctx (List.mem_of_getElem? hctx)
    cases hr : ctx.dispatch ev ok with
    | none => exact .quiet (fun k => rfl) rfl (by simp [leave])
    | some r => exact .leave hctx (FdContext.dispatch_wakes hcb hr) (by simp)

/-- Only a section under the mutex of a context comes to `true`. -/
theorem lock_of_ret {s s' : EventTable S C τ} {op : TableOp S C τ} {e : TableEffect S C}
    (h : s.act op = some (e, s')) (hret : e.ret = some true) :
    ∃ t ok call a, op = .lock t ok ∧ s.caller t = .lock call a := by
  have hm := (move_of_act h).2
  cases hm with
  | find _ _ | grow _ | refuse _ _ | resize _ _ | epollWait _ | dispatched _ => cases hret
  | lock hcaller hctx => exact ⟨_, _, _, _, rfl, hcaller⟩
  | @dispatch t a ev rest ctx ok hcaller hctx =>
    cases hr : ctx.dispatch ev ok <;> rw [hr] at hret <;> cases hret

/-- `addEvent` fails only where `epoll_ctl` does. -/
theorem lock_of_refused {s s' : EventTable S C τ} {op : TableOp S C τ} {e : TableEffect S C}
    {fd : Int} {event : IoEvent} {cb : Option C} {scheduler : Option S} {f : FiberId}
    (h : s.act op = some (e, s')) (hcall : s.callOf op = some (.addEvent fd event cb scheduler f))
    (hret : e.ret = some false) : ∃ t, op = .lock t false := by
  have hm := (move_of_act h).2
  cases hm with
  | find _ _ | grow _ | resize _ _ | epollWait _ | dispatched _ => cases hret
  | @refuse t call hcaller hfd =>
    -- a descriptor behind the end of the table makes it grow
    cases hcall
    simp only [act, hcaller, find, if_neg (Int.not_lt.mpr hfd)] at h
    split at h <;> simp at h
  | @lock t call a ctx ok hcaller hctx =>
    have hin : callIn (s.caller t) = _ := hcall
    rw [hcaller] at hin
    cases hin
    cases ok with
    | false => exact ⟨t, rfl⟩
    | true =>
      cases hr : IoCall.addEventLocked ctx fd event cb scheduler f true with
      | none =>
        simp only [IoCall.locked, hr, leave] at hret
        cases hret
      | some r =>
        simp only [IoCall.locked, hr, leave, IoCall.addEventLocked_ret hr] at hret
        cases hret
  | @dispatch t a ev rest ctx ok hcaller hctx =>
    cases hr : ctx.dispatch ev ok <;> rw [hr] at hret <;> cases hret

theorem leave_caller (s : EventTable S C τ) (t : τ) (a : CtxAddr) (next : Caller S C)
    (ret : Section S C → Option Bool) (r : Option (Section S C)) :
    (s.leave t a next ret r).2.caller = s.caller ∧ (s.leave t a next ret r).1 = {} ∨
      (s.leave t a next ret r).2.caller = Function.update s.caller t next := by
  cases r with
  | none => exact .inl ⟨rfl, rfl⟩
  | some r => exact .inr rfl

/-- A step moves its own thread: out of the table when the call has a result, and else at most on in
the same call. -/
theorem caller_of_act {s s' : EventTable S C τ} {op : TableOp S C τ} {e : TableEffect S C}
    (h : s.act op = some (e, s')) :
    (∀ t, t ≠ threadOf op → s'.caller t = s.caller t) ∧
      (e.ret.isSome → s'.caller (threadOf op) = .out) ∧
      ∀ call, callIn (s'.caller (threadOf op)) = some call → s.callOf op = some call := by
  have hother : ∀ {t : τ} {c : Caller S C}, ∀ v, v ≠ t → Function.update s.caller t c v = s.caller v :=
    fun v hv => Function.update_of_ne hv ..
  have hm := (move_of_act h).2
  cases hm with
  | find hcaller hctx =>
    refine ⟨hother, by simp, fun call hc => ?_⟩
    simpa [setCaller, threadOf, callIn, callOf] using hc
  | grow hcaller =>
    refine ⟨hother, by simp, fun call hc => ?_⟩
    simpa [setCaller, threadOf, callIn, callOf] using hc
  | refuse hcaller hfd =>
    refine ⟨fun _ _ => rfl, fun _ => hcaller, fun call hc => ?_⟩
    rw [threadOf, hcaller] at hc
    cases hc
  | resize hcaller hctx =>
    refine ⟨hother, by simp, fun call hc => ?_⟩
    simpa [setCaller, threadOf, callIn, callOf, hcaller] using hc
  | @lock t call a ctx ok hcaller hctx =>
    rcases leave_caller s t a .out (fun r => some r.ret) (call.locked ctx ok) with ⟨hc, he⟩ | hc
    · rw [hc, he]
      exact ⟨fun _ _ => rfl, by simp, fun call hc => hc⟩
    · rw [hc]
      refine ⟨hother, fun _ => Function.update_self .., fun call hc => ?_⟩
      rw [threadOf, Function.update_self] at hc
      cases hc
  | epollWait hcaller =>
    refine ⟨hother, by simp, fun call hc => ?_⟩
    simp [setCaller, threadOf, callIn] at hc
  | dispatched hcaller =>
    refine ⟨hother, by simp, fun call hc => ?_⟩
    simp [setCaller, threadOf, callIn] at hc
  | @dispatch t a ev rest ctx ok hcaller hctx =>
    rcases leave_caller s t a (.dispatch rest) (fun _ => none) (ctx.dispatch ev ok) with
      ⟨hc, he⟩ | hc
    · rw [hc, he]
      exact ⟨fun _ _ => rfl, by simp, fun call hc => hc⟩
    · rw [hc]
      refine ⟨hother, fun hret => ?_, fun call hc => ?_⟩
      · cases hr : ctx.dispatch ev ok <;> rw [hr] at hret <;> cases hret
      · rw [threadOf, Function.update_self] at hc
        cases hc

theorem Fibers.step {s s' : EventTable S C τ} {op : TableOp S C τ} {e : TableEffect S C}
    (hs : s.Fibers) (hop : ∀ t call, op = .call t call → FiberCall call)
    (h : s.act op = some (e, s')) : s'.Fibers where
  noCb := by
    have hleave : ∀ {t : τ} {a : CtxAddr} {next : Caller S C} {ret : Section S C → Option Bool}
        {r : Option (Section S C)}, (∀ r', r = some r' → r'.ctx.NoCb) →
        ∀ ctx ∈ (s.leave t a next ret r).2.contexts, ctx.NoCb := by
      intro t a next ret r hr ctx hctx
      cases r with
      | none => exact hs.noCb ctx hctx
      | some r =>
        rcases List.mem_or_eq_of_mem_set hctx with hold | rfl
        · exact hs.noCb ctx hold
        · exact hr r rfl
    have hm := (move_of_act h).2
    cases hm with
    | find _ _ | grow _ | epollWait _ | dispatched _ | refuse _ _ => exact hs.noCb
    | resize _ _ =>
      intro ctx hctx
      rcases List.mem_append.mp hctx with hold | hnew
      · exact hs.noCb ctx hold
      · rcases List.mem_map.mp hnew with ⟨i, -, rfl⟩
        intro event
        cases event <;> rfl
    | @lock t call a ctx ok hcaller hctx =>
      have hcb := hs.noCb ctx (List.mem_of_getElem? hctx)
      have hcall : FiberCall call := hs.calls t call (by rw [hcaller]; rfl)
      refine hleave fun r hr => ?_
      cases call with
      | addEvent fd event cb scheduler f =>
        obtain rfl : cb = none := hcall
        rcases IoCall.addEventLocked_wakes hcb hr with ⟨-, hwakes⟩ | ⟨-, -, hnew, -⟩
        · exact hwakes.noCb
        · exact hnew
      | delEvent fd event => exact hcall.elim
      | cancelEvent fd event => exact (IoCall.cancelEventLocked_wakes hcb hr).noCb
      | cancelAll fd => exact (IoCall.cancelAllLocked_wakes hcb hr).noCb
    | @dispatch t a ev rest ctx ok hcaller hctx =>
      have hcb := hs.noCb ctx (List.mem_of_getElem? hctx)
      exact hleave fun r hr => (FdContext.dispatch_wakes hcb hr).noCb
  calls := fun t call hc => by
    obtain ⟨hother, -, hgoes⟩ := caller_of_act h
    by_cases ht : t = threadOf op
    · subst ht
      have hold := hgoes call hc
      cases op with
      | call t call' =>
        cases hold
        exact hop _ _ rfl
      | _ => exact hs.calls _ call hold
    · rw [hother t ht] at hc
      exact hs.calls t call hc

omit [DecidableEq τ] in
/-- The constructor makes empty contexts only. -/
theorem mem_new {ctx : FdContext S C} (h : ctx ∈ (new : EventTable S C τ).contexts) :
    ∃ i, ctx = { fd := i } := by
  obtain ⟨i, -, rfl⟩ := List.mem_map.mp (List.mem_append.mp h |>.resolve_left List.not_mem_nil)
  exact ⟨i, rfl⟩

omit [DecidableEq τ] in
theorem new_fibers : (new : EventTable S C τ).Fibers where
  noCb := fun ctx hctx event => by
    obtain ⟨i, rfl⟩ := mem_new hctx
    cases event <;> rfl
  calls := fun _ _ hc => by cases hc

omit [DecidableEq τ] in
theorem slot_new (k : CtxAddr × IoEvent) : (new : EventTable S C τ).slot k = none := by
  unfold slot
  cases hctx : (new : EventTable S C τ).contexts[k.1]? with
  | none => rfl
  | some ctx =>
    obtain ⟨i, rfl⟩ := mem_new (List.mem_of_getElem? hctx)
    cases k.2 <;> rfl

end EventTable

end Azure
