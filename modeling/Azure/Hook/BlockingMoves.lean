import Azure.Hook.Recycling
import Azure.IOManager.Waiters

/-!
# What a step can do to the blocking calls

`Blocking` is what the calls of `do_io` share: the event table, the timers, the `timer_info`s, the
collected callbacks, and where each fiber is.  Beside the hooked calls, other threads cancel events.
`Move` lists what one step of anybody does to these.
-/

namespace Azure

open Reasoning

inductive BlockingAction (ω : Type) where
  | hook (a : HookAction ω)
  | cancelEvent (w : ω) (fd : Int) (event : IoEvent)
  | cancelAll (w : ω) (fd : Int)
  /-- the section of such a call under the mutex of the context -/
  | lock (w : ω) (ok : Bool)
  deriving DecidableEq, Repr

def IoCall.Cancels : IoCall Unit Unit → Prop
  | .cancelEvent .. | .cancelAll _ => True
  | _ => False

theorem IoCall.fiberCall_of_cancels {call : IoCall Unit Unit} (h : call.Cancels) :
    EventTable.FiberCall call := by
  cases call with
  | addEvent | delEvent => exact h.elim
  | cancelEvent | cancelAll => trivial

def DoIo.onTimeout (io : DoIo) : Timeout := { tinfo := io.tinfo, fd := io.fd, event := io.fn.event }

namespace HookPc

/-- The timer of a call, from `addConditionTimer` to `cancel`. -/
def timer? : HookPc → Option (DoIo × Addr)
  | .addEvent io (some a) | .waiting io (some a) | .woken io (some a) => some (io, a)
  | _ => none

def tinfo? (pc : HookPc) : Option Nat := pc.io?.map DoIo.tinfo

/-- In `YieldToHold`. -/
def isWaiting : HookPc → Bool
  | .waiting .. => true
  | _ => false

def call? (f : FiberId) : HookPc → Option (IoCall Unit Unit)
  | .addEvent io _ => some (.addEvent io.fd io.fn.event none (some ()) f)
  | .cancelAll fd => some (.cancelAll fd)
  | .cancelEvent fd event => some (.cancelEvent fd event)
  | _ => none

theorem isWaiting_of_io? {pc : HookPc} (h : pc.io? = none) : pc.isWaiting = false := by
  cases pc <;> first | rfl | cases h

theorem timer?_of_io? {pc : HookPc} (h : pc.io? = none) : pc.timer? = none := by
  cases pc <;> first | rfl | cases h

theorem io?_of_timer? {pc : HookPc} {io : DoIo} {a : Addr} (h : pc.timer? = some (io, a)) :
    pc.io? = some io := by
  unfold timer? at h
  split at h
  · cases h
    rfl
  · cases h
    rfl
  · cases h
    rfl
  · cases h

theorem tinfo?_of_io? {pc : HookPc} {io : DoIo} (h : pc.io? = some io) :
    pc.tinfo? = some io.tinfo := by
  rw [tinfo?, h]
  rfl

theorem tinfo?_of_none {pc : HookPc} (h : pc.io? = none) : pc.tinfo? = none := by
  rw [tinfo?, h]
  rfl

theorem fiberCall_of_call? {f : FiberId} {pc : HookPc} {call : IoCall Unit Unit}
    (h : pc.call? f = some call) : EventTable.FiberCall call := by
  unfold call? at h
  split at h
  · cases h
    rfl
  · cases h
    trivial
  · cases h
    trivial
  · cases h

end HookPc

structure Blocking (ω : Type) where
  table : EventTable Unit Unit (HookThread ω)
  timers : TimerManager Timeout Nat
  tinfos : List TimerInfo
  fiber : FiberId → HookPc
  woken : FiberId → Bool
  expired : List (Callback Timeout Nat)

namespace Blocking

variable {ω : Type}

def goto (s : Blocking ω) (f : FiberId) (pc : HookPc) : Blocking ω :=
  { s with fiber := Function.update s.fiber f pc }

def drop (s : Blocking ω) (io : DoIo) : Blocking ω :=
  { s with tinfos := s.tinfos.modify io.tinfo fun t => { t with alive := false } }

def wake (s : Blocking ω) (r : TableEffect Unit Unit × EventTable Unit Unit (HookThread ω)) :
    Blocking ω :=
  { s with
    table := r.2
    woken := r.1.scheduled.foldl (fun woken p =>
      match p.2 with
      | .fiber (some g) => Function.update woken g true
      | _ => woken) s.woken }

def cancelTimer (s : Blocking ω) : Option Addr → Option (Blocking ω)
  | none => some s
  | some a => (s.timers.call (.cancel a)).map fun r => { s with timers := r.2 }

@[simp] theorem goto_table (s : Blocking ω) (f : FiberId) (pc : HookPc) :
    (s.goto f pc).table = s.table := rfl

@[simp] theorem goto_timers (s : Blocking ω) (f : FiberId) (pc : HookPc) :
    (s.goto f pc).timers = s.timers := rfl

@[simp] theorem goto_tinfos (s : Blocking ω) (f : FiberId) (pc : HookPc) :
    (s.goto f pc).tinfos = s.tinfos := rfl

@[simp] theorem goto_woken (s : Blocking ω) (f : FiberId) (pc : HookPc) :
    (s.goto f pc).woken = s.woken := rfl

@[simp] theorem goto_expired (s : Blocking ω) (f : FiberId) (pc : HookPc) :
    (s.goto f pc).expired = s.expired := rfl

@[simp] theorem goto_fiber_self (s : Blocking ω) (f : FiberId) (pc : HookPc) :
    (s.goto f pc).fiber f = pc := Function.update_self ..

theorem goto_fiber_of_ne (s : Blocking ω) {f g : FiberId} (pc : HookPc) (h : g ≠ f) :
    (s.goto f pc).fiber g = s.fiber g := Function.update_of_ne h ..

theorem goto_same (s : Blocking ω) (f : FiberId) : s.goto f (s.fiber f) = s := by
  rw [goto, Function.update_eq_self]

theorem cancelTimer_frame {s s' : Blocking ω} {timer : Option Addr}
    (h : s.cancelTimer timer = some s') : s' = { s with timers := s'.timers } := by
  cases timer with
  | none =>
    cases h
    rfl
  | some a =>
    rcases Option.map_eq_some_iff.mp h with ⟨r, -, rfl⟩
    rfl

inductive Move [DecidableEq ω] (s : Blocking ω) :
    BlockingAction ω → HookEffect → Blocking ω → Prop
  /-- outside of `do_io` and of the table -/
  | aside {a : BlockingAction ω} {e : HookEffect} {f : FiberId} {pc : HookPc} :
      (s.fiber f).io? = none → (s.fiber f).call? f = none → pc.io? = none →
      Move s a e (s.goto f pc)
  | start {a : BlockingAction ω} {e : HookEffect} {f : FiberId} {io : DoIo} :
      s.fiber f = .out → io.tinfo = s.tinfos.length →
      Move s a e ({ s with tinfos := s.tinfos ++ [({} : TimerInfo)] }.goto f (.attempt io))
  /-- on in the call, without a timer or a registration: `EINTR`, `EAGAIN`, no timeout, a retry -/
  | goesOn {f : FiberId} {i : HookInput} {e : HookEffect} {io io' : DoIo} {pc : HookPc} :
      (s.fiber f).io? = some io → (s.fiber f).call? f = none → (s.fiber f).timer? = none →
      (s.fiber f).isWaiting = false → pc.io? = some io' → io'.tinfo = io.tinfo →
      pc.timer? = none → pc.isWaiting = false →
      Move s (.hook (.step f i)) e (s.goto f pc)
  | arm {f : FiberId} {i : HookInput} {io : DoIo}
      {r : TimerEffect Timeout Nat × TimerManager Timeout Nat} :
      s.fiber f = .arm io →
      s.timers.call (.addConditionTimer i.timer io.timeout (some io.onTimeout) io.tinfo false
        i.now) = some r →
      Move s (.hook (.step f i)) {}
        ({ s with timers := r.2 }.goto f (.addEvent io (some i.timer)))
  /-- inside a call on the table -/
  | calling {f : FiberId} {i : HookInput} {call : IoCall Unit Unit}
      {op : TableOp Unit Unit (HookThread ω)}
      {r : TableEffect Unit Unit × EventTable Unit Unit (HookThread ω)} :
      (s.fiber f).call? f = some call → EventTable.threadOf op = .inl f →
      (∀ t c, op = .call t c → c = call) → s.table.act op = some r → r.1.ret = none →
      Move s (.hook (.step f i)) {} (s.wake r)
  /-- `cancelAll` or `cancelEvent` returns -/
  | called {f : FiberId} {i : HookInput} {call : IoCall Unit Unit}
      {op : TableOp Unit Unit (HookThread ω)}
      {r : TableEffect Unit Unit × EventTable Unit Unit (HookThread ω)} {pc : HookPc} :
      (s.fiber f).call? f = some call → call.Cancels → (s.fiber f).io? = none →
      EventTable.threadOf op = .inl f → (∀ t c, op = .call t c → c = call) →
      s.table.act op = some r → r.1.ret.isSome → pc.io? = none →
      Move s (.hook (.step f i)) {} ((s.wake r).goto f pc)
  | registered {f : FiberId} {i : HookInput} {io : DoIo} {timer : Option Addr}
      {op : TableOp Unit Unit (HookThread ω)}
      {r : TableEffect Unit Unit × EventTable Unit Unit (HookThread ω)} :
      s.fiber f = .addEvent io timer → EventTable.threadOf op = .inl f →
      (∀ t c, op = .call t c → c = .addEvent io.fd io.fn.event none (some ()) f) →
      s.table.act op = some r → r.1.ret = some true →
      Move s (.hook (.step f i)) {} ((s.wake r).goto f (.waiting io timer))
  | refused {f : FiberId} {i : HookInput} {io : DoIo} {timer : Option Addr}
      {op : TableOp Unit Unit (HookThread ω)}
      {r : TableEffect Unit Unit × EventTable Unit Unit (HookThread ω)} {t : Blocking ω} :
      s.fiber f = .addEvent io timer → EventTable.threadOf op = .inl f →
      (∀ t c, op = .call t c → c = .addEvent io.fd io.fn.event none (some ()) f) →
      s.table.act op = some r → r.1.ret = some false → (s.wake r).cancelTimer timer = some t →
      Move s (.hook (.step f i)) { ret := some (-1, i.errno) } ((t.drop io).goto f .out)
  | resume {f : FiberId} {i : HookInput} {io : DoIo} {timer : Option Addr} :
      s.fiber f = .waiting io timer → s.woken f = true →
      Move s (.hook (.step f i)) {}
        ({ s with woken := Function.update s.woken f false }.goto f (.woken io timer))
  | disarm {f : FiberId} {i : HookInput} {io : DoIo} {timer : Option Addr} {t : Blocking ω} :
      s.fiber f = .woken io timer → s.cancelTimer timer = some t →
      Move s (.hook (.step f i)) {} (t.goto f (.check io))
  | giveUp {f : FiberId} {i : HookInput} {io : DoIo} {tinfo : TimerInfo} :
      s.fiber f = .check io → s.tinfos[io.tinfo]? = some tinfo → tinfo.cancelled ≠ 0 →
      Move s (.hook (.step f i)) { ret := some (-1, tinfo.cancelled) } ((s.drop io).goto f .out)
  | done {f : FiberId} {i : HookInput} {io : DoIo} {ret : Option (Int × Int)} {pc : HookPc} :
      s.fiber f = .attempt io → ¬ (i.ret = -1 ∧ (i.errno = EINTR ∨ i.errno = EAGAIN)) →
      (pc = .out ∧ ret = some (i.ret, i.errno) ∨
        io.fn = .accept ∧ 0 ≤ i.ret ∧ pc = .adopt i.ret ∧ ret = none) →
      Move s (.hook (.step f i)) { syscall := some io.fd, ret } ((s.drop io).goto f pc)
  /-- a thread that is not in a hooked call -/
  | outside {a : BlockingAction ω} {w : ω} {op : TableOp Unit Unit (HookThread ω)}
      {r : TableEffect Unit Unit × EventTable Unit Unit (HookThread ω)} :
      EventTable.threadOf op = .inr w → (∀ t c, op = .call t c → c.Cancels) →
      s.table.act op = some r → Move s a {} (s.wake r)
  | expire {nowTimer : Addr} {now : UInt64}
      {r : TimerEffect Timeout Nat × TimerManager Timeout Nat} :
      s.timers.call (.listExpiredCb nowTimer now) = some r →
      Move s (.hook (.expire nowTimer now)) {}
        { s with timers := r.2, expired := s.expired ++ r.1.collected.filterMap Prod.snd }
  | late {f : FiberId} {i : Nat} :
      Move s (.hook (.timeout f i)) {} { s with expired := s.expired.eraseIdx i }
  | timeout {f : FiberId} {i : Nat} {cb : Callback Timeout Nat} {fn : Timeout}
      {tinfo : TimerInfo} :
      s.fiber f = .out → s.expired[i]? = some cb →
      cb.run (fun t => (s.tinfos[t]?.map TimerInfo.alive).getD false) = some fn →
      s.tinfos[fn.tinfo]? = some tinfo → tinfo.alive = true → tinfo.cancelled = 0 →
      Move s (.hook (.timeout f i)) {}
        ({ s with
          expired := s.expired.eraseIdx i
          tinfos := s.tinfos.set fn.tinfo { tinfo with cancelled := ETIMEDOUT } }.goto f
          (.cancelEvent fn.fd fn.event))

end Blocking

/-! ## The steps of the hooks -/

namespace Hooks

variable {ω : Type}

def blocking (s : Hooks ω) : Blocking ω :=
  { table := s.table, timers := s.timers, tinfos := s.tinfos, fiber := s.fiber, woken := s.woken
    expired := s.expired }

theorem blocking_cancelTimer {s t : Hooks ω} {timer : Option Addr}
    (h : s.cancelTimer timer = some t) : s.blocking.cancelTimer timer = some t.blocking := by
  cases timer with
  | none =>
    cases h
    rfl
  | some a =>
    rcases Option.map_eq_some_iff.mp h with ⟨r, hr, rfl⟩
    exact Option.map_eq_some_iff.mpr ⟨r, hr, rfl⟩

variable [DecidableEq ω]

def actBlocking (s : Hooks ω) : BlockingAction ω → Option (HookEffect × Hooks ω)
  | .hook a => s.act a
  | .cancelEvent w fd event =>
    (s.actTable (.call (.inr w) (.cancelEvent fd event))).map fun r => ({}, r.2)
  | .cancelAll w fd => (s.actTable (.call (.inr w) (.cancelAll fd))).map fun r => ({}, r.2)
  | .lock w ok => (s.actTable (.lock (.inr w) ok)).map fun r => ({}, r.2)

abbrev BlockingEvent (ω : Type) := BlockingAction ω × HookEffect

def BlockingStep (s : Hooks ω) (e : BlockingEvent ω) (s' : Hooks ω) : Prop :=
  s.actBlocking e.1 = some (e.2, s')

theorem actTable_wake {s t : Hooks ω} {op : TableOp Unit Unit (HookThread ω)} {ret : Option Bool}
    (h : s.actTable op = some (ret, t)) :
    ∃ r, s.table.act op = some r ∧ r.1.ret = ret ∧ t.blocking = s.blocking.wake r := by
  rcases Option.map_eq_some_iff.mp h with ⟨r, hr, heq⟩
  cases heq
  exact ⟨r, hr, rfl, rfl⟩

omit [DecidableEq ω] in
theorem tableOp_spec (s : Hooks ω) (f : FiberId) (call : IoCall Unit Unit) (ok : Bool) :
    EventTable.threadOf (s.tableOp f call ok) = .inl f ∧
      ∀ t c, s.tableOp f call ok = .call t c → c = call := by
  unfold tableOp
  split
  · exact ⟨rfl, fun _ _ h => by cases h⟩
  · exact ⟨rfl, fun _ _ h => by cases h⟩
  · exact ⟨rfl, fun _ _ h => by cases h; rfl⟩

open Blocking

theorem move_of_call {s s' : Hooks ω} {f : FiberId} {hooked : Bool} {c : HookCall}
    {e : HookEffect} (hout : s.fiber f = .out) (hs : s.call f hooked c = some (e, s')) :
    Move s.blocking (.hook (.call f c hooked)) e s'.blocking := by
  -- every branch but the one that enters the loop of `do_io` leaves timers and waiters alone
  have haside : ∀ pc : HookPc, pc.io? = none →
      Move s.blocking (.hook (.call f c hooked)) e (s.blocking.goto f pc) := by
    intro pc hpc
    apply Move.aside _ _ hpc
    · show (s.fiber f).io? = none
      rw [hout]
      rfl
    · show (s.fiber f).call? f = none
      rw [hout]
      rfl
  cases c with
  | io fn fd =>
    simp only [Hooks.call] at hs
    split at hs
    · cases hs
      exact haside (.direct fn fd) rfl
    split at hs
    · cases hs
    · split at hs
      · cases hs
      split at hs
      · cases hs
        exact haside .out rfl
      split at hs
      · cases hs
        exact haside (.direct fn fd) rfl
      · cases hs
        exact .start hout rfl
    · cases hs
      exact haside (.direct fn fd) rfl
  | socket =>
    cases hs
    exact haside (.socket hooked) rfl
  | close fd =>
    simp only [Hooks.call] at hs
    split at hs
    · cases hs
      exact haside (.close fd) rfl
    split at hs
    · cases hs
    · cases hs
      exact haside (.cancelAll fd) rfl
    · cases hs
      exact haside (.close fd) rfl
  | setsockopt fd type ms =>
    simp only [Hooks.call] at hs
    split at hs
    · cases hs
      exact haside .out rfl
    split at hs
    · cases hs
    · cases hs
      exact haside .out rfl
    · cases hs
      exact haside .out rfl
  | fcntlSetfl fd nonblock =>
    simp only [Hooks.call] at hs
    split at hs
    · cases hs
    · split at hs
      · cases hs
      split at hs
      · cases hs
        exact haside .out rfl
      · cases hs
        exact haside .out rfl
    · cases hs
      exact haside .out rfl

/-- The two calls that wake fibers: the fiber goes on behind the call once it has returned. -/
theorem move_of_cancels {s s' : Hooks ω} {f : FiberId} {i : HookInput} {e : HookEffect}
    {call : IoCall Unit Unit} {pc : HookPc} (hcall : (s.fiber f).call? f = some call)
    (hcancels : call.Cancels) (hio : (s.fiber f).io? = none) (hpc : pc.io? = none)
    (hs : (s.actTable (s.tableOp f call i.ok)).map (fun r =>
      (({} : HookEffect), if r.1.isSome then r.2.goto f pc else r.2)) = some (e, s')) :
    Move s.blocking (.hook (.step f i)) e s'.blocking := by
  rcases Option.map_eq_some_iff.mp hs with ⟨⟨ret, t⟩, hact, hnext⟩
  obtain ⟨r, hr, hret, ht⟩ := actTable_wake hact
  obtain ⟨hthread, hop⟩ := s.tableOp_spec f call i.ok
  cases hnext
  dsimp only
  split
  · next hsome =>
    show Move _ _ _ (t.blocking.goto f pc)
    rw [ht]
    exact .called hcall hcancels hio hthread hop hr (by rw [hret]; exact hsome) hpc
  · next hnone =>
    rw [ht]
    exact .calling hcall hthread hop hr (by rw [hret]; simpa using hnone)

section

variable {s s' : Hooks ω} {f : FiberId} {i : HookInput} {e : HookEffect}

/-- A step outside of `do_io`. -/
theorem move_aside {pc : HookPc} (pc' : HookPc) (hpc : s.fiber f = pc) (hold : pc.io? = none)
    (hcall : pc.call? f = none) (hnew : pc'.io? = none) :
    Move s.blocking (.hook (.step f i)) e (s.blocking.goto f pc') := by
  subst hpc
  exact .aside hold hcall hnew

/-- A step within `do_io` that changes nothing but the place. -/
theorem move_goesOn {pc : HookPc} {io io' : DoIo} (pc' : HookPc) (hpc : s.fiber f = pc)
    (hold : pc.io? = some io) (hcall : pc.call? f = none) (htimer : pc.timer? = none) (hwaiting : pc.isWaiting = false)
    (hnew : pc'.io? = some io') (htinfo : io'.tinfo = io.tinfo) (htimer' : pc'.timer? = none)
    (hwaiting' : pc'.isWaiting = false) :
    Move s.blocking (.hook (.step f i)) e (s.blocking.goto f pc') := by
  subst hpc
  exact .goesOn hold hcall htimer hwaiting hnew htinfo htimer' hwaiting'

theorem move_of_attempt {io : DoIo} (hpc : s.fiber f = .attempt io)
    (hs : s.step f i = some (e, s')) : Move s.blocking (.hook (.step f i)) e s'.blocking := by
  rw [step, hpc] at hs
  rcases Option.map_eq_some_iff.mp hs with ⟨k, -, hnext⟩
  dsimp only at hnext
  split at hnext
  · cases hnext
    -- after `EINTR` the fiber is where it was
    have hsame : s.blocking.goto f (.attempt io) = s.blocking := by
      rw [← hpc]
      exact goto_same s.blocking f
    have hmove : Move s.blocking (.hook (.step f i)) { syscall := some io.fd }
        (s.blocking.goto f (.attempt io)) := move_goesOn _ hpc rfl rfl rfl rfl rfl rfl rfl rfl
    rw [hsame] at hmove
    exact hmove
  · next hintr =>
    split at hnext
    · cases hnext
      exact move_goesOn (.arm io) hpc rfl rfl rfl rfl rfl rfl rfl rfl
    · next hagain =>
      have hnot : ¬ (i.ret = -1 ∧ (i.errno = EINTR ∨ i.errno = EAGAIN)) := by
        rintro ⟨hret, herrno | herrno⟩
        · exact hintr ⟨hret, herrno⟩
        · exact hagain ⟨hret, herrno⟩
      unfold finish at hnext
      split at hnext
      · next haccept =>
        cases hnext
        exact .done hpc hnot (.inr ⟨haccept.1, haccept.2, rfl, rfl⟩)
      · cases hnext
        exact .done hpc hnot (.inl ⟨rfl, rfl⟩)

theorem move_of_arm {io : DoIo} (hpc : s.fiber f = .arm io) (hs : s.step f i = some (e, s')) :
    Move s.blocking (.hook (.step f i)) e s'.blocking := by
  rw [step, hpc] at hs
  dsimp only at hs
  split at hs
  · cases hs
    exact move_goesOn (.addEvent io none) hpc rfl rfl rfl rfl rfl rfl rfl rfl
  · rcases Option.map_eq_some_iff.mp hs with ⟨r, hr, hnext⟩
    cases hnext
    exact .arm hpc hr

theorem move_of_addEvent {io : DoIo} {timer : Option Addr} (hpc : s.fiber f = .addEvent io timer)
    (hs : s.step f i = some (e, s')) : Move s.blocking (.hook (.step f i)) e s'.blocking := by
  rw [step, hpc] at hs
  rcases Option.bind_eq_some_iff.mp hs with ⟨⟨ret, t⟩, hact, hnext⟩
  obtain ⟨r, hr, hret, ht⟩ := actTable_wake hact
  obtain ⟨hthread, hcall⟩ :=
    s.tableOp_spec f (.addEvent io.fd io.fn.event none (some ()) f) i.ok
  dsimp only at hnext
  split at hnext
  · cases hnext
    rw [ht]
    refine .calling ?_ hthread hcall hr hret
    show (s.fiber f).call? f = _
    rw [hpc]
    rfl
  · cases hnext
    show Move _ _ _ (t.blocking.goto f (.waiting io timer))
    rw [ht]
    exact .registered hpc hthread hcall hr hret
  · rcases Option.map_eq_some_iff.mp hnext with ⟨u, hu, hleave⟩
    cases hleave
    have hu' := blocking_cancelTimer hu
    rw [ht] at hu'
    exact .refused hpc hthread hcall hr hret hu'

theorem move_of_wait {io : DoIo} {timer : Option Addr}
    (hpc : s.fiber f = .waiting io timer ∨ s.fiber f = .woken io timer)
    (hs : s.step f i = some (e, s')) : Move s.blocking (.hook (.step f i)) e s'.blocking := by
  rcases hpc with hpc | hpc
  · rw [step, hpc] at hs
    dsimp only at hs
    split at hs
    · next hwoken =>
      cases hs
      exact .resume hpc hwoken
    · cases hs
  · rw [step, hpc] at hs
    rcases Option.map_eq_some_iff.mp hs with ⟨u, hu, hnext⟩
    cases hnext
    exact .disarm hpc (blocking_cancelTimer hu)

theorem move_of_check {io : DoIo} (hpc : s.fiber f = .check io) (hs : s.step f i = some (e, s')) :
    Move s.blocking (.hook (.step f i)) e s'.blocking := by
  rw [step, hpc] at hs
  dsimp only at hs
  split at hs
  · cases hs
  · next tinfo htinfo =>
    split at hs
    · next hcancelled =>
      cases hs
      exact .giveUp hpc htinfo hcancelled
    · cases hs
      exact move_goesOn (.attempt { io with retry := true }) hpc rfl rfl rfl rfl rfl rfl rfl rfl

theorem move_of_socket {hooked : Bool} (hpc : s.fiber f = .socket hooked)
    (hs : s.step f i = some (e, s')) : Move s.blocking (.hook (.step f i)) e s'.blocking := by
  rw [step, hpc] at hs
  dsimp only at hs
  split at hs
  · cases hs
    exact move_aside .out hpc rfl rfl rfl
  split at hs
  · cases hs
  split at hs
  · cases hs
    exact move_aside (.adopt i.ret) hpc rfl rfl rfl
  · cases hs
    exact move_aside .out hpc rfl rfl rfl

/-- `FdManager` behind a call that has returned a descriptor. -/
theorem move_of_adopt {fd : Int} (hpc : s.fiber f = .adopt fd ∨ s.fiber f = .create fd)
    (hs : s.step f i = some (e, s')) : Move s.blocking (.hook (.step f i)) e s'.blocking := by
  rcases hpc with hpc | hpc
  · rw [step, hpc] at hs
    dsimp only at hs
    split at hs
    · cases hs
    · cases hs
      exact move_aside (.create fd) hpc rfl rfl rfl
    · cases hs
      exact move_aside .out hpc rfl rfl rfl
  · rw [step, hpc] at hs
    cases hs
    exact move_aside .out hpc rfl rfl rfl

/-- The end of `close`. -/
theorem move_of_close {fd : Int} (hpc : s.fiber f = .del fd ∨ s.fiber f = .close fd)
    (hs : s.step f i = some (e, s')) : Move s.blocking (.hook (.step f i)) e s'.blocking := by
  rcases hpc with hpc | hpc
  · rw [step, hpc] at hs
    rcases Option.map_eq_some_iff.mp hs with ⟨fds, -, hnext⟩
    cases hnext
    exact move_aside (.close fd) hpc rfl rfl rfl
  · rw [step, hpc] at hs
    dsimp only at hs
    split at hs
    · cases hs
      exact move_aside .out hpc rfl rfl rfl
    · cases hs
      exact move_aside .out hpc rfl rfl rfl

theorem move_of_step (hs : s.step f i = some (e, s')) :
    Move s.blocking (.hook (.step f i)) e s'.blocking := by
  cases hpc : s.fiber f with
  | out =>
    rw [step, hpc] at hs
    cases hs
  | direct fn fd =>
    rw [step, hpc] at hs
    rcases Option.map_eq_some_iff.mp hs with ⟨k, -, hfinish⟩
    unfold finish at hfinish
    split at hfinish
    · cases hfinish
      exact move_aside (.adopt i.ret) hpc rfl rfl rfl
    · cases hfinish
      exact move_aside .out hpc rfl rfl rfl
  | attempt io => exact move_of_attempt hpc hs
  | arm io => exact move_of_arm hpc hs
  | addEvent io timer => exact move_of_addEvent hpc hs
  | waiting io timer => exact move_of_wait (.inl hpc) hs
  | woken io timer => exact move_of_wait (.inr hpc) hs
  | check io => exact move_of_check hpc hs
  | socket hooked => exact move_of_socket hpc hs
  | adopt fd => exact move_of_adopt (.inl hpc) hs
  | create fd => exact move_of_adopt (.inr hpc) hs
  | del fd => exact move_of_close (.inl hpc) hs
  | close fd => exact move_of_close (.inr hpc) hs
  | cancelAll fd =>
    rw [step, hpc] at hs
    refine move_of_cancels ?_ ?_ ?_ rfl hs
    · rw [hpc]
      rfl
    · trivial
    · rw [hpc]
      rfl
  | cancelEvent fd event =>
    rw [step, hpc] at hs
    refine move_of_cancels ?_ ?_ ?_ rfl hs
    · rw [hpc]
      rfl
    · trivial
    · rw [hpc]
      rfl

end

theorem move_of_timeout {s s' : Hooks ω} {f : FiberId} {i : Nat} {e : HookEffect}
    (hout : s.fiber f = .out) (hs : s.timeout f i = some (e, s')) :
    Move s.blocking (.hook (.timeout f i)) e s'.blocking := by
  unfold timeout at hs
  split at hs
  · cases hs
  · next cb hcb =>
    dsimp only at hs
    split at hs
    · cases hs
      exact .late
    · next fn hrun =>
      split at hs
      · cases hs
      · next tinfo htinfo =>
        split at hs
        · cases hs
          exact .late
        · next hlive =>
          simp only [Bool.or_eq_true, Bool.not_eq_true', decide_eq_true_eq, not_or,
            Bool.not_eq_false, ne_eq, not_not] at hlive
          cases hs
          exact .timeout hout hcb hrun htinfo hlive.1 hlive.2

/-- A step of anybody is one of the moves. -/
theorem BlockingStep.move {s s' : Hooks ω} {e : BlockingEvent ω} (hs : BlockingStep s e s') :
    Move s.blocking e.1 e.2 s'.blocking := by
  rcases e with ⟨a, e⟩
  -- what a thread outside of the hooked calls does to the table
  have houtside : ∀ {w : ω} {op : TableOp Unit Unit (HookThread ω)},
      EventTable.threadOf op = .inr w → (∀ t c, op = .call t c → c.Cancels) →
      (s.actTable op).map (fun r => (({} : HookEffect), r.2)) = some (e, s') →
      Move s.blocking a e s'.blocking := by
    intro w op hthread hcancels h
    rcases Option.map_eq_some_iff.mp h with ⟨⟨ret, t⟩, hact, heq⟩
    obtain ⟨r, hr, -, ht⟩ := actTable_wake hact
    cases heq
    rw [ht]
    exact .outside hthread hcancels hr
  unfold BlockingStep at hs
  cases a with
  | hook a =>
    simp only [actBlocking, Hooks.act] at hs
    split at hs
    · cases hs
    cases a with
    | call f c hooked =>
      dsimp only at hs
      split at hs
      · next hout => exact move_of_call hout hs
      · cases hs
    | step f i => exact move_of_step hs
    | timeout f i =>
      dsimp only at hs
      split at hs
      · next hout => exact move_of_timeout hout hs
      · cases hs
    | expire nowTimer now =>
      rcases Option.map_eq_some_iff.mp hs with ⟨r, hr, hnext⟩
      cases hnext
      exact .expire hr
    | epollWait w reports => exact houtside rfl (fun _ _ h => by cases h) hs
    | dispatch w ok => exact houtside rfl (fun _ _ h => by cases h) hs
  | cancelEvent w fd event => exact houtside rfl (fun _ _ h => by cases h; trivial) hs
  | cancelAll w fd => exact houtside rfl (fun _ _ h => by cases h; trivial) hs
  | lock w ok => exact houtside rfl (fun _ _ h => by cases h) hs

end Hooks

end Azure
