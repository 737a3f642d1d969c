import Azure.IOManager.Events
import Azure.Timer.Model

/-!
# The IO manager (`iomanager.cpp`)

An `IOManager` is a `Scheduler`, a `TimerManager` and the event table, and what ties them together
is `idle`: the steps below go to the model of the part that takes them.  The workers' bodies, and
outside threads until `stop`, schedule, arm timers and register events; a worker in its idle fiber
reads the three conditions of `stopping` one after the other, waits, collects the expired callbacks,
schedules them and dispatches what `epoll_wait` reported.
-/

namespace Azure

inductive IdlePc (F W : Type) where
  /-- in `stopping`, before `getNextTimer` -/
  | stopTimers
  /-- in `stopping`, with the timeout `~0ull`, before the read of `m_pendingEventCount` -/
  | stopPending
  /-- in `stopping`, before `Scheduler::stopping` -/
  | stopQueue
  /-- before `epoll_wait` -/
  | wait
  /-- before `listExpiredCb` -/
  | expire
  /-- with the collected callbacks, before they are scheduled -/
  | flush (cbs : List (Option (Callback F W)))
  /-- in the loop over the reports -/
  | dispatch
  /-- before `swapOut` -/
  | swapOut
  /-- behind the loop -/
  | finished
  deriving DecidableEq, Repr

abbrev Thread (ω ν : Type) := ω ⊕ ν

structure IOManager (ω ν F W : Type) where
  scheduler : Scheduler ω (Callback F W) := {}
  table : EventTable Unit (Callback F W) (Thread ω ν) := .new
  timers : TimerManager F W
  idle : ω → IdlePc F W := fun _ => .stopTimers
  autostop : Bool := false
  stopping : Bool := false

inductive ClientCall (ω ν F W : Type) where
  | create (f : FiberId)
  | schedule (fc : FiberOrCb (Callback F W)) (thread : Int)
  | scheduleAll (fcs : List (FiberOrCb (Callback F W)))
  | table (op : TableOp Unit (Callback F W) (Thread ω ν))
  | timer (op : TimerOp F W)

structure IdleInput where
  now : UInt64 := 0
  nowTimer : Addr := 0
  reports : List (CtxAddr × EpollEvents) := []
  ok : Bool := true
  deriving DecidableEq, Repr

inductive IoAction (ω ν F W : Type) where
  /-- the stores of `stop` -/
  | autostop
  | stopping
  /-- an outside thread -/
  | outside (t : ν) (call : ClientCall ω ν F W)
  /-- the body a worker executes -/
  | body (w : ω) (call : ClientCall ω ν F W)
  /-- the body stores `state`, on its way out -/
  | yield (w : ω) (state : FiberState)
  /-- the next step of a worker in `run` -/
  | work (w : ω) (fresh : FiberId)
  /-- the next step of a worker's idle fiber -/
  | idle (w : ω) (input : IdleInput)

def Caller.isOut {S C : Type} : Caller S C → Bool
  | .out => true
  | _ => false

def Caller.isLast {S C : Type} : Caller S C → Bool
  | .dispatch reports => reports.isEmpty
  | _ => false

def Pc.isIdle {C : Type} : Pc C → Bool
  | .idle => true
  | _ => false

def TableOp.calledBy {S C τ : Type} [DecidableEq τ] (t : τ) : TableOp S C τ → Bool
  | .call v _ | .resize v | .lock v _ => v = t
  | .epollWait .. | .dispatch .. => false

def TableOp.registers {S C τ : Type} (f : FiberId) : TableOp S C τ → Bool
  | .call _ (.addEvent _ _ _ _ fiber) => fiber = f
  | _ => true

def TimerOp.byClient {F W : Type} : TimerOp F W → Bool
  | .getNextTimer _ | .listExpiredCb .. => false
  | _ => true

namespace IOManager

variable {ω ν F W : Type} [DecidableEq ω] [DecidableEq ν]

def new (now : UInt64) : IOManager ω ν F W := { timers := .new now }

def schedulerStopping (s : IOManager ω ν F W) : Bool :=
  s.autostop && s.stopping && s.scheduler.fibers.isEmpty && s.scheduler.activeThreadCount == 0

def goIdle (s : IOManager ω ν F W) (w : ω) (pc : IdlePc F W) : IOManager ω ν F W :=
  { s with idle := Function.update s.idle w pc }

def actScheduler (tid : ω → Int) (s : IOManager ω ν F W) (a : Action ω (Callback F W)) :
    Option (IOManager ω ν F W) :=
  (s.scheduler.act tid a).map fun r => { s with scheduler := r.2 }

def scheduleEach (tid : ω → Int) (s : IOManager ω ν F W) :
    List (Unit × FiberOrCb (Callback F W)) → Option (IOManager ω ν F W)
  | [] => some s
  | (_, fc) :: rest =>
    (s.actScheduler tid (.schedule fc (-1))).bind fun s => s.scheduleEach tid rest

def actTable (tid : ω → Int) (s : IOManager ω ν F W)
    (op : TableOp Unit (Callback F W) (Thread ω ν)) : Option (IOManager ω ν F W) :=
  (s.table.act op).bind fun r => { s with table := r.2 }.scheduleEach tid r.1.scheduled

def actTimers (s : IOManager ω ν F W) (op : TimerOp F W) :
    Option (TimerEffect F W × IOManager ω ν F W) :=
  (s.timers.call op).map fun r => (r.1, { s with timers := r.2 })

/-- A call from a body or from outside.  A thread inside a call on the table finishes it first. -/
def client (tid : ω → Int) (s : IOManager ω ν F W) (t : Thread ω ν) :
    ClientCall ω ν F W → Option (IOManager ω ν F W)
  | .table op => if op.calledBy t then s.actTable tid op else none
  | .create f => if (s.table.caller t).isOut then s.actScheduler tid (.create f) else none
  | .schedule fc thread =>
    if (s.table.caller t).isOut then s.actScheduler tid (.schedule fc thread) else none
  | .scheduleAll fcs =>
    if (s.table.caller t).isOut then s.actScheduler tid (.scheduleAll fcs) else none
  | .timer op =>
    if (s.table.caller t).isOut && op.byClient then (s.actTimers op).map Prod.snd else none

def actIdle (tid : ω → Int) (s : IOManager ω ν F W) (w : ω) (i : IdleInput) :
    Option (IOManager ω ν F W) :=
  match s.idle w with
  -- the worker may stop when there is no timer, no pending event and no task
  | .stopTimers =>
    (s.actTimers (.getNextTimer i.now)).map fun r =>
      r.2.goIdle w (if r.1.timeout = some (~~~0) then .stopPending else .wait)
  | .stopPending => some (s.goIdle w (if s.table.pendingEventCount = 0 then .stopQueue else .wait))
  | .stopQueue => some (s.goIdle w (if s.schedulerStopping then .finished else .wait))
  | .wait => (s.actTable tid (.epollWait (.inl w) i.reports)).map fun s => s.goIdle w .expire
  -- callbacks are scheduled together, and only when there are any
  | .expire =>
    (s.actTimers (.listExpiredCb i.nowTimer i.now)).map fun r =>
      r.2.goIdle w
        (if r.1.collected.isEmpty then .dispatch else .flush (r.1.collected.map Prod.snd))
  | .flush cbs =>
    (s.actScheduler tid (.scheduleAll (cbs.map .cb))).map fun s => s.goIdle w .dispatch
  | .dispatch =>
    -- behind the last report the loop ends
    let last := (s.table.caller (.inl w)).isLast
    (s.actTable tid (.dispatch (.inl w) i.ok)).map fun s =>
      s.goIdle w (if last then .swapOut else .dispatch)
  | .swapOut => (s.actScheduler tid (.leaveIdle w false)).map fun s => s.goIdle w .stopTimers
  | .finished => s.actScheduler tid (.leaveIdle w true)

/-- One step; outside threads are silent from `stop` on, and nothing happens after a failed
assertion. -/
def act (tid : ω → Int) (s : IOManager ω ν F W) (a : IoAction ω ν F W) :
    Option (IOManager ω ν F W) :=
  if s.scheduler.aborted || s.table.aborted then none
  else
    match a with
    | .autostop => some { s with autostop := true }
    -- `stop` stores to `m_autostop` first
    | .stopping => if s.autostop then some { s with stopping := true } else none
    | .outside t call => if s.autostop then none else s.client tid (.inr t) call
    | .body w call =>
      match (s.scheduler.worker w).pc with
      | .body f _ =>
        match call with
        -- an event is registered for the fiber that asks
        | .table op => if op.registers f then s.client tid (.inl w) call else none
        | _ => s.client tid (.inl w) call
      | _ => none
    | .yield w state =>
      if (s.table.caller (.inl w)).isOut then s.actScheduler tid (.yield w state) else none
    | .work w fresh => s.actScheduler tid (.work w fresh)
    | .idle w i => if (s.scheduler.worker w).pc.isIdle then s.actIdle tid w i else none

def Step (tid : ω → Int) : IOManager ω ν F W → IoAction ω ν F W → IOManager ω ν F W → Prop :=
  Reasoning.Steps (act tid)

end IOManager

end Azure
