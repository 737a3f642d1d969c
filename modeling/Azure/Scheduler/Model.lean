import Azure.Reasoning.Runs
import Mathlib.Logic.Function.Basic

/-!
# The scheduler (`scheduler.h`, `scheduler.cpp`, `fiber.cpp`)

Any number of workers execute `Scheduler::run` over one queue.  A worker is its program counter in
the loop; one step is one section under `m_mutex` or one access to state that other threads see:
the stores to `m_state`, the two halves of a context switch, the changes of
`m_activeThreadCount`.  What a fiber's body does between its switches, and what other threads do,
are the calls of `schedule`, the registrations and the firings of events and timers below.
-/

namespace Azure

abbrev FiberId := Nat

/-- `Fiber::State` -/
inductive FiberState where
  | init
  | hold
  | exec
  | term
  | ready
  | except
  deriving DecidableEq, Repr

/-- A fiber; `saved` says that `m_ctx` is where it stopped, or its entry point. -/
structure Fiber where
  state : FiberState := .init
  saved : Bool := true
  deriving DecidableEq, Repr

structure FiberAndThread (C : Type) where
  fiber : Option FiberId := none
  cb : Option C := none
  thread : Int := -1
  deriving DecidableEq, Repr

/-- What `schedule` is called with; the pointer or the function may be null. -/
inductive FiberOrCb (C : Type) where
  | fiber (f : Option FiberId)
  | cb (c : Option C)
  deriving DecidableEq, Repr

def FiberAndThread.of {C : Type} (thread : Int) : FiberOrCb C → FiberAndThread C
  | .fiber f => { fiber := f, thread }
  | .cb c => { cb := c, thread }

/-- The pointer `run` holds a fiber by. -/
inductive Via where
  | ft
  | cbFiber
  deriving DecidableEq, Repr

inductive Pc (C : Type) where
  /-- at the top of the loop -/
  | scan
  /-- behind the locked section, with `ft` and `is_active` -/
  | branch (ft : FiberAndThread C) (isActive : Bool)
  /-- in `swapIn`, before the store of `EXEC` -/
  | swapIn (f : FiberId) (via : Via)
  /-- in `swapIn`, before the context switch -/
  | restore (f : FiberId) (via : Via)
  /-- executing the fiber's body -/
  | body (f : FiberId) (via : Via)
  /-- in `swapOut`, behind the body's store to `m_state` -/
  | save (f : FiberId) (via : Via)
  /-- behind `swapIn` -/
  | decrement (f : FiberId) (via : Via)
  /-- behind `--m_activeThreadCount` -/
  | test (f : FiberId) (via : Via)
  /-- about to schedule a `READY` fiber again -/
  | requeue (f : FiberId) (via : Via)
  /-- about to store `HOLD` -/
  | storeHold (f : FiberId) (via : Via)
  /-- about to call `cb_fiber->reset(nullptr)` -/
  | resetCb (f : FiberId)
  /-- in the branch without a task -/
  | noTask (isActive : Bool)
  /-- in the idle fiber -/
  | idle
  /-- returned from `run` -/
  | exited
  deriving DecidableEq, Repr

structure Worker (C : Type) where
  pc : Pc C := .scan
  cbFiber : Option FiberId := none
  idleTerm : Bool := false
  deriving DecidableEq, Repr

/-- `waiting` holds the fibers that `addEvent` and `addTimer` have made reachable; `aborted` is set
by a failed `AZURE_ASSERT`. -/
structure Scheduler (ω C : Type) where
  fibers : List (FiberAndThread C) := []
  activeThreadCount : Int := 0
  idleThreadCount : Int := 0
  fiber : FiberId → Option Fiber := fun _ => none
  waiting : List FiberId := []
  worker : ω → Worker C := fun _ => {}
  aborted : Bool := false

inductive Action (ω C : Type) where
  /-- somebody constructs a fiber -/
  | create (f : FiberId)
  /-- `schedule(fc, thread)` -/
  | schedule (fc : FiberOrCb C) (thread : Int)
  /-- `schedule(begin, end)` -/
  | scheduleAll (fcs : List (FiberOrCb C))
  /-- the body a worker executes registers its own fiber with `addEvent` or `addTimer` -/
  | await (w : ω)
  /-- an event or a timer enqueues a fiber that waits for it -/
  | fire (f : FiberId)
  /-- the next step of a worker in `run`; a new `Fiber` would be at `fresh` -/
  | work (w : ω) (fresh : FiberId)
  /-- the body stores `state`, on its way out -/
  | yield (w : ω) (state : FiberState)
  /-- the idle fiber switches out, or ends -/
  | leaveIdle (w : ω) (finished : Bool)
  deriving DecidableEq, Repr

structure Effect (C : Type) where
  accepted : List (FiberAndThread C) := []
  scanned : Bool := false
  dequeued : Option (FiberAndThread C) := none
  handed : Option C := none
  decremented : Bool := false
  deriving DecidableEq, Repr

namespace Scheduler

variable {ω C : Type} [DecidableEq ω]

inductive Scan (C : Type) where
  | none
  | found (ft : FiberAndThread C) (rest : List (FiberAndThread C))
  | assertFailed
  deriving DecidableEq, Repr

/-- The loop over `m_fibers`: entries of other threads and executing fibers are passed over. -/
def scanFrom (tid : Int) (isExec : FiberId → Bool) : List (FiberAndThread C) → Scan C
  | [] => .none
  | it :: rest =>
    let pass :=
      match scanFrom tid isExec rest with
      | .found ft rest => .found ft (it :: rest)
      | r => r
    -- an entry of another thread; the worker would tell the others
    if it.thread ≠ -1 ∧ it.thread ≠ tid then pass
    else
      match it.fiber, it.cb with
      -- `AZURE_ASSERT(it->fiber || it->cb)`
      | none, none => .assertFailed
      | some f, _ => if isExec f then pass else .found it rest
      | none, some _ => .found it rest

def stateOf (s : Scheduler ω C) (f : FiberId) : FiberState :=
  match s.fiber f with
  | some fb => fb.state
  | none => .init

def setFiber (s : Scheduler ω C) (f : FiberId) (fb : Fiber) : Scheduler ω C :=
  { s with fiber := Function.update s.fiber f (some fb) }

def storeState (s : Scheduler ω C) (f : FiberId) (state : FiberState) : Scheduler ω C :=
  { s with fiber := Function.update s.fiber f ((s.fiber f).map fun fb => { fb with state }) }

/-- `m_ctx` becomes, or stops being, where the fiber stopped. -/
def setSaved (s : Scheduler ω C) (f : FiberId) (saved : Bool) : Scheduler ω C :=
  { s with fiber := Function.update s.fiber f ((s.fiber f).map fun fb => { fb with saved }) }

def setWorker (s : Scheduler ω C) (w : ω) (wk : Worker C) : Scheduler ω C :=
  { s with worker := Function.update s.worker w wk }

def goto (s : Scheduler ω C) (w : ω) (pc : Pc C) : Scheduler ω C :=
  s.setWorker w { s.worker w with pc }

def release (s : Scheduler ω C) (w : ω) (via : Via) : Scheduler ω C :=
  let cbFiber :=
    match via with
    | .ft => (s.worker w).cbFiber
    | .cbFiber => none
  s.setWorker w { s.worker w with cbFiber }

/-- `Fiber::reset` of `cb_fiber`; `none` when its assertion fails. -/
def resetFiber (s : Scheduler ω C) (f : FiberId) : Option (Scheduler ω C) :=
  if s.stateOf f = .term ∨ s.stateOf f = .init then some (s.setFiber f {}) else none

/-- The entries `scheduleNoLock` appends: null pointers and functions are dropped. -/
def entries (thread : Int) (fcs : List (FiberOrCb C)) : List (FiberAndThread C) :=
  (fcs.map (FiberAndThread.of thread)).filter fun ft => ft.fiber.isSome || ft.cb.isSome

def valid (s : Scheduler ω C) (fcs : List (FiberOrCb C)) : Bool :=
  fcs.all fun
    | .fiber (some f) => (s.fiber f).isSome
    | _ => true

/-- One section under `m_mutex` that calls `scheduleNoLock` for each argument. -/
def push (s : Scheduler ω C) (thread : Int) (fcs : List (FiberOrCb C)) :
    Effect C × Scheduler ω C :=
  ({ accepted := entries thread fcs }, { s with fibers := s.fibers ++ entries thread fcs })

def abort (s : Scheduler ω C) : Effect C × Scheduler ω C := ({}, { s with aborted := true })

/-- The next step of a worker in `run`, unless it is in a body or in the idle fiber. -/
def work (tid : ω → Int) (s : Scheduler ω C) (w : ω) (fresh : FiberId) :
    Option (Effect C × Scheduler ω C) :=
  match (s.worker w).pc with
  -- under `m_mutex`, from the loop to `++m_activeThreadCount`
  | .scan =>
    match scanFrom (tid w) (fun f => s.stateOf f == .exec) s.fibers with
    | .none => some ({ scanned := true }, s.goto w (.branch {} false))
    | .assertFailed => some s.abort
    | .found ft rest =>
      some ({ scanned := true, dequeued := some ft },
        { s with fibers := rest, activeThreadCount := s.activeThreadCount + 1 }.goto w
          (.branch ft true))
  | .branch ft isActive =>
    match ft.fiber.filter fun f => s.stateOf f ≠ .term ∧ s.stateOf f ≠ .except with
    | some f => some ({}, s.goto w (.swapIn f .ft))
    | none =>
      -- no fiber, or one that has terminated since it was scheduled
      match ft.cb with
      | none => some ({}, s.goto w (.noTask isActive))
      | some cb =>
        match (s.worker w).cbFiber with
        | some f =>
          -- the fiber of the last callback is used again
          match s.resetFiber f with
          | some s => some ({ handed := some cb }, s.goto w (.swapIn f .cbFiber))
          | none => some s.abort
        | none =>
          if (s.fiber fresh).isSome then none
          else
            some ({ handed := some cb }, (s.setFiber fresh {}).setWorker w
              { s.worker w with pc := .swapIn fresh .cbFiber, cbFiber := some fresh })
  | .swapIn f via =>
    -- `AZURE_ASSERT(m_state != EXEC)`
    if s.stateOf f = .exec then some s.abort
    else some ({}, (s.storeState f .exec).goto w (.restore f via))
  | .restore f via => some ({}, (s.setSaved f false).goto w (.body f via))
  | .body _ _ => none
  | .save f via => some ({}, (s.setSaved f true).goto w (.decrement f via))
  | .decrement f via =>
    some ({ decremented := true },
      { s with activeThreadCount := s.activeThreadCount - 1 }.goto w (.test f via))
  | .test f via =>
    -- the state is read again, behind the count
    match s.stateOf f, via with
    | .ready, _ => some ({}, s.goto w (.requeue f via))
    | .term, .ft | .except, .ft => some ({}, s.goto w .scan)
    | .term, .cbFiber | .except, .cbFiber => some ({}, s.goto w (.resetCb f))
    | _, _ => some ({}, s.goto w (.storeHold f via))
  | .requeue f via =>
    -- any thread may take it
    let r := s.push (-1) [.fiber (some f)]
    some (r.1, (r.2.release w via).goto w .scan)
  | .storeHold f via => some ({}, ((s.storeState f .hold).release w via).goto w .scan)
  | .resetCb f =>
    match s.resetFiber f with
    | some s => some ({}, s.goto w .scan)
    | none => some s.abort
  -- `is_active` without a task: the fiber has terminated
  | .noTask true =>
    some ({ decremented := true },
      { s with activeThreadCount := s.activeThreadCount - 1 }.goto w (.noTask false))
  | .noTask false =>
    if (s.worker w).idleTerm then some ({}, s.goto w .exited)
    else some ({}, { s with idleThreadCount := s.idleThreadCount + 1 }.goto w .idle)
  | .idle => none
  | .exited => none

def act (tid : ω → Int) (s : Scheduler ω C) (a : Action ω C) :
    Option (Effect C × Scheduler ω C) :=
  if s.aborted then none
  else
    match a with
    | .create f => if (s.fiber f).isSome then none else some ({}, s.setFiber f {})
    | .schedule fc thread => if s.valid [fc] then some (s.push thread [fc]) else none
    | .scheduleAll fcs => if s.valid fcs then some (s.push (-1) fcs) else none
    | .await w =>
      match (s.worker w).pc with
      | .body f _ => some ({}, { s with waiting := s.waiting ++ [f] })
      | _ => none
    | .fire f =>
      if f ∈ s.waiting then
        some ({ s with waiting := s.waiting.erase f }.push (-1) [.fiber (some f)])
      else none
    | .work w fresh => s.work tid w fresh
    | .yield w state =>
      match (s.worker w).pc with
      | .body f via =>
        -- a body leaves by `YieldToHold`, `YieldToReady` or its end
        if state = .init ∨ state = .exec then none
        else some ({}, (s.storeState f state).goto w (.save f via))
      | _ => none
    | .leaveIdle w finished =>
      match (s.worker w).pc with
      | .idle =>
        some ({}, { s with idleThreadCount := s.idleThreadCount - 1 }.setWorker w
          { s.worker w with pc := .scan, idleTerm := finished })
      | _ => none

abbrev Event (ω C : Type) := Action ω C × Effect C

def Step (tid : ω → Int) (s : Scheduler ω C) (e : Event ω C) (s' : Scheduler ω C) : Prop :=
  s.act tid e.1 = some (e.2, s')

end Scheduler

end Azure
