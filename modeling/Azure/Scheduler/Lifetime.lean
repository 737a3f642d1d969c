import Azure.Scheduler.Conservation
import Azure.Scheduler.Resume

/-!
# The life of a fiber (`fiber.cpp`, `scheduler.cpp`)

A `Fiber` is destroyed when nobody points to it any more.  While its function runs or waits in a
yield, `cur` in `MainFunc` and in the yield keep it alive from its own stack.  Here the scheduler is
taken together with these pointers, with the idle fibers, and with the destructor.
-/

namespace Azure

open Reasoning

/-- `onStack` says that a fiber's own stack has a pointer to it, `idle` is the state of the
`idle_fiber` of a worker; `aborted` is set by a failed assertion that the scheduler does not know. -/
structure FiberLives (ω C : Type) where
  sched : Scheduler ω C := {}
  onStack : FiberId → Bool := fun _ => false
  idle : ω → FiberState := fun _ => .init
  destroyed : FiberId → Bool := fun _ => false
  aborted : Bool := false

inductive LifeAction (ω C : Type) where
  | run (a : Action ω C)
  /-- the last pointer to a fiber goes away -/
  | destroy (f : FiberId)
  deriving DecidableEq, Repr

/-- What `~Fiber` asserts of a fiber with a stack. -/
def FiberState.Over (state : FiberState) : Prop := state = .term ∨ state = .init ∨ state = .except

instance (state : FiberState) : Decidable state.Over := inferInstanceAs (Decidable (_ ∨ _))

def Action.pointers {ω C : Type} : Action ω C → List FiberId
  | .schedule (.fiber f) _ => f.toList
  | .scheduleAll fcs => fcs.flatMap fun
    | .fiber f => f.toList
    | .cb _ => []
  | _ => []

def Action.worker {ω C : Type} : Action ω C → Option ω
  | .await w | .work w _ | .yield w _ | .leaveIdle w _ => some w
  | _ => none

namespace FiberLives

variable {ω C : Type} [DecidableEq ω]

/-- `MainFunc` has `cur` until the function is over, and a yield has it until it returns. -/
def stackAfter (s : FiberLives ω C) : Action ω C → FiberId → Bool
  | .work w _ =>
    match (s.sched.worker w).pc with
    | .restore f _ => Function.update s.onStack f true
    | _ => s.onStack
  | .yield w state =>
    match (s.sched.worker w).pc with
    | .body f _ => Function.update s.onStack f (decide (state = .hold ∨ state = .ready))
    | _ => s.onStack
  | _ => s.onStack

/-- The states of the idle fibers, unless `swapIn` or `~Fiber` of one fails. -/
def idleAfter (s : FiberLives ω C) : Action ω C → Option (ω → FiberState)
  | .work w _ =>
    match (s.sched.worker w).pc with
    | .noTask false =>
      if (s.sched.worker w).idleTerm then if (s.idle w).Over then some s.idle else none
      else if s.idle w = .exec then none
      else some (Function.update s.idle w .exec)
    | _ => some s.idle
  | .leaveIdle w finished => some (Function.update s.idle w (if finished then .term else .hold))
  | _ => some s.idle

def run (tid : ω → Int) (s : FiberLives ω C) (a : Action ω C) : Option (FiberLives ω C) :=
  if s.aborted || a.pointers.any s.destroyed then none
  else
    (s.sched.act tid a).map fun r =>
      let s' := { s with sched := r.2, onStack := s.stackAfter a }
      match s.idleAfter a with
      | some idle => { s' with idle }
      | none => { s' with aborted := true }

def destroy (s : FiberLives ω C) (f : FiberId) : FiberLives ω C :=
  if (s.sched.stateOf f).Over then { s with destroyed := Function.update s.destroyed f true }
  else { s with aborted := true }

/-- Nothing in the scheduler points to the fiber, and its own stack does not. -/
structure Unreferenced (s : FiberLives ω C) (f : FiberId) : Prop where
  constructed : (s.sched.fiber f).isSome
  once : s.destroyed f = false
  queue : ∀ ft ∈ s.sched.fibers, ft.fiber ≠ some f
  waiting : f ∉ s.sched.waiting
  worker : ∀ w, (s.sched.worker w).pc ≠ .exited → ¬ (s.sched.worker w).Holds f
  stack : s.onStack f = false

def Failed (s : FiberLives ω C) : Prop := s.aborted = true ∨ s.sched.aborted = true

def Step (tid : ω → Int) (s : FiberLives ω C) (a : LifeAction ω C) (s' : FiberLives ω C) : Prop :=
  match a with
  | .run a => s.run tid a = some s'
  | .destroy f => ¬ s.Failed ∧ s.Unreferenced f ∧ s' = s.destroy f

/-- No body that `cb_fiber` holds ends by throwing, and no scan takes a fiber that a worker holds. -/
def Careful (tid : ω → Int) (s : FiberLives ω C) : LifeAction ω C → Prop
  | .run (.work w _) => ∀ f ∈ s.sched.takes tid w, ∀ v, ¬ (s.sched.worker v).Holds f
  | .run (.yield w state) => state = .except → ∀ f, (s.sched.worker w).pc ≠ .body f .cbFiber
  | _ => True

end FiberLives

end Azure
