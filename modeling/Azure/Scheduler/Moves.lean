import Azure.Scheduler.Model

/-!
# What one step of the scheduler can do

`Move` is the step function read backwards: one case for each branch of `run`, with the condition
the branch is taken under and the state it leaves.  Every invariant below is a case analysis of it,
and nothing else unfolds the step function.
-/

namespace Azure

namespace Scheduler

variable {ω C : Type} [DecidableEq ω]

/-! ## The scan -/

structure Eligible (tid : Int) (isExec : FiberId → Bool) (ft : FiberAndThread C) : Prop where
  thread : ft.thread = -1 ∨ ft.thread = tid
  notExec : ∀ f, ft.fiber = some f → isExec f = false

def Scan.pass (it : FiberAndThread C) : Scan C → Scan C
  | .found ft rest => .found ft (it :: rest)
  | r => r

theorem scanFrom_found {tid : Int} {isExec : FiberId → Bool} {q : List (FiberAndThread C)}
    {ft : FiberAndThread C} {rest : List (FiberAndThread C)}
    (h : scanFrom tid isExec q = .found ft rest) :
    q.Perm (ft :: rest) ∧ Eligible tid isExec ft := by
  induction q generalizing rest with
  | nil => cases h
  | cons it q ih =>
    -- an entry that is passed over stays in front of what the rest of the scan leaves
    have hpass : (scanFrom tid isExec q).pass it = .found ft rest →
        (it :: q).Perm (ft :: rest) ∧ Eligible tid isExec ft := by
      intro hp
      cases hq : scanFrom tid isExec q with
      | none => rw [hq] at hp; cases hp
      | assertFailed => rw [hq] at hp; cases hp
      | found ft' rest' =>
        rw [hq] at hp
        cases hp
        exact ⟨((ih hq).1.cons it).trans (.swap _ _ _), (ih hq).2⟩
    unfold scanFrom at h
    dsimp only at h
    split at h
    · exact hpass h
    · next hthread =>
      have hown : it.thread = -1 ∨ it.thread = tid := by
        by_cases hany : it.thread = -1
        · exact Or.inl hany
        · exact Or.inr (by_contra fun hne => hthread ⟨hany, hne⟩)
      cases hf : it.fiber with
      | some f =>
        simp only [hf] at h
        split at h
        · exact hpass h
        · next hexec =>
          cases h
          refine ⟨.refl _, hown, fun g hg => ?_⟩
          rw [hf] at hg
          cases hg
          simpa using hexec
      | none =>
        cases hcb : it.cb with
        | none =>
          simp only [hf, hcb] at h
          cases h
        | some cb =>
          simp only [hf, hcb] at h
          cases h
          exact ⟨.refl _, hown, fun g hg => by rw [hf] at hg; cases hg⟩

/-! ## The moves -/

inductive Move (tid : ω → Int) (s : Scheduler ω C) :
    Action ω C → Effect C → Scheduler ω C → Prop
  | create {f : FiberId} (hfree : s.fiber f = none) : Move tid s (.create f) {} (s.setFiber f {})
  | schedule {fc : FiberOrCb C} {thread : Int} (hvalid : s.valid [fc] = true) :
      Move tid s (.schedule fc thread) (s.push thread [fc]).1 (s.push thread [fc]).2
  | scheduleAll {fcs : List (FiberOrCb C)} (hvalid : s.valid fcs = true) :
      Move tid s (.scheduleAll fcs) (s.push (-1) fcs).1 (s.push (-1) fcs).2
  | await {w : ω} {f : FiberId} {via : Via} (hpc : (s.worker w).pc = .body f via) :
      Move tid s (.await w) {} { s with waiting := s.waiting ++ [f] }
  | fire {f : FiberId} (hwait : f ∈ s.waiting) :
      Move tid s (.fire f) (s.push (-1) [.fiber (some f)]).1
        ({ s with waiting := s.waiting.erase f }.push (-1) [.fiber (some f)]).2
  | yield {w : ω} {f : FiberId} {via : Via} {state : FiberState}
      (hpc : (s.worker w).pc = .body f via) (hout : state ≠ .init ∧ state ≠ .exec) :
      Move tid s (.yield w state) {} ((s.storeState f state).goto w (.save f via))
  | leaveIdle {w : ω} {finished : Bool} (hpc : (s.worker w).pc = .idle) :
      Move tid s (.leaveIdle w finished) {}
        ({ s with idleThreadCount := s.idleThreadCount - 1 }.setWorker w
          { s.worker w with pc := .scan, idleTerm := finished })
  | assertFailed {w : ω} {fresh : FiberId} :
      Move tid s (.work w fresh) {} { s with aborted := true }
  | scanNone {w : ω} {fresh : FiberId} (hpc : (s.worker w).pc = .scan)
      (hscan : scanFrom (tid w) (fun f => s.stateOf f == .exec) s.fibers = .none) :
      Move tid s (.work w fresh) { scanned := true } (s.goto w (.branch {} false))
  | scanFound {w : ω} {fresh : FiberId} {ft : FiberAndThread C} {rest : List (FiberAndThread C)}
      (hpc : (s.worker w).pc = .scan)
      (hscan : scanFrom (tid w) (fun f => s.stateOf f == .exec) s.fibers = .found ft rest) :
      Move tid s (.work w fresh) { scanned := true, dequeued := some ft }
        ({ s with fibers := rest, activeThreadCount := s.activeThreadCount + 1 }.goto w
          (.branch ft true))
  | branchFiber {w : ω} {fresh : FiberId} {ft : FiberAndThread C} {isActive : Bool} {f : FiberId}
      (hpc : (s.worker w).pc = .branch ft isActive) (hf : ft.fiber = some f)
      (hlive : s.stateOf f ≠ .term ∧ s.stateOf f ≠ .except) :
      Move tid s (.work w fresh) {} (s.goto w (.swapIn f .ft))
  | branchReset {w : ω} {fresh : FiberId} {ft : FiberAndThread C} {isActive : Bool} {cb : C}
      {f : FiberId} (hpc : (s.worker w).pc = .branch ft isActive) (hcb : ft.cb = some cb)
      (hheld : (s.worker w).cbFiber = some f) (hover : s.stateOf f = .term ∨ s.stateOf f = .init) :
      Move tid s (.work w fresh) { handed := some cb }
        ((s.setFiber f {}).goto w (.swapIn f .cbFiber))
  | branchNew {w : ω} {fresh : FiberId} {ft : FiberAndThread C} {isActive : Bool} {cb : C}
      (hpc : (s.worker w).pc = .branch ft isActive) (hcb : ft.cb = some cb)
      (hheld : (s.worker w).cbFiber = none) (hfree : s.fiber fresh = none) :
      Move tid s (.work w fresh) { handed := some cb }
        ((s.setFiber fresh {}).setWorker w
          { s.worker w with pc := .swapIn fresh .cbFiber, cbFiber := some fresh })
  | branchNone {w : ω} {fresh : FiberId} {ft : FiberAndThread C} {isActive : Bool}
      (hpc : (s.worker w).pc = .branch ft isActive) (hcb : ft.cb = none) :
      Move tid s (.work w fresh) {} (s.goto w (.noTask isActive))
  | swapIn {w : ω} {fresh f : FiberId} {via : Via} (hpc : (s.worker w).pc = .swapIn f via)
      (hstate : s.stateOf f ≠ .exec) :
      Move tid s (.work w fresh) {} ((s.storeState f .exec).goto w (.restore f via))
  | restore {w : ω} {fresh f : FiberId} {via : Via} (hpc : (s.worker w).pc = .restore f via) :
      Move tid s (.work w fresh) {} ((s.setSaved f false).goto w (.body f via))
  | save {w : ω} {fresh f : FiberId} {via : Via} (hpc : (s.worker w).pc = .save f via) :
      Move tid s (.work w fresh) {} ((s.setSaved f true).goto w (.decrement f via))
  | decrement {w : ω} {fresh f : FiberId} {via : Via} (hpc : (s.worker w).pc = .decrement f via) :
      Move tid s (.work w fresh) { decremented := true }
        ({ s with activeThreadCount := s.activeThreadCount - 1 }.goto w (.test f via))
  | testReady {w : ω} {fresh f : FiberId} {via : Via} (hpc : (s.worker w).pc = .test f via)
      (hstate : s.stateOf f = .ready) :
      Move tid s (.work w fresh) {} (s.goto w (.requeue f via))
  | testOver {w : ω} {fresh f : FiberId} (hpc : (s.worker w).pc = .test f .ft)
      (hstate : s.stateOf f = .term ∨ s.stateOf f = .except) :
      Move tid s (.work w fresh) {} (s.goto w .scan)
  | testReset {w : ω} {fresh f : FiberId} (hpc : (s.worker w).pc = .test f .cbFiber)
      (hstate : s.stateOf f = .term ∨ s.stateOf f = .except) :
      Move tid s (.work w fresh) {} (s.goto w (.resetCb f))
  | testHold {w : ω} {fresh f : FiberId} {via : Via} (hpc : (s.worker w).pc = .test f via)
      (hstate : s.stateOf f = .hold ∨ s.stateOf f = .init ∨ s.stateOf f = .exec) :
      Move tid s (.work w fresh) {} (s.goto w (.storeHold f via))
  | requeue {w : ω} {fresh f : FiberId} {via : Via} (hpc : (s.worker w).pc = .requeue f via) :
      Move tid s (.work w fresh) (s.push (-1) [.fiber (some f)]).1
        (((s.push (-1) [.fiber (some f)]).2.release w via).goto w .scan)
  | storeHold {w : ω} {fresh f : FiberId} {via : Via} (hpc : (s.worker w).pc = .storeHold f via) :
      Move tid s (.work w fresh) {} (((s.storeState f .hold).release w via).goto w .scan)
  | resetCb {w : ω} {fresh f : FiberId} (hpc : (s.worker w).pc = .resetCb f)
      (hover : s.stateOf f = .term ∨ s.stateOf f = .init) :
      Move tid s (.work w fresh) {} ((s.setFiber f {}).goto w .scan)
  | noTask {w : ω} {fresh : FiberId} (hpc : (s.worker w).pc = .noTask true) :
      Move tid s (.work w fresh) { decremented := true }
        ({ s with activeThreadCount := s.activeThreadCount - 1 }.goto w (.noTask false))
  | exit {w : ω} {fresh : FiberId} (hpc : (s.worker w).pc = .noTask false)
      (hidle : (s.worker w).idleTerm = true) :
      Move tid s (.work w fresh) {} (s.goto w .exited)
  | enterIdle {w : ω} {fresh : FiberId} (hpc : (s.worker w).pc = .noTask false)
      (hidle : (s.worker w).idleTerm = false) :
      Move tid s (.work w fresh) {}
        ({ s with idleThreadCount := s.idleThreadCount + 1 }.goto w .idle)

omit [DecidableEq ω] in
theorem resetFiber_some {s s' : Scheduler ω C} {f : FiberId} (h : s.resetFiber f = some s') :
    (s.stateOf f = .term ∨ s.stateOf f = .init) ∧ s' = s.setFiber f {} := by
  unfold resetFiber at h
  split at h
  · next hover =>
    cases h
    exact ⟨hover, rfl⟩
  · cases h

theorem move_of_branch {tid : ω → Int} {s s' : Scheduler ω C} {w : ω} {fresh : FiberId}
    {e : Effect C} {ft : FiberAndThread C} {isActive : Bool}
    (hpc : (s.worker w).pc = .branch ft isActive) (h : s.work tid w fresh = some (e, s')) :
    Move tid s (.work w fresh) e s' := by
  simp only [work, hpc] at h
  cases hf : ft.fiber.filter fun f => s.stateOf f ≠ .term ∧ s.stateOf f ≠ .except with
  | some f =>
    rw [hf] at h
    cases h
    rcases Option.filter_eq_some_iff.mp hf with ⟨hfiber, hlive⟩
    exact .branchFiber hpc hfiber (by simpa using hlive)
  | none =>
    rw [hf] at h
    cases hcb : ft.cb with
    | none =>
      rw [hcb] at h
      cases h
      exact .branchNone hpc hcb
    | some cb =>
      rw [hcb] at h
      dsimp only at h
      cases hheld : (s.worker w).cbFiber with
      | some f =>
        rw [hheld] at h
        dsimp only at h
        cases hreset : s.resetFiber f with
        | none =>
          rw [hreset] at h
          cases h
          exact .assertFailed
        | some s'' =>
          rw [hreset] at h
          cases h
          rcases resetFiber_some hreset with ⟨hover, rfl⟩
          exact .branchReset hpc hcb hheld hover
      | none =>
        rw [hheld] at h
        dsimp only at h
        split at h
        · cases h
        · next hfree =>
          cases h
          exact .branchNew hpc hcb hheld (by simpa using hfree)

theorem move_of_work {tid : ω → Int} {s s' : Scheduler ω C} {w : ω} {fresh : FiberId}
    {e : Effect C} (h : s.work tid w fresh = some (e, s')) : Move tid s (.work w fresh) e s' := by
  cases hpc : (s.worker w).pc with
  | branch ft isActive => exact move_of_branch hpc h
  | scan =>
    simp only [work, hpc] at h
    cases hscan : scanFrom (tid w) (fun f => s.stateOf f == .exec) s.fibers with
    | none => rw [hscan] at h; cases h; exact .scanNone hpc hscan
    | assertFailed => rw [hscan] at h; cases h; exact .assertFailed
    | found ft rest => rw [hscan] at h; cases h; exact .scanFound hpc hscan
  | swapIn f via =>
    simp only [work, hpc] at h
    split at h
    · cases h; exact .assertFailed
    · next hstate => cases h; exact .swapIn hpc hstate
  | restore f via => simp only [work, hpc] at h; cases h; exact .restore hpc
  | body f via => simp only [work, hpc] at h; cases h
  | save f via => simp only [work, hpc] at h; cases h; exact .save hpc
  | decrement f via => simp only [work, hpc] at h; cases h; exact .decrement hpc
  | test f via =>
    simp only [work, hpc] at h
    cases hstate : s.stateOf f <;> cases via <;> simp only [hstate] at h <;> cases h
    all_goals first
      | exact .testReady hpc hstate
      | exact .testOver hpc (by simp [hstate])
      | exact .testReset hpc (by simp [hstate])
      | exact .testHold hpc (by simp [hstate])
  | requeue f via => simp only [work, hpc] at h; cases h; exact .requeue hpc
  | storeHold f via => simp only [work, hpc] at h; cases h; exact .storeHold hpc
  | resetCb f =>
    simp only [work, hpc] at h
    cases hreset : s.resetFiber f with
    | none => rw [hreset] at h; cases h; exact .assertFailed
    | some s'' =>
      rw [hreset] at h
      cases h
      rcases resetFiber_some hreset with ⟨hover, rfl⟩
      exact .resetCb hpc hover
  | noTask isActive =>
    cases isActive with
    | true => simp only [work, hpc] at h; cases h; exact .noTask hpc
    | false =>
      simp only [work, hpc] at h
      split at h
      · next hidle => cases h; exact .exit hpc hidle
      · next hidle => cases h; exact .enterIdle hpc (by simpa using hidle)
  | idle => simp only [work, hpc] at h; cases h
  | exited => simp only [work, hpc] at h; cases h

/-- Every step is one of the moves. -/
theorem move_of_act {tid : ω → Int} {s s' : Scheduler ω C} {a : Action ω C} {e : Effect C}
    (h : s.act tid a = some (e, s')) : s.aborted = false ∧ Move tid s a e s' := by
  unfold act at h
  split at h
  · cases h
  next habort =>
  refine ⟨by simpa using habort, ?_⟩
  cases a with
  | create f =>
    dsimp only at h
    split at h
    · cases h
    · next hfree => cases h; exact .create (by simpa using hfree)
  | schedule fc thread =>
    dsimp only at h
    split at h
    · next hvalid => cases h; exact .schedule hvalid
    · cases h
  | scheduleAll fcs =>
    dsimp only at h
    split at h
    · next hvalid => cases h; exact .scheduleAll hvalid
    · cases h
  | await w =>
    dsimp only at h
    split at h
    · next f via hpc => cases h; exact .await hpc
    · cases h
  | fire f =>
    dsimp only at h
    split at h
    · next hwait => cases h; exact .fire hwait
    · cases h
  | work w fresh => exact move_of_work h
  | yield w state =>
    dsimp only at h
    split at h
    · next f via hpc =>
      split at h
      · cases h
      · next hout => cases h; exact .yield hpc (not_or.mp hout)
    · cases h
  | leaveIdle w finished =>
    dsimp only at h
    split at h
    · next hpc => cases h; exact .leaveIdle hpc
    · cases h

end Scheduler

end Azure
