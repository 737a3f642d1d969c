import Azure.Scheduler.Lifetime

/-!
# The assertions of `Fiber`

Each place in `run` knows the state of the fiber it works on: a worker behind a switch has one that
has yielded or is over, and an unused `cb_fiber` is in state `INIT`.  This stays so as long as no other
worker has the fiber.  A callback that throws breaks it: `reset` does not take a fiber in state
`EXCEPT`.
-/

namespace Azure

open Reasoning

/-- A fiber that has switched out: it waits, or it is over; one in `cb_fiber` has not thrown. -/
def FiberState.SwitchedOut (state : FiberState) (via : Via) : Prop :=
  state = .hold ∨ state = .ready ∨ state = .term ∨ (state = .except ∧ via = .ft)

/-- What a worker at `pc`, whose `cb_fiber` is `cb`, knows of the fiber it works on. -/
def Pc.Knows {C : Type} (cb : Option FiberId) (state : FiberId → FiberState)
    (onStack : FiberId → Bool) : Pc C → Prop
  | .branch ft _ => ∀ f, ft.fiber = some f → cb ≠ some f ∧ state f ≠ .exec
  | .swapIn f via => (via = .cbFiber ↔ cb = some f) ∧ state f ≠ .exec
  | .restore f via => via = .cbFiber ↔ cb = some f
  | .body f via => (via = .cbFiber ↔ cb = some f) ∧ onStack f = true
  | .save f via | .decrement f via | .test f via =>
    (via = .cbFiber ↔ cb = some f) ∧ (state f).SwitchedOut via
  | .requeue f via => via = .cbFiber ↔ cb = some f
  | .storeHold f via => (via = .cbFiber ↔ cb = some f) ∧ state f = .hold
  | .resetCb f => cb = some f ∧ state f = .term
  | .scan | .noTask _ | .idle | .exited => True

/-- The same for all of its locals: a `cb_fiber` that the worker is not busy with is `INIT`. -/
structure Worker.Knows {C : Type} (state : FiberId → FiberState) (onStack : FiberId → Bool)
    (wk : Worker C) : Prop where
  pc : wk.pc.Knows wk.cbFiber state onStack
  spare : ∀ f, wk.cbFiber = some f → wk.pc.fiber ≠ some f → state f = .init

/-- A worker looks only at the fibers it holds. -/
theorem Worker.Knows.congr {C : Type} {state state' : FiberId → FiberState}
    {onStack onStack' : FiberId → Bool} {wk : Worker C} (h : wk.Knows state onStack)
    (hsame : ∀ f, wk.Holds f → state' f = state f ∧ onStack' f = onStack f) :
    wk.Knows state' onStack' where
  pc := by
    have hpc := h.pc
    have hmine : ∀ f, wk.pc.fiber = some f → state' f = state f ∧ onStack' f = onStack f :=
      fun f hf => hsame f (Or.inl hf)
    cases hcase : wk.pc with
    | branch ft isActive =>
      rw [hcase] at hpc hmine
      intro f hf
      rw [(hmine f hf).1]
      exact hpc f hf
    | swapIn f via | restore f via | body f via | save f via | decrement f via | test f via
    | requeue f via | storeHold f via | resetCb f =>
      rw [hcase] at hpc hmine
      obtain ⟨hstate, hstack⟩ := hmine f rfl
      simpa only [Pc.Knows, hstate, hstack] using hpc
    | scan | noTask _ | idle | exited => exact trivial
  spare := fun f hf hne => by
    rw [(hsame f (Or.inr hf)).1]
    exact h.spare f hf hne

namespace Scheduler

variable {ω C : Type} [DecidableEq ω] {tid : ω → Int} {s s' : Scheduler ω C} {a : Action ω C}
  {e : Effect C}

/-! ## What a step leaves as it is -/

@[simp] theorem stateOf_setWorker (s : Scheduler ω C) (w : ω) (wk : Worker C) (f : FiberId) :
    (s.setWorker w wk).stateOf f = s.stateOf f := rfl

@[simp] theorem stateOf_goto (s : Scheduler ω C) (w : ω) (pc : Pc C) (f : FiberId) :
    (s.goto w pc).stateOf f = s.stateOf f := rfl

@[simp] theorem stateOf_release (s : Scheduler ω C) (w : ω) (via : Via) (f : FiberId) :
    (s.release w via).stateOf f = s.stateOf f := rfl

omit [DecidableEq ω] in
@[simp] theorem stateOf_push (s : Scheduler ω C) (thread : Int) (fcs : List (FiberOrCb C))
    (f : FiberId) : (s.push thread fcs).2.stateOf f = s.stateOf f := rfl

omit [DecidableEq ω] in
theorem stateOf_storeState (s : Scheduler ω C) {f : FiberId} (g : FiberId) (state : FiberState)
    (hf : (s.fiber f).isSome) :
    (s.storeState f state).stateOf g = if g = f then state else s.stateOf g := by
  by_cases h : g = f
  · subst h
    rcases Option.isSome_iff_exists.mp hf with ⟨fb, hfb⟩
    simp [stateOf, storeState, hfb]
  · simp [stateOf, storeState, h]

omit [DecidableEq ω] in
@[simp] theorem stateOf_setSaved (s : Scheduler ω C) (f g : FiberId) (saved : Bool) :
    (s.setSaved f saved).stateOf g = s.stateOf g := by
  by_cases h : g = f
  · subst h; cases hg : s.fiber g <;> simp [stateOf, setSaved, hg]
  · simp [stateOf, setSaved, h]

theorem scanFrom_assertFailed {n : Int} {isExec : FiberId → Bool} {q : List (FiberAndThread C)}
    (h : scanFrom n isExec q = .assertFailed) : ∃ it ∈ q, it.fiber = none ∧ it.cb = none := by
  induction q with
  | nil => cases h
  | cons it q ih =>
    have hpass : (scanFrom n isExec q).pass it = .assertFailed →
        ∃ it' ∈ it :: q, it'.fiber = none ∧ it'.cb = none := by
      intro hp
      cases hq : scanFrom n isExec q with
      | none => rw [hq] at hp; cases hp
      | found ft rest => rw [hq] at hp; cases hp
      | assertFailed =>
        obtain ⟨it', hit, hnull⟩ := ih hq
        exact ⟨it', List.mem_cons_of_mem _ hit, hnull⟩
    unfold scanFrom at h
    dsimp only at h
    split at h
    · exact hpass h
    · split at h
      · next hfiber hcb => exact ⟨it, List.mem_cons_self, hfiber, hcb⟩
      · split at h
        · exact hpass h
        · cases h
      · cases h

theorem Move.others (h : Move tid s a e s') {v : ω} (hv : a.worker ≠ some v) :
    s'.worker v = s.worker v := by
  cases h with
  | create _ | schedule _ | scheduleAll _ | await _ | fire _ | assertFailed => rfl
  | _ =>
    have hne : v ≠ _ := fun heq => hv (by rw [heq]; rfl)
    simp [goto, setWorker, setFiber, storeState, setSaved, release, push, Function.update_of_ne hne]

/-- A step changes the state of a new fiber or of one that the acting worker holds. -/
theorem Move.stateOf (h : Move tid s a e s') (f : FiberId) :
    s'.stateOf f = s.stateOf f ∨ s.fiber f = none ∨
      ∃ w, a.worker = some w ∧ (s.worker w).Holds f := by
  cases h with
  | @create g hfree | @branchNew _ g _ _ _ _ _ _ hfree =>
    by_cases heq : f = g
    · subst heq
      exact .inr (.inl hfree)
    · exact .inl (by simp [heq])
  | @branchReset w _ _ _ _ g _ _ hheld _ =>
    by_cases heq : f = g
    · subst heq
      exact .inr (.inr ⟨w, rfl, .inr hheld⟩)
    · exact .inl (by simp [heq])
  | @resetCb w _ g hpc _ =>
    by_cases heq : f = g
    · subst heq
      exact .inr (.inr ⟨w, rfl, .inl (by rw [hpc]; rfl)⟩)
    · exact .inl (by simp [heq])
  | @yield w g _ state hpc _ | @swapIn w _ g _ hpc _ | @storeHold w _ g _ hpc =>
    by_cases heq : f = g
    · subst heq
      exact .inr (.inr ⟨w, rfl, .inl (by rw [hpc]; rfl)⟩)
    · refine .inl ?_
      simp [Scheduler.stateOf, storeState, goto, setWorker, release, Function.update_of_ne heq]
  | @restore w _ g _ hpc => exact .inl (stateOf_setSaved s g f false)
  | @save w _ g _ hpc => exact .inl (stateOf_setSaved s g f true)
  | _ => exact .inl rfl

end Scheduler

namespace FiberLives

variable {ω C : Type} [DecidableEq ω] {tid : ω → Int} {s s' : FiberLives ω C} {a : Action ω C}
  {e : Effect C} {t : Scheduler ω C}

theorem worker_goto (s : Scheduler ω C) (w : ω) (pc : Pc C) :
    (s.goto w pc).worker w = { s.worker w with pc } := by
  simp [Scheduler.goto, Scheduler.setWorker]

theorem worker_release (s : Scheduler ω C) (w : ω) (via : Via) :
    (s.release w via).worker w =
      { s.worker w with cbFiber := if via = .ft then (s.worker w).cbFiber else none } := by
  cases via <;> simp [Scheduler.release, Scheduler.setWorker]

section Acting

variable {u : Scheduler ω C} {w : ω} {f : FiberId} {via : Via} {pc : Pc C} {stack : FiberId → Bool}

theorem knows_goto (hworker : u.worker = s.sched.worker)
    (hpc : pc.Knows (s.sched.worker w).cbFiber u.stateOf stack)
    (hspare : ∀ g, (s.sched.worker w).cbFiber = some g → pc.fiber ≠ some g → u.stateOf g = .init) :
    ((u.goto w pc).worker w).Knows (u.goto w pc).stateOf stack := by
  rw [worker_goto, hworker]
  exact ⟨hpc, hspare⟩

/-- The worker stays with its fiber, and leaves the others alone. -/
theorem knows_stays (hk : (s.sched.worker w).Knows s.sched.stateOf s.onStack)
    (hold : (s.sched.worker w).pc.fiber = some f) (hnew : pc.fiber = some f)
    (hworker : u.worker = s.sched.worker) (hother : ∀ g, g ≠ f → u.stateOf g = s.sched.stateOf g)
    (hpc : pc.Knows (s.sched.worker w).cbFiber u.stateOf stack) :
    ((u.goto w pc).worker w).Knows (u.goto w pc).stateOf stack := by
  refine knows_goto hworker hpc fun g hg hne => ?_
  have hgf : g ≠ f := fun heq => hne (by rw [hnew, heq])
  rw [hother g hgf]
  exact hk.spare g hg fun heq => hgf (Option.some.inj (heq.symm.trans hold))

/-- A worker that has not been busy with its `cb_fiber` goes elsewhere. -/
theorem knows_leaves (hk : (s.sched.worker w).Knows s.sched.stateOf s.onStack)
    (hspare : ∀ g, (s.sched.worker w).cbFiber = some g → (s.sched.worker w).pc.fiber ≠ some g)
    (hworker : u.worker = s.sched.worker) (hstate : u.stateOf = s.sched.stateOf)
    (hpc : pc.Knows (s.sched.worker w).cbFiber u.stateOf stack) :
    ((u.goto w pc).worker w).Knows (u.goto w pc).stateOf stack := by
  refine knows_goto hworker hpc fun g hg _ => ?_
  rw [hstate]
  exact hk.spare g hg (hspare g hg)

/-- The worker lets go of its fiber, with `cb_fiber.reset()` if that is where it is. -/
theorem knows_releases (hk : (s.sched.worker w).Knows s.sched.stateOf s.onStack)
    (hold : (s.sched.worker w).pc.fiber = some f)
    (hvia : via = .cbFiber ↔ (s.sched.worker w).cbFiber = some f)
    (hworker : u.worker = s.sched.worker)
    (hother : ∀ g, g ≠ f → u.stateOf g = s.sched.stateOf g) :
    (((u.release w via).goto w .scan).worker w).Knows ((u.release w via).goto w .scan).stateOf stack := by
  rw [worker_goto, worker_release, hworker]
  refine ⟨trivial, fun g hg _ => ?_⟩
  cases via with
  | cbFiber => cases hg
  | ft =>
    have hcb : (s.sched.worker w).cbFiber = some g := hg
    have hgf : g ≠ f := by
      rintro rfl
      exact absurd (hvia.mpr hcb) (by simp)
    show u.stateOf g = .init
    rw [hother g hgf]
    exact hk.spare g hcb fun heq => hgf (Option.some.inj (heq.symm.trans hold))

omit [DecidableEq ω] in
theorem switchedOut_of_yield {state : FiberState} (hpc : (s.sched.worker w).pc = .body f via)
    (hc : s.Careful tid (.run (.yield w state))) (hout : state ≠ .init ∧ state ≠ .exec) :
    state.SwitchedOut via := by
  cases state with
  | hold => exact .inl rfl
  | ready => exact .inr (.inl rfl)
  | term => exact .inr (.inr (.inl rfl))
  | init => exact absurd rfl hout.1
  | exec => exact absurd rfl hout.2
  | except =>
    refine .inr (.inr (.inr ⟨rfl, ?_⟩))
    cases via with
    | ft => rfl
    | cbFiber => exact absurd hpc (hc rfl f)

omit [DecidableEq ω] in
/-- A callback gets the `cb_fiber` of its worker, which is `INIT` then, or a new one. -/
theorem knows_callback (hpc : (u.worker w).pc = .swapIn f .cbFiber)
    (hheld : (u.worker w).cbFiber = some f) (hstate : u.stateOf f = .init) :
    (u.worker w).Knows u.stateOf stack := by
  constructor
  · rw [hpc, hheld]
    exact ⟨by simp, by simp [hstate]⟩
  · intro g hg hne
    rw [hpc] at hne
    exact absurd (hheld.symm.trans hg) hne

/-- The acting worker knows what it should behind its step. -/
theorem knows_of_move (h : Scheduler.Move tid s.sched a e t) (hex : s.sched.Exclusive)
    (hk : (s.sched.worker w).Knows s.sched.stateOf s.onStack) (hc : s.Careful tid (.run a))
    (ha : a.worker = some w) (hok : t.aborted = false) :
    (t.worker w).Knows t.stateOf (s.stackAfter a) := by
  have hknows := hk.pc
  have hother : ∀ {f : FiberId} (state : FiberState), (s.sched.worker w).pc.fiber = some f →
      ∀ g, g ≠ f → (s.sched.storeState f state).stateOf g = s.sched.stateOf g := by
    intro f state hf g hgf
    rw [Scheduler.stateOf_storeState _ _ _ (hex.held w f (.inl hf)), if_neg hgf]
  cases h with
  | create _ | schedule _ | scheduleAll _ | fire _ => cases ha
  | assertFailed => cases hok
  | await hpc =>
    cases ha
    exact ⟨hk.pc, hk.spare⟩
  | @yield _ f via state hpc hout =>
    cases ha
    have hfiber : (s.sched.worker w).pc.fiber = some f := by rw [hpc]; rfl
    rw [hpc] at hknows
    refine knows_stays hk hfiber rfl rfl (hother state hfiber) ⟨hknows.1, ?_⟩
    rw [Scheduler.stateOf_storeState _ _ _ (hex.held w f (.inl hfiber)), if_pos rfl]
    exact switchedOut_of_yield hpc hc hout
  | leaveIdle hpc =>
    cases ha
    rw [show (Scheduler.setWorker _ w _).worker w = _ from Function.update_self ..]
    exact ⟨trivial, fun f hf _ => hk.spare f hf (by simp [hpc, Pc.fiber])⟩
  | scanNone hpc _ =>
    cases ha
    refine knows_leaves hk (by simp [hpc, Pc.fiber]) rfl rfl fun f hf => ?_
    cases hf
  -- the run is careful, so nobody else has the fiber; and the scan passes what is in EXEC
  | @scanFound _ _ ft rest hpc hscan =>
    cases ha
    refine knows_leaves hk (by simp [hpc, Pc.fiber]) rfl rfl fun f hf => ⟨fun hcb => ?_, ?_⟩
    · exact hc f (by simp [Scheduler.takes, hpc, hscan, hf]) w (.inr hcb)
    · show s.sched.stateOf f ≠ .exec
      have := (Scheduler.scanFrom_found hscan).2.notExec f hf
      simpa using this
  | @branchFiber _ _ ft _ f hpc hf hlive =>
    cases ha
    have hfiber : (s.sched.worker w).pc.fiber = some f := by rw [hpc]; exact hf
    rw [hpc] at hknows
    obtain ⟨hcb, hexec⟩ := hknows f hf
    exact knows_stays hk hfiber rfl rfl (fun _ _ => rfl) ⟨by simp [hcb], hexec⟩
  | @branchReset _ _ ft _ cb f hpc hcb hheld hover =>
    cases ha
    refine knows_callback (by rw [worker_goto]) (by rw [worker_goto]; exact hheld) ?_
    rw [Scheduler.stateOf_goto, Scheduler.stateOf_setFiber, if_pos rfl]
  | @branchNew _ fresh ft _ cb hpc hcb hheld hfree =>
    cases ha
    have hworker : ((s.sched.setFiber fresh {}).setWorker w
        { s.sched.worker w with pc := .swapIn fresh .cbFiber, cbFiber := some fresh }).worker w =
        { s.sched.worker w with pc := .swapIn fresh .cbFiber, cbFiber := some fresh } :=
      Function.update_self ..
    refine knows_callback (by rw [hworker]) (by rw [hworker]) ?_
    rw [Scheduler.stateOf_setWorker, Scheduler.stateOf_setFiber, if_pos rfl]
  | branchNone hpc _ =>
    cases ha
    rw [hpc] at hknows
    refine knows_leaves hk (fun g hg hfg => ?_) rfl rfl trivial
    rw [hpc] at hfg
    exact (hknows g hfg).1 hg
  | @swapIn _ _ f via hpc hstate =>
    cases ha
    have hfiber : (s.sched.worker w).pc.fiber = some f := by rw [hpc]; rfl
    rw [hpc] at hknows
    exact knows_stays hk hfiber rfl rfl (hother .exec hfiber) hknows.1
  | @restore _ _ f via hpc =>
    cases ha
    rw [hpc] at hknows
    refine knows_stays hk (by rw [hpc]; rfl) rfl rfl (fun g _ => ?_) ⟨hknows, by simp [stackAfter, hpc]⟩
    exact Scheduler.stateOf_setSaved ..
  | @save _ _ f via hpc =>
    cases ha
    rw [hpc] at hknows
    refine knows_stays hk (by rw [hpc]; rfl) rfl rfl (fun g _ => ?_) ⟨hknows.1, ?_⟩
    · exact Scheduler.stateOf_setSaved ..
    · rw [Scheduler.stateOf_setSaved]
      exact hknows.2
  | decrement hpc =>
    cases ha
    rw [hpc] at hknows
    exact knows_stays hk (by rw [hpc]; rfl) rfl rfl (fun _ _ => rfl) hknows
  | testReady hpc _ =>
    cases ha
    rw [hpc] at hknows
    exact knows_stays hk (by rw [hpc]; rfl) rfl rfl (fun _ _ => rfl) hknows.1
  -- the fiber of a task is not the worker's own, which `testReset` deals with
  | @testOver _ _ f hpc _ =>
    cases ha
    rw [hpc] at hknows
    refine knows_leaves hk (fun g hg hfg => ?_) rfl rfl trivial
    rw [hpc] at hfg
    cases hfg
    exact absurd (hknows.1.mpr hg) (by simp)
  | testReset hpc hover =>
    cases ha
    rw [hpc] at hknows
    refine knows_stays hk (by rw [hpc]; rfl) rfl rfl (fun _ _ => rfl) ⟨hknows.1.mp rfl, ?_⟩
    rcases hover with h | h
    · exact h
    · simpa [FiberState.SwitchedOut, h] using hknows.2
  | testHold hpc hstate =>
    cases ha
    rw [hpc] at hknows
    refine knows_stays hk (by rw [hpc]; rfl) rfl rfl (fun _ _ => rfl) ⟨hknows.1, ?_⟩
    rcases hstate with h | h | h
    · exact h
    · simpa [FiberState.SwitchedOut, h] using hknows.2
    · simpa [FiberState.SwitchedOut, h] using hknows.2
  | @requeue _ _ f via hpc =>
    cases ha
    rw [hpc] at hknows
    exact knows_releases hk (by rw [hpc]; rfl) hknows rfl fun _ _ => rfl
  | @storeHold _ _ f via hpc =>
    cases ha
    have hfiber : (s.sched.worker w).pc.fiber = some f := by rw [hpc]; rfl
    rw [hpc] at hknows
    exact knows_releases hk hfiber hknows.1 rfl (hother .hold hfiber)
  -- the worker keeps the fiber, and it is over
  | @resetCb _ _ f hpc hover =>
    cases ha
    rw [hpc] at hknows
    refine knows_goto rfl trivial fun g hg _ => ?_
    have hgf : g = f := Option.some.inj (hg.symm.trans hknows.1)
    rw [Scheduler.stateOf_setFiber, if_pos hgf]
  | noTask hpc | exit hpc _ | enterIdle hpc _ =>
    cases ha
    exact knows_leaves hk (by simp [hpc, Pc.fiber]) rfl rfl trivial

end Acting

omit [DecidableEq ω] in
theorem stackAfter_of_not_held {f : FiberId}
    (h : ∀ w, a.worker = some w → ¬ (s.sched.worker w).Holds f) : s.stackAfter a f = s.onStack f := by
  have hne : ∀ {w : ω} {g : FiberId}, a.worker = some w → (s.sched.worker w).pc.fiber = some g →
      f ≠ g := fun ha hg heq => h _ ha (.inl (by rw [hg, heq]))
  cases a with
  | work w fresh =>
    cases hpc : (s.sched.worker w).pc <;> simp only [stackAfter, hpc]
    exact Function.update_of_ne (hne rfl (by rw [hpc]; rfl)) ..
  | yield w state =>
    cases hpc : (s.sched.worker w).pc <;> simp only [stackAfter, hpc]
    exact Function.update_of_ne (hne rfl (by rw [hpc]; rfl)) ..
  | _ => rfl

/-- The pointers on its own stack keep a fiber that waits. -/
theorem stack_of_move (h : Scheduler.Move tid s.sched a e t) (hex : s.sched.Exclusive)
    (hk : ∀ w, (s.sched.worker w).Knows s.sched.stateOf s.onStack) (hok : t.aborted = false)
    (hstack : ∀ f, s.sched.stateOf f = .hold ∨ s.sched.stateOf f = .ready → s.onStack f = true) :
    ∀ f, t.stateOf f = .hold ∨ t.stateOf f = .ready → s.stackAfter a f = true := by
  intro f hf
  cases h with
  | schedule _ | scheduleAll _ | fire _ | await _ | leaveIdle _ => exact hstack f hf
  -- a new fiber is in state `INIT`, which claims nothing of its stack
  | @create g hfree =>
    by_cases heq : f = g
    · subst heq
      simp at hf
    · exact hstack f (by simpa [heq] using hf)
  -- `yield` leaves the frames on the stack unless the fiber is over
  | @yield w g via state hpc _ =>
    have hg := hex.held w g (.inl (by rw [hpc]; rfl))
    rw [Scheduler.stateOf_goto, Scheduler.stateOf_storeState _ _ _ hg] at hf
    simp only [stackAfter, hpc]
    by_cases heq : f = g
    · subst heq
      simpa using hf
    · rw [Function.update_of_ne heq]
      exact hstack f (by simpa [heq] using hf)
  | @branchReset _ _ _ _ _ g hpc _ _ _ | @branchNew _ g _ _ _ hpc _ _ _ | @resetCb _ _ g hpc _ =>
    simp only [stackAfter, hpc]
    by_cases heq : f = g
    · subst heq
      simp at hf
    · exact hstack f (by simpa [heq] using hf)
  | @swapIn w _ g via hpc _ =>
    have hg := hex.held w g (.inl (by rw [hpc]; rfl))
    rw [Scheduler.stateOf_goto, Scheduler.stateOf_storeState _ _ _ hg] at hf
    simp only [stackAfter, hpc]
    by_cases heq : f = g
    · simp [heq] at hf
    · exact hstack f (by simpa [heq] using hf)
  -- only a fiber that is `HOLD` already is stored as `HOLD`
  | @storeHold w _ g via hpc =>
    have hg := hex.held w g (.inl (by rw [hpc]; rfl))
    have hknows := (hk w).pc
    rw [hpc] at hknows
    rw [Scheduler.stateOf_goto, Scheduler.stateOf_release,
      Scheduler.stateOf_storeState _ _ _ hg] at hf
    simp only [stackAfter, hpc]
    by_cases heq : f = g
    · subst heq
      exact hstack f (.inl hknows.2)
    · exact hstack f (by simpa [heq] using hf)
  | @restore w _ g via hpc =>
    rw [Scheduler.stateOf_goto, Scheduler.stateOf_setSaved] at hf
    simp only [stackAfter, hpc]
    by_cases heq : f = g
    · rw [heq, Function.update_self]
    · rw [Function.update_of_ne heq]
      exact hstack f hf
  | save hpc =>
    rw [Scheduler.stateOf_goto, Scheduler.stateOf_setSaved] at hf
    simp only [stackAfter, hpc]
    exact hstack f hf
  | assertFailed => cases hok
  | scanNone hpc | scanFound hpc | branchFiber hpc | branchNone hpc | decrement hpc | testReady hpc
  | testOver hpc | testReset hpc | testHold hpc | requeue hpc | noTask hpc | exit hpc
  | enterIdle hpc =>
    simp only [stackAfter, hpc]
    exact hstack f hf

/-- A fiber is in state `EXEC` between `swapIn` and the stores of its body. -/
theorem exec_of_move (h : Scheduler.Move tid s.sched a e t) (hex : s.sched.Exclusive)
    (hexec : ∀ f, s.sched.stateOf f = .exec → ∃ w via,
      (s.sched.worker w).pc = .restore f via ∨ (s.sched.worker w).pc = .body f via) :
    ∀ f, t.stateOf f = .exec → ∃ w via,
      (t.worker w).pc = .restore f via ∨ (t.worker w).pc = .body f via := by
  intro f hf
  -- somebody else than the acting worker has it
  have hkeep : s.sched.stateOf f = .exec → (∀ w, a.worker = some w → ∀ via,
      (s.sched.worker w).pc ≠ .restore f via ∧ (s.sched.worker w).pc ≠ .body f via) →
      ∃ w via, (t.worker w).pc = .restore f via ∨ (t.worker w).pc = .body f via := by
    intro hold hnot
    obtain ⟨v, via, hv⟩ := hexec f hold
    refine ⟨v, via, ?_⟩
    rw [h.others fun heq => ?_]
    · exact hv
    · rcases hv with hv | hv
      · exact (hnot v heq via).1 hv
      · exact (hnot v heq via).2 hv
  cases h with
  | schedule _ | scheduleAll _ | fire _ => exact hkeep hf (by simp [Action.worker])
  | await _ | assertFailed => exact hexec f hf
  | @create g hfree =>
    by_cases heq : f = g
    · simp [heq] at hf
    · exact hkeep (by simpa [heq] using hf) (by simp [Action.worker])
  | @yield w g via state hpc hout =>
    have hg := hex.held w g (.inl (by rw [hpc]; rfl))
    rw [Scheduler.stateOf_goto, Scheduler.stateOf_storeState _ _ _ hg] at hf
    by_cases heq : f = g
    · rw [if_pos heq] at hf
      exact absurd hf hout.2
    · rw [if_neg heq] at hf
      refine hkeep hf fun v hv via' => ?_
      cases hv
      rw [hpc]
      exact ⟨by simp, fun hbody => heq (by cases hbody; rfl)⟩
  | @swapIn w _ g via hpc _ =>
    have hg := hex.held w g (.inl (by rw [hpc]; rfl))
    rw [Scheduler.stateOf_goto, Scheduler.stateOf_storeState _ _ _ hg] at hf
    by_cases heq : f = g
    · exact ⟨w, via, .inl (by rw [worker_goto, heq])⟩
    · rw [if_neg heq] at hf
      refine hkeep hf fun v hv via' => ?_
      cases hv
      rw [hpc]
      simp
  | @restore w _ g via hpc =>
    rw [Scheduler.stateOf_goto, Scheduler.stateOf_setSaved] at hf
    by_cases heq : f = g
    · exact ⟨w, via, .inr (by rw [worker_goto, heq])⟩
    · refine hkeep hf fun v hv via' => ?_
      cases hv
      rw [hpc]
      exact ⟨fun hrestore => heq (by cases hrestore; rfl), by simp⟩
  | @branchReset _ _ _ _ _ g hpc _ _ _ | @branchNew _ g _ _ _ hpc _ _ _ | @resetCb _ _ g hpc _ =>
    by_cases heq : f = g
    · simp [heq] at hf
    · refine hkeep (by simpa [heq] using hf) fun v hv via' => ?_
      cases hv
      rw [hpc]
      simp
  | @storeHold w _ g via hpc =>
    have hg := hex.held w g (.inl (by rw [hpc]; rfl))
    rw [Scheduler.stateOf_goto, Scheduler.stateOf_release,
      Scheduler.stateOf_storeState _ _ _ hg] at hf
    by_cases heq : f = g
    · simp [heq] at hf
    · refine hkeep (by simpa [heq] using hf) fun v hv via' => ?_
      cases hv
      rw [hpc]
      simp
  | save hpc =>
    rw [Scheduler.stateOf_goto, Scheduler.stateOf_setSaved] at hf
    refine hkeep hf fun v hv via' => ?_
    cases hv
    rw [hpc]
    simp
  | leaveIdle hpc | scanNone hpc | scanFound hpc | branchFiber hpc | branchNone hpc | decrement hpc
  | testReady hpc | testOver hpc | testReset hpc | testHold hpc | requeue hpc | noTask hpc
  | exit hpc | enterIdle hpc =>
    refine hkeep hf fun v hv via' => ?_
    cases hv
    rw [hpc]
    simp

/-- The assertions that the scheduler knows hold. -/
theorem not_aborted (hlocal : s.sched.Local)
    (hk : ∀ w, (s.sched.worker w).Knows s.sched.stateOf s.onStack) {w : ω} {fresh : FiberId}
    (h : s.sched.work tid w fresh = some (e, t)) (hold : s.sched.aborted = false) :
    t.aborted = false := by
  have hpcK := (hk w).pc
  have hspare := (hk w).spare
  cases hpc : (s.sched.worker w).pc with
  | scan =>
    simp only [Scheduler.work, hpc] at h
    cases hscan : Scheduler.scanFrom (tid w) (fun f => s.sched.stateOf f == .exec)
      s.sched.fibers with
    | none => rw [hscan] at h; cases h; exact hold
    | found ft rest => rw [hscan] at h; cases h; exact hold
    | assertFailed =>
      obtain ⟨it, hit, hfiber, hcb⟩ := Scheduler.scanFrom_assertFailed hscan
      have := (hlocal.queue it hit).1
      simp [hfiber, hcb] at this
  | branch ft isActive =>
    rw [hpc] at hpcK hspare
    simp only [Scheduler.work, hpc] at h
    split at h
    · cases h
      exact hold
    split at h
    · cases h
      exact hold
    split at h
    · next f hcb =>
      -- a callback, and a `cb_fiber` that is not in use
      have hinit : s.sched.stateOf f = .init := hspare f hcb fun hf => (hpcK f hf).1 hcb
      simp only [Scheduler.resetFiber, hinit, or_true, if_true] at h
      cases h
      exact hold
    · split at h
      · cases h
      · cases h
        exact hold
  | swapIn f via =>
    rw [hpc] at hpcK
    simp only [Scheduler.work, hpc, if_neg hpcK.2] at h
    cases h
    exact hold
  | resetCb f =>
    rw [hpc] at hpcK
    simp only [Scheduler.work, hpc, Scheduler.resetFiber, hpcK.2, true_or, if_true] at h
    cases h
    exact hold
  | test f via =>
    simp only [Scheduler.work, hpc] at h
    cases hstate : s.sched.stateOf f <;> cases via <;> simp only [hstate] at h <;> cases h <;>
      exact hold
  | noTask isActive =>
    cases isActive with
    | true => simp only [Scheduler.work, hpc] at h; cases h; exact hold
    | false =>
      simp only [Scheduler.work, hpc] at h
      split at h <;> cases h <;> exact hold
  | restore f via | save f via | decrement f via | requeue f via | storeHold f via =>
    simp only [Scheduler.work, hpc] at h
    cases h
    exact hold
  | body f via | idle | exited => simp only [Scheduler.work, hpc] at h; cases h

def IdleAgrees (wk : Worker C) (state : FiberState) : Prop :=
  (wk.pc = .idle ↔ state = .exec) ∧ (wk.idleTerm = true → state = .term)

theorem idle_of_move (h : Scheduler.Move tid s.sched a e t) (hok : t.aborted = false)
    (hidle : ∀ w, IdleAgrees (s.sched.worker w) (s.idle w)) :
    ∃ idle, s.idleAfter a = some idle ∧ ∀ w, IdleAgrees (t.worker w) (idle w) := by
  -- the idle fiber of the worker does not change
  have hsame : ∀ w, a.worker = some w → s.idleAfter a = some s.idle →
      (s.sched.worker w).pc ≠ .idle → (t.worker w).pc ≠ .idle →
      (t.worker w).idleTerm = (s.sched.worker w).idleTerm →
      ∃ idle, s.idleAfter a = some idle ∧ ∀ w, IdleAgrees (t.worker w) (idle w) := by
    intro w ha hafter hpc hpc' hterm
    refine ⟨s.idle, hafter, fun v => ?_⟩
    by_cases hv : a.worker = some v
    · obtain rfl : w = v := Option.some.inj (ha.symm.trans hv)
      refine ⟨⟨fun h => absurd h hpc', fun h => absurd ((hidle w).1.mpr h) hpc⟩, fun h => ?_⟩
      exact (hidle w).2 (by rw [← hterm]; exact h)
    · rw [h.others hv]
      exact hidle v
  cases h with
  | create _ | schedule _ | scheduleAll _ | fire _ => exact ⟨s.idle, rfl, hidle⟩
  | assertFailed => cases hok
  | await hpc => exact ⟨s.idle, rfl, hidle⟩
  | @leaveIdle w finished hpc =>
    refine ⟨_, rfl, fun v => ?_⟩
    by_cases hv : v = w
    · subst hv
      rw [Function.update_self, show (Scheduler.setWorker _ v _).worker v = _ from
        Function.update_self ..]
      cases finished <;> simp [IdleAgrees]
    · simp only [Scheduler.setWorker, Function.update_of_ne hv]
      exact hidle v
  | @enterIdle w _ hpc hrun =>
    have hstate : s.idle w ≠ .exec := fun heq => by
      have := (hidle w).1.mpr heq
      rw [hpc] at this
      cases this
    refine ⟨Function.update s.idle w .exec, ?_, fun v => ?_⟩
    · simp [idleAfter, hpc, hrun, hstate]
    · by_cases hv : v = w
      · subst hv
        rw [Function.update_self, worker_goto]
        exact ⟨by simp, fun hterm => absurd hterm (by simp [hrun])⟩
      · simp only [Scheduler.goto, Scheduler.setWorker, Function.update_of_ne hv]
        exact hidle v
  | @exit w _ hpc hterm =>
    have hstate := (hidle w).2 hterm
    apply hsame w rfl
    · simp [idleAfter, hpc, hterm, hstate, FiberState.Over]
    · simp [hpc]
    · simp [worker_goto]
    · simp [worker_goto]
  | @requeue w _ _ via hpc | @storeHold w _ _ via hpc =>
    apply hsame w rfl
    · simp [idleAfter, hpc]
    · simp [hpc]
    · simp [worker_goto]
    · rw [worker_goto, worker_release]
      rfl
  | @yield w _ _ _ hpc _ | @branchNew w _ _ _ _ hpc _ _ _ | @scanNone w _ hpc _
  | @scanFound w _ _ _ hpc _ | @branchFiber w _ _ _ _ hpc _ _ | @branchReset w _ _ _ _ _ hpc _ _ _
  | @branchNone w _ _ _ hpc _ | @swapIn w _ _ _ hpc _ | @restore w _ _ _ hpc | @save w _ _ _ hpc
  | @decrement w _ _ _ hpc | @testReady w _ _ _ hpc _ | @testOver w _ _ hpc _
  | @testReset w _ _ hpc _ | @testHold w _ _ _ hpc _ | @resetCb w _ _ hpc _ | @noTask w _ hpc =>
    apply hsame w rfl
    · simp [idleAfter, hpc]
    · simp [hpc]
    · simp [Scheduler.goto, Scheduler.setWorker]
    · simp [Scheduler.goto, Scheduler.setWorker, Scheduler.setFiber, Scheduler.storeState,
        Scheduler.setSaved]

structure Live (s : FiberLives ω C) : Prop where
  exclusive : s.sched.Exclusive
  wellFormed : s.sched.Local
  knows : ∀ w, (s.sched.worker w).Knows s.sched.stateOf s.onStack
  stack : ∀ f, s.sched.stateOf f = .hold ∨ s.sched.stateOf f = .ready → s.onStack f = true
  exec : ∀ f, s.sched.stateOf f = .exec → ∃ w via,
    (s.sched.worker w).pc = .restore f via ∨ (s.sched.worker w).pc = .body f via
  idle : ∀ w, IdleAgrees (s.sched.worker w) (s.idle w)
  ok : ¬ s.Failed

omit [DecidableEq ω] in
theorem live_new : Live ({} : FiberLives ω C) where
  exclusive := Scheduler.exclusive_new
  wellFormed := ⟨by simp, by simp⟩
  knows := fun w => ⟨trivial, by simp⟩
  stack := by simp [Scheduler.stateOf]
  exec := by simp [Scheduler.stateOf]
  idle := fun w => ⟨by simp, by simp⟩
  ok := by simp [Failed]

/-- No step fails. -/
theorem Live.not_failed (h : Live s) {a : LifeAction ω C} (hs : Step tid s a s') : ¬ s'.Failed := by
  have hok := h.ok
  simp only [Failed, not_or, Bool.not_eq_true] at hok
  cases a with
  | run a =>
    have hrun : s.run tid a = some s' := hs
    unfold run at hrun
    split at hrun
    · cases hrun
    obtain ⟨⟨e, t⟩, hact, rfl⟩ := Option.map_eq_some_iff.mp hrun
    have ht : t.aborted = false := by
      have hm := (Scheduler.move_of_act hact).2
      cases hm with
      | @assertFailed w fresh =>
        unfold Scheduler.act at hact
        rw [if_neg (by rw [hok.2]; simp)] at hact
        exact not_aborted h.wellFormed h.knows hact hok.2
      | _ => exact hok.2
    obtain ⟨idle, hidle, -⟩ := idle_of_move (Scheduler.move_of_act hact).2 ht h.idle
    simp only [hidle, Failed, hok.1, ht]
    simp
  -- `~Fiber` asserts that the fiber is over: one that waits keeps itself on its stack
  | destroy f =>
    obtain ⟨-, hfree, rfl⟩ : _ ∧ _ ∧ _ := hs
    have hover : (s.sched.stateOf f).Over := by
      cases hstate : s.sched.stateOf f with
      | init => exact .inr (.inl rfl)
      | term => exact .inl rfl
      | except => exact .inr (.inr rfl)
      | hold => exact absurd (h.stack f (.inl hstate)) (by simp [hfree.stack])
      | ready => exact absurd (h.stack f (.inr hstate)) (by simp [hfree.stack])
      | exec =>
        obtain ⟨w, via, hw⟩ := h.exec f hstate
        refine absurd (.inl ?_) (hfree.worker w ?_) <;> rcases hw with hw | hw <;> simp [hw, Pc.fiber]
    rw [destroy, if_pos hover]
    exact h.ok

/-- A careful step keeps all of it. -/
theorem Live.step (h : Live s) {a : LifeAction ω C} (hc : s.Careful tid a) (hs : Step tid s a s') :
    Live s' := by
  have hok' := h.not_failed hs
  have hok := h.ok
  simp only [Failed, not_or, Bool.not_eq_true] at hok
  cases a with
  | destroy f =>
    obtain ⟨-, hfree, rfl⟩ : _ ∧ _ ∧ _ := hs
    unfold destroy at hok' ⊢
    split
    · exact ⟨h.exclusive, h.wellFormed, h.knows, h.stack, h.exec, h.idle, h.ok⟩
    · next hstate => exact absurd (by rw [if_neg hstate]; exact .inl rfl) hok'
  | run a =>
    have hrun : s.run tid a = some s' := hs
    unfold run at hrun
    split at hrun
    · cases hrun
    obtain ⟨⟨e, t⟩, hact, rfl⟩ := Option.map_eq_some_iff.mp hrun
    have hm := (Scheduler.move_of_act hact).2
    have ht : t.aborted = false := by
      cases hafter : s.idleAfter a <;> simp only [hafter, Failed, not_or, Bool.not_eq_true] at hok' <;>
        exact hok'.2
    obtain ⟨idle, hidle, hagrees⟩ := idle_of_move hm ht h.idle
    have hfree : s.sched.TakesFree tid (a, e) := by
      cases a with
      | work w fresh => exact fun f hf v _ => hc f hf v
      | _ => trivial
    have hknows : ∀ w, (t.worker w).Knows t.stateOf (s.stackAfter a) := by
      intro w
      by_cases ha : a.worker = some w
      · exact knows_of_move hm h.exclusive (h.knows w) hc ha ht
      · -- the acting worker, if there is one, holds other fibers
        rw [hm.others ha]
        refine (h.knows w).congr fun f hf => ⟨?_, ?_⟩
        · rcases hm.stateOf f with heq | hnew | ⟨v, hv, hheld⟩
          · exact heq
          · have := h.exclusive.held w f hf
            rw [hnew] at this
            cases this
          · exact absurd (by rw [hv, h.exclusive.holder w v f hf hheld]) ha
        · apply stackAfter_of_not_held
          intro v hv hheld
          exact ha (by rw [hv, h.exclusive.holder w v f hf hheld])
    simp only [hidle] at hok' ⊢
    exact ⟨h.exclusive.step hfree hact, hm.local h.wellFormed, hknows,
      stack_of_move hm h.exclusive h.knows ht h.stack, exec_of_move hm h.exclusive h.exec, hagrees,
      hok'⟩

/-! ## Runs -/

def Fresh (s : FiberLives ω C) : Prop := ∃ n, ∀ f, n ≤ f → s.sched.fiber f = none

theorem fresh_of_move (h : Scheduler.Move tid s.sched a e t) (hfresh : s.Fresh) :
    ∃ n, ∀ f, n ≤ f → t.fiber f = none := by
  obtain ⟨n, hn⟩ := hfresh
  have hone : ∀ g, (∀ f, f ≠ g → t.fiber f = s.sched.fiber f) → ∃ n, ∀ f, n ≤ f → t.fiber f = none := by
    intro g hg
    refine ⟨max n (g + 1), fun f hf => ?_⟩
    have hlt : g < f := Nat.le_trans (Nat.le_max_right n (g + 1)) hf
    rw [hg f (Nat.ne_of_gt hlt)]
    exact hn f (Nat.le_trans (Nat.le_max_left n (g + 1)) hf)
  cases h with
  | @create g _ | @branchReset _ _ _ _ _ g _ _ _ _ | @branchNew _ g _ _ _ _ _ _ _
  | @resetCb _ _ g _ _ | @yield _ g _ _ _ _ | @swapIn _ _ g _ _ _
  | @restore _ _ g _ _ | @save _ _ g _ _ | @storeHold _ _ g _ _ =>
    exact hone g fun f hf => Function.update_of_ne hf ..
  | _ => exact ⟨n, hn⟩

/-- A worker that is not inside a fiber goes on. -/
theorem Live.goesOn (h : Live s) (hfresh : s.Fresh) {w : ω}
    (hbody : ∀ f via, (s.sched.worker w).pc ≠ .body f via) (hidle : (s.sched.worker w).pc ≠ .idle)
    (hexited : (s.sched.worker w).pc ≠ .exited) :
    ∃ fresh s', Step tid s (.run (.work w fresh)) s' := by
  obtain ⟨n, hn⟩ := hfresh
  have hok := h.ok
  simp only [Failed, not_or, Bool.not_eq_true] at hok
  have hwork : (s.sched.work tid w n).isSome := by
    unfold Scheduler.work
    cases hpc : (s.sched.worker w).pc with
    | body f via => exact absurd hpc (hbody f via)
    | idle => exact absurd hpc hidle
    | exited => exact absurd hpc hexited
    | scan => dsimp only; split <;> rfl
    -- `new Fiber` needs an address
    | branch ft isActive =>
      dsimp only
      split
      · rfl
      split
      · rfl
      split
      · split <;> rfl
      · rw [if_neg (by rw [hn n (Nat.le_refl n)]; simp)]
        rfl
    | swapIn f via => dsimp only; split <;> rfl
    | test f via => dsimp only; split <;> rfl
    | resetCb f => dsimp only; split <;> rfl
    | noTask isActive =>
      cases isActive with
      | true => rfl
      | false => dsimp only; split <;> rfl
    | _ => rfl
  obtain ⟨r, hr⟩ := Option.isSome_iff_exists.mp hwork
  have hact : s.sched.act tid (.work w n) = some r := by
    unfold Scheduler.act
    rw [if_neg (by rw [hok.2]; simp)]
    exact hr
  have hrun : (s.run tid (.work w n)).isSome := by
    unfold run
    rw [if_neg (by simp [hok.1, Action.pointers]), hact]
    rfl
  obtain ⟨s', hs'⟩ := Option.isSome_iff_exists.mp hrun
  exact ⟨n, s', hs'⟩

/-- In a run in which no callback throws in `cb_fiber` and no scan takes a fiber that a worker still
has, no assertion of `reset`, `swapIn` or `~Fiber` fails, and a worker that is back from a fiber,
whatever the fiber did, takes its next step. -/
theorem assertions_hold {hist : List (LifeAction ω C)}
    (hrun : Run (Guarded (Careful tid) (Step tid)) {} hist s) :
    ¬ s.Failed ∧
      ∀ w, (∀ f via, (s.sched.worker w).pc ≠ .body f via) → (s.sched.worker w).pc ≠ .idle →
        (s.sched.worker w).pc ≠ .exited →
        ∃ fresh s', Step tid s (.run (.work w fresh)) s' ∧ ¬ s'.Failed := by
  -- `Fresh` is needed for progress only: a number is left for the fiber that a worker has to make
  have hboth : Live s ∧ s.Fresh := by
    refine hrun.invariant (fun s => Live s ∧ s.Fresh) ⟨live_new, 0, fun _ _ => rfl⟩ ?_
    rintro s a s' ⟨hlive, hfresh⟩ ⟨hc, hs⟩
    refine ⟨hlive.step hc hs, ?_⟩
    cases a with
    | run a =>
      have hstep : s.run tid a = some s' := hs
      unfold run at hstep
      split at hstep
      · cases hstep
      obtain ⟨⟨e, t⟩, hact, rfl⟩ := Option.map_eq_some_iff.mp hstep
      have hnew := fresh_of_move (Scheduler.move_of_act hact).2 hfresh
      cases hafter : s.idleAfter a <;> exact hnew
    | destroy f =>
      obtain ⟨-, -, rfl⟩ : _ ∧ _ ∧ _ := hs
      unfold destroy
      split <;> exact hfresh
  obtain ⟨hlive, hfresh⟩ := hboth
  refine ⟨hlive.ok, fun w hbody hidle hexited => ?_⟩
  obtain ⟨fresh, s', hs⟩ := hlive.goesOn hfresh hbody hidle hexited
  exact ⟨fresh, s', hs, hlive.not_failed hs⟩

def execute (tid : ω → Int) (s : FiberLives ω C) : LifeAction ω C → Option (FiberLives ω C)
  | .run a => s.run tid a
  | .destroy _ => none

theorem run_of_execute {ok : FiberLives ω C → LifeAction ω C → Bool}
    (hok : ∀ s a, ok s a = true → s.Careful tid a) {s s' : FiberLives ω C}
    {as : List (LifeAction ω C)}
    (h : runAll (fun s a => if ok s a then s.execute tid a else none) s as = some s') :
    Run (Guarded (Careful tid) (Step tid)) s as s' := by
  apply (run_of_runAll_guarded ok hok h).mono
  intro s a s' hs
  cases a with
  | run a => exact hs
  | destroy f => cases hs.2

/-- A test for `Careful`, when there is one worker: `cb_fiber` only yields to be held. -/
def careful (s : FiberLives Unit Unit) : LifeAction Unit Unit → Bool
  | .run (.work w _) => (s.sched.takes (fun _ => 7) w).all fun f => !decide ((s.sched.worker ()).Holds f)
  | .run (.yield w state) =>
    match (s.sched.worker w).pc with
    | .body _ .cbFiber => state = .hold
    | _ => true
  | _ => true

theorem careful_spec (s : FiberLives Unit Unit) (a : LifeAction Unit Unit)
    (h : s.careful a = true) : s.Careful (fun _ => 7) a := by
  cases a with
  | destroy f => trivial
  | run a =>
    cases a with
    | work w fresh =>
      intro f hf v
      have htakes : s.sched.takes (fun _ => 7) w = some f := hf
      simpa [careful, htakes] using h
    | yield w state =>
      intro hstate f hpc
      simp [careful, hpc, hstate] at h
    | _ => trivial

/-- A callback waits, is scheduled again, and throws: its fiber is over, and the worker is back at
the queue. -/
theorem assertions_hold_throw : ∃ (hist : List (LifeAction Unit Unit)) (s : FiberLives Unit Unit),
    Run (Guarded (Careful fun _ => 7) (Step fun _ => 7)) {} hist s ∧
      s.sched.stateOf 0 = .except ∧ (s.sched.worker ()).pc = .scan ∧ ¬ s.Failed := by
  let acts : List (LifeAction Unit Unit) :=
    .run (.schedule (.cb (some ())) (-1)) :: List.replicate 4 (.run (.work () 0)) ++
      .run (.yield () .hold) :: List.replicate 4 (.run (.work () 0)) ++
      .run (.schedule (.fiber (some 0)) (-1)) :: List.replicate 4 (.run (.work () 0)) ++
      .run (.yield () .except) :: List.replicate 3 (.run (.work () 0))
  have hlast : (runAll (fun s a => if careful s a then s.execute (fun _ => 7) a else none) {} acts).map
      (fun s => (s.sched.stateOf 0, (s.sched.worker ()).pc)) = some (.except, .scan) := by
    decide
  obtain ⟨s, hs, hvalues⟩ := Option.map_eq_some_iff.mp hlast
  simp only [Prod.mk.injEq] at hvalues
  have hrun := run_of_execute careful_spec hs
  exact ⟨acts, s, hrun, hvalues.1, hvalues.2, (assertions_hold hrun).1⟩

/-- A callback throws before its first yield: `reset` of `cb_fiber` fails. -/
theorem throw_aborts : ∃ (hist : List (LifeAction Unit Unit)) (s : FiberLives Unit Unit),
    Run (Step fun _ => 7) {} hist s ∧ s.Failed := by
  let acts : List (LifeAction Unit Unit) :=
    .run (.schedule (.cb (some ())) (-1)) :: List.replicate 4 (.run (.work () 0)) ++
      .run (.yield () .except) :: List.replicate 4 (.run (.work () 0))
  have hlast : (runAll (execute fun _ => 7) {} acts).map (fun s => s.sched.aborted) = some true := by
    decide
  obtain ⟨s, hs, haborted⟩ := Option.map_eq_some_iff.mp hlast
  refine ⟨acts, s, (run_of_runAll hs).mono fun s a s' hstep => ?_, .inr haborted⟩
  cases a with
  | run a => exact hstep
  | destroy f => cases hstep

end FiberLives

end Azure
