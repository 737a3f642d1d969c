import Azure.Hook.Blocking

/-!
# The protocol of `do_io`

Over every run of the hooks, of the threads that cancel events, of the dispatch of readiness and of
the expiry of timers: a call goes on once for each time it has registered, it gives up only when its
own callback has run, and it leaves neither a timer nor a registration behind.
-/

namespace Azure

open Reasoning

namespace Hooks

open Blocking (Alive Owned Armed Registered Move)

variable {ω : Type} [DecidableEq ω]

/-- The callback for the `timer_info` has run while the call of `f` owned it. -/
def CallbackRan (now : UInt64) (hist : List (BlockingEvent ω)) (f : FiberId) (tinfo : Nat) : Prop :=
  ∃ before g i e after u v fn, hist = before ++ (.hook (.timeout g i), e) :: after ∧
    Run BlockingStep (new now) before u ∧ BlockingStep u (.hook (.timeout g i), e) v ∧
    u.expired[i]? = some (.onTimer tinfo (some fn)) ∧ (u.fiber f).tinfo? = some tinfo

structure Protocol (now : UInt64) (hist : List (BlockingEvent ω)) (s : Hooks ω) : Prop where
  registered : Registered s.table s.woken s.fiber
  owned : Owned s.tinfos s.fiber
  armed : Armed s.timers s.tinfos.length s.expired s.fiber
  timedOut : ∀ f k t, (s.fiber f).tinfo? = some k → s.tinfos[k]? = some t → t.cancelled ≠ 0 →
    CallbackRan now hist f k

theorem CallbackRan.snoc {now : UInt64} {hist : List (BlockingEvent ω)} {f : FiberId} {k : Nat}
    (h : CallbackRan now hist f k) (e : BlockingEvent ω) : CallbackRan now (hist ++ [e]) f k := by
  obtain ⟨before, g, i, eff, after, u, v, fn, rfl, hrest⟩ := h
  exact ⟨before, g, i, eff, after ++ [e], u, v, fn, by simp, hrest⟩

theorem protocol_new (now : UInt64) : Protocol now [] (new now : Hooks ω) where
  registered := {
    fibers := EventTable.new_fibers
    mine := fun _ _ hc => by cases hc
    others := fun _ _ hc => by cases hc
    slots := {
      waiting := fun {k p} hk => by
        rw [show (new now : Hooks ω).table.slot k = none from EventTable.slot_new k] at hk
        cases hk
      one := fun {k l p} hk => by
        rw [show (new now : Hooks ω).table.slot k = none from EventTable.slot_new k] at hk
        cases hk
      called := fun hp => by cases hp
      kept := fun hp => by cases hp } }
  owned := {
    exclusive := {
      once := fun _ => List.nodup_nil
      one := fun hr => by cases hr }
    alive := fun k => by
      constructor
      · rintro ⟨t, ht, -⟩
        cases ht
      · rintro ⟨f, hf⟩
        cases hf }
  armed := {
    ordered := TimerManager.new_ordered now
    held := fun hheap => by cases hheap
    collected := fun hcb => by cases hcb }
  timedOut := fun _ _ _ hf => by cases hf

theorem Protocol.step {now : UInt64} {hist : List (BlockingEvent ω)} {s s' : Hooks ω}
    {e : BlockingEvent ω} (h : Protocol now hist s) (hrun : Run BlockingStep (new now) hist s)
    (hs : BlockingStep s e s') : Protocol now (hist ++ [e]) s' := by
  have hmove := hs.move
  refine ⟨hmove.registered_move h.registered, h.owned.change hmove.change,
    hmove.armed_move h.armed h.owned, fun f k t hf ht hcancelled => ?_⟩
  cases hmove.change with
  | keeps htinfo htinfos =>
    rw [show (s'.fiber f).tinfo? = (s.fiber f).tinfo? from htinfo f] at hf
    rw [show s'.tinfos = s.tinfos from htinfos] at ht
    exact (h.timedOut f k t hf ht hcancelled).snoc e
  | @starts g hold hnew hother htinfos =>
    rw [show s'.tinfos = s.tinfos ++ [({} : TimerInfo)] from htinfos] at ht
    by_cases hg : f = g
    · subst hg
      -- a new `timer_info` is not cancelled
      rw [show (s'.fiber f).tinfo? = some s.tinfos.length from hnew] at hf
      cases hf
      rw [List.getElem?_concat_length] at ht
      cases ht
      exact absurd rfl hcancelled
    · rw [show (s'.fiber f).tinfo? = (s.fiber f).tinfo? from hother f hg] at hf
      have hlt := ((h.owned.alive k).mpr ⟨f, hf⟩).lt
      rw [List.getElem?_append_left hlt] at ht
      exact (h.timedOut f k t hf ht hcancelled).snoc e
  | @ends g j hold hnew hother htinfos =>
    have hg : f ≠ g := by
      rintro rfl
      rw [show (s'.fiber f).tinfo? = none from hnew] at hf
      cases hf
    rw [show (s'.fiber f).tinfo? = (s.fiber f).tinfo? from hother f hg] at hf
    have hj : j ≠ k := by
      rintro rfl
      exact hg (h.owned.one hf hold)
    rw [show s'.tinfos = s.tinfos.modify j _ from htinfos, List.getElem?_modify] at ht
    simp only [hj, if_false, Option.map_eq_map, Option.map_id'] at ht
    exact (h.timedOut f k t hf ht hcancelled).snoc e
  | @cancels g i fn cb tinfo ha hcb hrun' hold halive htinfo htinfos =>
    rw [show (s'.fiber f).tinfo? = (s.fiber f).tinfo? from htinfo f] at hf
    by_cases hk : fn.tinfo = k
    · subst hk
      obtain ⟨fn', rfl, -⟩ := h.armed.collected (List.mem_of_getElem? hcb)
      have heq : fn' = fn := by
        unfold Callback.run at hrun'
        dsimp only at hrun'
        split at hrun'
        · exact Option.some.inj hrun'
        · cases hrun'
      subst heq
      rcases e with ⟨a, eff⟩
      cases ha
      exact ⟨hist, g, i, eff, [], s, s', fn', rfl, hrun, hs, hcb, hf⟩
    · rw [show s'.tinfos = s.tinfos.set fn.tinfo _ from htinfos, List.getElem?_set_ne hk] at ht
      exact (h.timedOut f k t hf ht hcancelled).snoc e

theorem protocol_of_run {now : UInt64} {hist : List (BlockingEvent ω)} {s : Hooks ω}
    (hrun : Run BlockingStep (new now) hist s) : Protocol now hist s := by
  have hinv := hrun.history_invariant
    (fun hist s => Run BlockingStep (new now) hist s ∧ Protocol now hist s)
    ⟨.nil _, protocol_new now⟩ fun hist s e t h hs => ⟨h.1.snoc hs, h.2.step h.1 hs⟩
  exact hinv.2

/-! ## The end of a call -/

inductive Ends (now : UInt64) (hist : List (BlockingEvent ω)) (s : Hooks ω) (f : FiberId)
    (io : DoIo) (e : BlockingEvent ω) (s' : Hooks ω) : Prop
  /-- with the result of this call of `fun`; `accept` goes on to make a context for it -/
  | result {i : HookInput} (ha : e.1 = .hook (.step f i)) (hpc : s.fiber f = .attempt io)
      (hsyscall : e.2.syscall = some io.fd)
      (hret : e.2.ret = some (i.ret, i.errno) ∨
        io.fn = .accept ∧ 0 ≤ i.ret ∧ s'.fiber f = .adopt i.ret)
  | timedOut {tinfo : TimerInfo} (hpc : s.fiber f = .check io)
      (htinfo : s.tinfos[io.tinfo]? = some tinfo) (hcancelled : tinfo.cancelled ≠ 0)
      (hret : e.2.ret = some (-1, tinfo.cancelled)) (hran : CallbackRan now hist f io.tinfo)
  /-- `addEvent` has failed -/
  | refused {i : HookInput} {timer : Option Addr} {op : TableOp Unit Unit (HookThread ω)}
      {r : TableEffect Unit Unit × EventTable Unit Unit (HookThread ω)}
      (ha : e.1 = .hook (.step f i)) (hpc : s.fiber f = .addEvent io timer)
      (hop : EventTable.threadOf op = .inl f) (hact : s.table.act op = some r)
      (hfailed : r.1.ret = some false) (hret : e.2.ret = some (-1, i.errno))

/-- Nothing of the call is left: no timer, no registration, and its `timer_info` is nobody's. -/
structure Gone (s : Hooks ω) (f : FiberId) (io : DoIo) : Prop where
  timers : ∀ a ∈ s.timers.timers, ∀ fn, s.timers.callbackAt a ≠ some (.onTimer io.tinfo fn)
  slots : ∀ k, s.table.slot k ≠ some f
  tinfo : ¬ Alive s.tinfos io.tinfo

omit [DecidableEq ω] in
/-- A fiber is where it was, unless the step moves it. -/
theorem moved {s t : Blocking ω} {f g : FiberId} {pc : HookPc} (hfiber : t.fiber = s.fiber)
    (hne : (t.goto g pc).fiber f ≠ s.fiber f) : g = f ∧ (t.goto g pc).fiber f = pc := by
  by_cases hg : f = g
  · subst hg
    exact ⟨rfl, Blocking.goto_fiber_self ..⟩
  · rw [Blocking.goto_fiber_of_ne _ _ hg, hfiber] at hne
    exact absurd rfl hne

/-- A fiber begins to wait when it takes a slot. -/
theorem Protocol.begins {s s' : Blocking ω} {a : BlockingAction ω} {e : HookEffect}
    (h : Registered s.table s.woken s.fiber) (hm : Move s a e s') {f : FiberId}
    (hold : (s.fiber f).isWaiting = false) (hnew : (s'.fiber f).isWaiting = true) :
    ∃ k, s.table.slot k = none ∧ s'.table.slot k = some f := by
  -- the fiber has moved, and only `registered` moves it to a place where it waits
  have hne : s'.fiber f ≠ s.fiber f := by
    intro heq
    rw [heq, hold] at hnew
    cases hnew
  cases hm with
  | aside _ _ hio | called _ _ _ _ _ _ _ hio =>
    rw [(moved rfl hne).2, HookPc.isWaiting_of_io? hio] at hnew
    cases hnew
  | start _ _ | arm _ _ | resume _ _ | giveUp _ _ _ | timeout _ _ _ _ _ _ =>
    rw [(moved rfl hne).2] at hnew
    cases hnew
  | goesOn _ _ _ _ _ _ _ hpc =>
    rw [(moved rfl hne).2, hpc] at hnew
    cases hnew
  | done _ _ hwhere =>
    rw [(moved rfl hne).2] at hnew
    rcases hwhere with ⟨rfl, -⟩ | ⟨-, -, rfl, -⟩ <;> cases hnew
  | disarm _ hcancel =>
    rw [Blocking.cancelTimer_frame hcancel] at hne hnew
    rw [(moved rfl hne).2] at hnew
    cases hnew
  | refused _ _ _ _ _ hcancel =>
    rw [Blocking.cancelTimer_frame hcancel] at hne hnew
    rw [(moved rfl hne).2] at hnew
    cases hnew
  | calling _ _ _ _ _ | outside _ _ _ | expire _ | late => exact absurd rfl hne
  | registered hpc hthread hop hact hret =>
    obtain ⟨rfl, -⟩ := moved rfl hne
    exact (h.register hpc hthread hop hact hret).2

/-- A fiber that waits goes on when it has been woken. -/
theorem Protocol.resumes {s s' : Blocking ω} {a : BlockingAction ω} {e : HookEffect}
    (hm : Move s a e s') {f : FiberId} (hold : (s.fiber f).isWaiting = true)
    (hnew : (s'.fiber f).isWaiting = false) : s.woken f = true ∧ s'.woken f = false := by
  -- only `resume` takes a fiber out of its wait
  have hne : s'.fiber f ≠ s.fiber f := by
    intro heq
    rw [heq, hold] at hnew
    cases hnew
  cases hm with
  | aside hio _ _ | called _ _ hio _ _ _ _ _ =>
    obtain ⟨rfl, -⟩ := moved rfl hne
    rw [HookPc.isWaiting_of_io? hio] at hold
    cases hold
  | start hpc _ | arm hpc _ | giveUp hpc _ _ | done hpc _ _ | timeout hpc _ _ _ _ _
  | registered hpc _ _ _ _ =>
    obtain ⟨rfl, -⟩ := moved rfl hne
    rw [hpc] at hold
    cases hold
  | goesOn _ _ _ hpc _ _ _ _ =>
    obtain ⟨rfl, -⟩ := moved rfl hne
    rw [hpc] at hold
    cases hold
  | disarm hpc hcancel =>
    rw [Blocking.cancelTimer_frame hcancel] at hne
    obtain ⟨rfl, -⟩ := moved rfl hne
    rw [hpc] at hold
    cases hold
  | refused hpc _ _ _ _ hcancel =>
    rw [Blocking.cancelTimer_frame hcancel] at hne
    obtain ⟨rfl, -⟩ := moved rfl hne
    rw [hpc] at hold
    cases hold
  | calling _ _ _ _ _ | outside _ _ _ | expire _ | late => exact absurd rfl hne
  | resume _ hwoken =>
    obtain ⟨rfl, -⟩ := moved rfl hne
    exact ⟨hwoken, Function.update_self ..⟩

theorem Protocol.ends {now : UInt64} {hist : List (BlockingEvent ω)} {s s' : Hooks ω}
    {e : BlockingEvent ω} (h : Protocol now hist s) (hs : BlockingStep s e s') {f : FiberId}
    {io : DoIo} (hio : (s.fiber f).io? = some io) (hout : (s'.fiber f).io? = none) :
    Ends now hist s f io e s' := by
  rcases e with ⟨a, eff⟩
  have hold : (s.blocking.fiber f).io? = some io := hio
  -- of the steps that leave `do_io` there are three
  have hnew : (s'.blocking.fiber f).io? = none := hout
  have hne : s'.blocking.fiber f ≠ s.blocking.fiber f := by
    intro heq
    rw [heq, hold] at hnew
    cases hnew
  have hmove := hs.move
  dsimp only at hmove
  generalize ht : s'.blocking = t at hmove hnew hne
  cases hmove with
  | aside hpc _ _ | called _ _ hpc _ _ _ _ _ =>
    obtain ⟨rfl, -⟩ := moved rfl hne
    rw [hold] at hpc
    cases hpc
  | start hpc _ | timeout hpc _ _ _ _ _ =>
    obtain ⟨rfl, -⟩ := moved rfl hne
    rw [hpc] at hold
    cases hold
  | goesOn _ _ _ _ hpc _ _ _ =>
    rw [(moved rfl hne).2, hpc] at hnew
    cases hnew
  | arm _ _ | registered _ _ _ _ _ | resume _ _ =>
    rw [(moved rfl hne).2] at hnew
    cases hnew
  | disarm _ hcancel =>
    rw [Blocking.cancelTimer_frame hcancel] at hne hnew
    rw [(moved rfl hne).2] at hnew
    cases hnew
  | calling _ _ _ _ _ | outside _ _ _ | expire _ | late => exact absurd rfl hne
  | refused hpc hthread _ hact hret hcancel =>
    rw [Blocking.cancelTimer_frame hcancel] at hne
    obtain ⟨rfl, -⟩ := moved rfl hne
    rw [hpc] at hold
    cases hold
    exact .refused rfl hpc hthread hact hret rfl
  | giveUp hpc htinfo hcancelled =>
    obtain ⟨rfl, -⟩ := moved rfl hne
    rw [hpc] at hold
    cases hold
    exact .timedOut hpc htinfo hcancelled rfl
      (h.timedOut _ _ _ (HookPc.tinfo?_of_io? hio) htinfo hcancelled)
  | done hpc _ hwhere =>
    obtain ⟨rfl, hgoes⟩ := moved rfl hne
    rw [hpc] at hold
    cases hold
    refine .result rfl hpc rfl ?_
    rcases hwhere with ⟨rfl, hret⟩ | ⟨haccept, hnonneg, rfl, -⟩
    · exact .inl hret
    · refine .inr ⟨haccept, hnonneg, ?_⟩
      show s'.blocking.fiber _ = _
      rw [ht]
      exact hgoes

/-- What is left of a call when it is over. -/
theorem Protocol.gone {now : UInt64} {hist hist' : List (BlockingEvent ω)} {s s' : Hooks ω}
    {e : BlockingEvent ω} (h : Protocol now hist s) (h' : Protocol now hist' s')
    (hs : BlockingStep s e s') {f : FiberId} {io : DoIo} (hio : (s.fiber f).io? = some io)
    (hout : (s'.fiber f).io? = none) : Gone s' f io := by
  have hold : (s.fiber f).tinfo? = some io.tinfo := HookPc.tinfo?_of_io? hio
  have hnew : (s'.fiber f).tinfo? = none := HookPc.tinfo?_of_none hout
  have htinfo : ¬ Alive s'.tinfos io.tinfo := by
    intro halive
    obtain ⟨g, hg⟩ := (h'.owned.alive _).mp halive
    have hne : g ≠ f := by
      rintro rfl
      rw [hnew] at hg
      cases hg
    -- nobody else has taken the `timer_info` over
    have hg' : (s.fiber g).tinfo? = some io.tinfo := by
      cases hs.move.change with
      | keeps htinfo _ | cancels _ _ _ _ _ htinfo _ => exact (htinfo g).symm.trans hg
      | @starts f' hold' hnew' hother _ =>
        by_cases hgf : g = f'
        · subst hgf
          have heq := hnew'.symm.trans hg
          have hlt := ((h.owned.alive _).mpr ⟨f, hold⟩).lt
          exact absurd (Option.some.inj heq) (Nat.ne_of_gt hlt)
        · exact (hother g hgf).symm.trans hg
      | @ends f' k hold' hnew' hother _ =>
        by_cases hgf : g = f'
        · subst hgf
          have heq := hnew'.symm.trans hg
          cases heq
        · exact (hother g hgf).symm.trans hg
    exact hne (h.owned.one hg' hold)
  refine ⟨fun a ha fn heq => ?_, fun k hk => ?_, htinfo⟩
  · obtain ⟨t, ht, hcb⟩ := (h'.armed.ordered.mem_iff a).mp ha
    obtain ⟨cb, hcb⟩ := Option.isSome_iff_exists.mp hcb
    obtain ⟨-, g, io', hg, rfl⟩ := h'.armed.held ht hcb
    simp only [TimerManager.callbackAt, ht, Option.bind_some, hcb, Option.some.injEq,
      Callback.onTimer.injEq] at heq
    refine htinfo ((h'.owned.alive _).mpr ⟨g, ?_⟩)
    rw [HookPc.tinfo?_of_io? (HookPc.io?_of_timer? hg), heq.1]
  · have hwaits := (h'.registered.slots.waiting hk).1
    rw [HookPc.isWaiting_of_io? hout] at hwaits
    cases hwaits

/-! ## Callbacks of finished calls -/

/-- A `timer_info` that is gone stays so. -/
theorem dead_of_step {s s' : Hooks ω} {e : BlockingEvent ω} (hs : BlockingStep s e s') {k : Nat}
    (hk : k < s.tinfos.length) (hdead : ¬ Alive s.tinfos k) :
    k < s'.tinfos.length ∧ ¬ Alive s'.tinfos k := by
  cases hs.move.change with
  | keeps _ htinfos =>
    rw [show s'.tinfos = s.tinfos from htinfos]
    exact ⟨hk, hdead⟩
  | starts _ _ _ htinfos =>
    rw [show s'.tinfos = s.tinfos ++ [({} : TimerInfo)] from htinfos, Blocking.alive_append,
      List.length_append]
    refine ⟨Nat.lt_add_right _ hk, ?_⟩
    rintro (rfl | halive)
    · exact Nat.lt_irrefl _ hk
    · exact hdead halive
  | ends _ _ _ htinfos =>
    rw [show s'.tinfos = s.tinfos.modify _ _ from htinfos, Blocking.alive_modify,
      List.length_modify]
    exact ⟨hk, fun halive => hdead halive.2⟩
  | @cancels _ _ fn _ tinfo _ _ _ hold _ _ htinfos =>
    have hold' : s.tinfos[fn.tinfo]? = some tinfo := hold
    rw [show s'.tinfos = s.tinfos.set _ _ from htinfos, Blocking.alive_set hold', List.length_set]
    exact ⟨hk, hdead⟩

/-- The callback of a finished call finds its `timer_info` gone. -/
theorem late_timeout {s s' : Hooks ω} {f : FiberId} {i k : Nat} {fn : Option Timeout}
    {e : HookEffect} (hs : BlockingStep s (.hook (.timeout f i), e) s')
    (hcb : s.expired[i]? = some (.onTimer k fn)) (hdead : ¬ Alive s.tinfos k) :
    s' = { s with expired := s.expired.eraseIdx i } := by
  have hlock : (s.tinfos[k]?.map TimerInfo.alive).getD false = false := by
    cases ht : s.tinfos[k]? with
    | none => rfl
    | some t =>
      have hnot : t.alive ≠ true := fun halive => hdead ⟨t, ht, halive⟩
      simpa using hnot
  unfold BlockingStep at hs
  simp only [actBlocking, Hooks.act] at hs
  split at hs
  · cases hs
  split at hs
  · simp only [Hooks.timeout, hcb, Callback.run, hlock, Bool.false_eq_true, if_false] at hs
    cases hs
    rfl
  · cases hs

/-- Only its own callback makes a call time out. -/
theorem cancelled_by {s s' : Hooks ω} {e : BlockingEvent ω} {now : UInt64}
    {hist : List (BlockingEvent ω)} (h : Protocol now hist s) (hs : BlockingStep s e s') {k : Nat}
    {t t' : TimerInfo} (ht : s.tinfos[k]? = some t) (ht' : s'.tinfos[k]? = some t')
    (hne : t'.cancelled ≠ t.cancelled) :
    ∃ g i fn, e.1 = .hook (.timeout g i) ∧ s.expired[i]? = some (.onTimer k fn) := by
  cases hs.move.change with
  | keeps _ htinfos =>
    rw [show s'.tinfos = s.tinfos from htinfos, ht] at ht'
    cases ht'
    exact absurd rfl hne
  | starts _ _ _ htinfos =>
    rw [show s'.tinfos = s.tinfos ++ [({} : TimerInfo)] from htinfos,
      List.getElem?_append_left (List.getElem?_eq_some_iff.mp ht).choose, ht] at ht'
    cases ht'
    exact absurd rfl hne
  | @ends _ j _ _ _ htinfos =>
    rw [show s'.tinfos = s.tinfos.modify j _ from htinfos, List.getElem?_modify, ht] at ht'
    have heq := Option.some.inj ht'
    rw [← heq] at hne
    split at hne <;> exact absurd rfl hne
  | @cancels g i fn cb tinfo ha hcb hrun hold halive _ htinfos =>
    -- a callback that was collected knows its `timer_info`
    by_cases hk : fn.tinfo = k
    · subst hk
      obtain ⟨fn', rfl, -⟩ := h.armed.collected (List.mem_of_getElem? hcb)
      have heq : fn' = fn := by
        unfold Callback.run at hrun
        dsimp only at hrun
        split at hrun
        · exact Option.some.inj hrun
        · cases hrun
      subst heq
      exact ⟨g, i, some fn', ha, hcb⟩
    · rw [show s'.tinfos = s.tinfos.set fn.tinfo _ from htinfos, List.getElem?_set_ne hk, ht]
        at ht'
      cases ht'
      exact absurd rfl hne

structure Kept (now : UInt64) (hist : List (BlockingEvent ω)) (s : Hooks ω) (e : BlockingEvent ω)
    (s' : Hooks ω) : Prop where
  /-- a fiber that waits is in one slot or has been woken, and nobody else is -/
  slots : WaitSlots s.table.slot s.woken fun f => (s.fiber f).isWaiting = true
  /-- who goes on has been woken, and nothing of the registration or of the wake-up is left -/
  resumes : ∀ f, (s.fiber f).isWaiting = true → (s'.fiber f).isWaiting = false →
    s.woken f = true ∧ s'.woken f = false ∧ ∀ k, s'.table.slot k ≠ some f
  /-- who is woken is taken out of its slot -/
  wakes : ∀ f, s.woken f = false → s'.woken f = true →
    ∃ k, s.table.slot k = some f ∧ s'.table.slot k ≠ some f
  /-- between two waits of a fiber lies a registration -/
  registers : ∀ f before v between, Run BlockingStep (new now) before v →
    Run BlockingStep v between s → (v.fiber f).isWaiting = false → (s.fiber f).isWaiting = true →
    ∃ b₁ e₁ b₂ u u' k, between = b₁ ++ e₁ :: b₂ ∧ Run BlockingStep v b₁ u ∧
      BlockingStep u e₁ u' ∧ u.table.slot k = none ∧ u'.table.slot k = some f
  ends : ∀ f io, (s.fiber f).io? = some io → (s'.fiber f).io? = none →
    Ends now hist s f io e s' ∧ Gone s' f io
  /-- `accept` returns the number when it has made the context -/
  adopts : ∀ f i n, e.1 = .hook (.step f i) → s.fiber f = .adopt n ∨ s.fiber f = .create n →
    s'.fiber f = .create n ∨ s'.fiber f = .out ∧ e.2.ret = some (n, 0)
  dead : ∀ k, k < s.tinfos.length → ¬ Alive s.tinfos k →
    k < s'.tinfos.length ∧ ¬ Alive s'.tinfos k
  late : ∀ f i k fn, e.1 = .hook (.timeout f i) → s.expired[i]? = some (.onTimer k fn) →
    ¬ Alive s.tinfos k → s' = { s with expired := s.expired.eraseIdx i }
  cancels : ∀ k t t', s.tinfos[k]? = some t → s'.tinfos[k]? = some t' →
    t'.cancelled ≠ t.cancelled →
    ∃ g i fn, e.1 = .hook (.timeout g i) ∧ s.expired[i]? = some (.onTimer k fn)

theorem adopts_of_step {s s' : Hooks ω} {f : FiberId} {i : HookInput} {n : Int} {e : HookEffect}
    (hs : BlockingStep s (.hook (.step f i), e) s')
    (hpc : s.fiber f = .adopt n ∨ s.fiber f = .create n) :
    s'.fiber f = .create n ∨ s'.fiber f = .out ∧ e.ret = some (n, 0) := by
  unfold BlockingStep at hs
  simp only [actBlocking, Hooks.act] at hs
  split at hs
  · cases hs
  unfold Hooks.step at hs
  rcases hpc with hpc | hpc
  · rw [hpc] at hs
    dsimp only at hs
    split at hs
    · cases hs
    · cases hs
      exact .inl (Function.update_self ..)
    · cases hs
      exact .inr ⟨Function.update_self .., rfl⟩
  · rw [hpc] at hs
    cases hs
    exact .inr ⟨Function.update_self .., rfl⟩

theorem blocking_protocol {now : UInt64} {hist : List (BlockingEvent ω)} {s s' : Hooks ω}
    {e : BlockingEvent ω} (hrun : Run BlockingStep (new now) hist s) (hs : BlockingStep s e s') :
    Kept now hist s e s' := by
  have h := protocol_of_run hrun
  have h' := protocol_of_run (hrun.snoc hs)
  -- a fiber that does not wait is in no slot
  have hout : ∀ f, (s'.fiber f).isWaiting = false → ∀ k, s'.table.slot k ≠ some f := by
    intro f hf k hk
    rw [(h'.registered.slots.waiting hk).1] at hf
    cases hf
  refine {
    slots := h.registered.slots
    resumes := fun f hold hnew => ?_
    wakes := fun f hold hnew => ?_
    registers := fun f before v between hbefore hbetween hv hf => ?_
    ends := fun f io hio hnone => ⟨h.ends hs hio hnone, h.gone h' hs hio hnone⟩
    adopts := fun f i n ha hpc => ?_
    dead := fun k hk hdead => dead_of_step hs hk hdead
    late := fun f i k fn ha hcb hdead => ?_
    cancels := fun k t t' ht ht' hne => cancelled_by h hs ht ht' hne }
  · obtain ⟨hwoken, hgone⟩ := Protocol.resumes hs.move hold hnew
    exact ⟨hwoken, hgone, hout f hnew⟩
  · have hnone : ∀ k, s'.table.slot k ≠ some f := by
      intro k hk
      rw [(h'.registered.slots.waiting hk).2] at hnew
      cases hnew
    have hwaits : (s.fiber f).isWaiting = true := by
      by_contra hnot
      have hidle : (s.fiber f).isWaiting = false := by simpa using hnot
      obtain ⟨k, -, hk⟩ :=
        Protocol.begins h.registered hs.move hidle (h'.registered.slots.called hnew)
      exact hnone k hk
    rcases h.registered.slots.kept hwaits with hwoken | ⟨k, hk⟩
    · rw [hold] at hwoken
      cases hwoken
    · exact ⟨k, hk, hnone k⟩
  · obtain ⟨b₁, e₁, b₂, u, u', rfl, hu, hstep, -, hnot, hyes⟩ :=
      hbetween.crossing (fun s => (s.fiber f).isWaiting = true) (by simp [hv]) hf
    have hprotocol := protocol_of_run (hbefore.append hu)
    have hidle : (u.fiber f).isWaiting = false := by simpa using hnot
    obtain ⟨k, hfree, hslot⟩ := Protocol.begins hprotocol.registered hstep.move hidle hyes
    exact ⟨b₁, e₁, b₂, u, u', k, rfl, hu, hstep, hfree, hslot⟩
  · rcases e with ⟨a, eff⟩
    obtain rfl : a = .hook (.step f i) := ha
    exact adopts_of_step hs hpc
  · rcases e with ⟨a, eff⟩
    obtain rfl : a = .hook (.timeout f i) := ha
    exact late_timeout hs hcb hdead

/-- Fiber 1 waits in `read(5)` for 100 ms at most; its callback runs on fiber 3, and it returns
`ETIMEDOUT`. -/
theorem blocking_protocol_timeout : ∃ (hist : List (BlockingEvent Unit)) (s s' : Hooks Unit)
    (e : BlockingEvent Unit) (io : DoIo), Run BlockingStep (new 0) hist s ∧
      BlockingStep s e s' ∧ s.fiber 1 = .check io ∧ e.2.ret = some (-1, ETIMEDOUT) ∧
      Kept 0 hist s e s' := by
  let io : DoIo := { fn := .read, fd := 5, ctx := 0, timeout := 100, tinfo := 0 }
  have hlast : (runActs (fun s a => if true then actBlocking s a else none) (new 0 : Hooks Unit)
      [.hook (.call 1 .socket true), .hook (.step 1 { ret := 5 }), .hook (.step 1 {}),
        .hook (.step 1 {}), .hook (.call 1 (.setsockopt 5 .rcvtimeo 100) true),
        .hook (.call 1 (.io .read 5) true), .hook (.step 1 { ret := -1, errno := EINTR }),
        .hook (.step 1 { ret := -1, errno := EAGAIN }), .hook (.step 1 {}), .hook (.step 1 {}),
        .hook (.step 1 {}), .cancelEvent () 5 .write, .lock () true, .hook (.expire 9 200),
        .hook (.timeout 3 0), .hook (.step 3 {}), .hook (.step 3 {}), .hook (.step 1 {}),
        .hook (.step 1 {})]).map (fun r =>
          (r.2.fiber 1, (r.2.actBlocking (.hook (.step 1 {}))).map fun r => r.1)) =
      some (.check io, some { ret := some (-1, ETIMEDOUT) }) := by
    decide
  rcases Option.map_eq_some_iff.mp hlast with ⟨⟨hist, s⟩, hs, hvalues⟩
  simp only [Prod.mk.injEq] at hvalues
  rcases hvalues with ⟨hfiber, hact⟩
  rcases Option.map_eq_some_iff.mp hact with ⟨⟨eff, s'⟩, hstep, heff⟩
  cases heff
  have hrun := run_of_runActs (fun _ _ => True) (fun _ _ => true) (fun _ _ _ => trivial) hs
  have hblocking : Run BlockingStep (new 0) hist s := hrun.unguarded
  exact ⟨hist, s, s', (.hook (.step 1 {}), _), io, hblocking, hstep, hfiber, rfl,
    blocking_protocol hblocking hstep⟩

end Hooks

end Azure
