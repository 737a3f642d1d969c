import Azure.IOManager.PendingCount

/-!
# The table of contexts

`addEvent` looks at the size of `m_fdContexts` in one section and lets it grow in another, to a size
that depends on its own descriptor only.  When another call has let it grow further in between, the
table becomes shorter again, and what is registered behind its end is out of reach.
-/

namespace Azure

open Reasoning

variable {S C τ : Type}

/-! ## The object keeps its number -/

theorem FdContext.fd_triggerEvent {ctx : FdContext S C} {event : IoEvent}
    {r : (S × FiberOrCb C) × FdContext S C} (h : ctx.triggerEvent event = some r) :
    r.2.fd = ctx.fd := by
  unfold triggerEvent at h
  split at h
  · dsimp only at h
    split at h
    · cases h
    · split at h <;> cases h <;> cases event <;> rfl
  · cases h

theorem Section.fd_triggerIf {r r' : Section S C} {cond : Bool} {event : IoEvent}
    (h : r.triggerIf cond event = some r') : r'.ctx.fd = r.ctx.fd := by
  unfold triggerIf at h
  split at h
  · rcases Option.map_eq_some_iff.mp h with ⟨t, ht, heq⟩
    cases heq
    exact FdContext.fd_triggerEvent ht
  · cases h
    rfl

theorem FdContext.fd_setContext (ctx : FdContext S C) (event : IoEvent) (slot : EventContext S C) :
    (ctx.setContext event slot).fd = ctx.fd := by
  cases event <;> rfl

theorem IoCall.fd_locked {call : IoCall S C} {ctx : FdContext S C} {ok : Bool} {r : Section S C}
    (h : call.locked ctx ok = some r) : r.ctx.fd = ctx.fd := by
  cases call with
  | addEvent fd event cb scheduler fiber =>
    simp only [locked, addEventLocked] at h
    split at h
    · cases h
    split at h
    · cases h
      rfl
    split at h
    · cases h
    split at h
    · cases h
    · cases h
      exact FdContext.fd_setContext _ event _
  | delEvent fd event =>
    simp only [locked, delEventLocked] at h
    split at h
    · cases h
      rfl
    split at h
    · cases h
      rfl
    · cases h
      exact FdContext.fd_setContext _ event _
  | cancelEvent fd event =>
    simp only [locked, cancelEventLocked] at h
    split at h
    · cases h
      rfl
    split at h
    · cases h
      rfl
    · exact Section.fd_triggerIf h
  | cancelAll fd =>
    simp only [locked, cancelAllLocked] at h
    split at h
    · cases h
      rfl
    split at h
    · cases h
      rfl
    · rcases Option.bind_eq_some_iff.mp h with ⟨r₁, h₁, hrest⟩
      rcases Option.bind_eq_some_iff.mp hrest with ⟨r₂, h₂, hlast⟩
      split at hlast
      · cases hlast
        rw [Section.fd_triggerIf h₂, Section.fd_triggerIf h₁]
      · cases hlast

theorem FdContext.fd_dispatch {ctx : FdContext S C} {ev : EpollEvents} {ok : Bool}
    {r : Section S C} (h : ctx.dispatch ev ok = some r) : r.ctx.fd = ctx.fd := by
  simp only [dispatch] at h
  split at h
  · cases h
    rfl
  split at h
  · cases h
    rfl
  · rcases Option.bind_eq_some_iff.mp h with ⟨r₁, h₁, h₂⟩
    rw [Section.fd_triggerIf h₂, Section.fd_triggerIf h₁]

namespace EventTable

variable [DecidableEq τ]

/-- When the table is made longer for a descriptor, it is no longer than that yet. -/
def Grows (s : EventTable S C τ) : TableOp S C τ → Prop
  | .resize t =>
    match s.caller t with
    | .resize call => s.fdContexts.length ≤ (call.fd * 3 / 2).toNat
    | _ => True
  | _ => True

instance (s : EventTable S C τ) : (op : TableOp S C τ) → Decidable (s.Grows op)
  | .resize t =>
    match h : s.caller t with
    | .resize call =>
      decidable_of_iff (s.fdContexts.length ≤ (call.fd * 3 / 2).toNat) (by simp only [Grows, h])
    | .out | .lock .. | .dispatch _ => .isTrue (by simp only [Grows, h])
  | .call .. | .lock .. | .epollWait .. | .dispatch .. => .isTrue trivial

/-- What has an event registered, and what a call is at work on, is where the table has it. -/
structure Reachable (s : EventTable S C τ) : Prop where
  registered : ∀ a ctx, s.contexts[a]? = some ctx → ctx.events ≠ {} → s.fdContext ctx.fd = some a
  calls : ∀ t call a, s.caller t = .lock call a → s.fdContext call.fd = some a

/-- The table gets no shorter, what is in it stays there, and what is registered can be reached. -/
structure Keeps (s s' : EventTable S C τ) : Prop where
  prefixed : s.fdContexts <+: s'.fdContexts
  reachable : s'.Reachable

structure Placed (s : EventTable S C τ) : Prop where
  contexts : ∀ (a : CtxAddr) (ctx : FdContext S C), s.contexts[a]? = some ctx →
    s.fdContexts[ctx.fd]? = some a
  calls : ∀ t call a, s.caller t = .lock call a → s.fdContext call.fd = some a

omit [DecidableEq τ] in
theorem fdContext_natCast (s : EventTable S C τ) (n : Nat) :
    s.fdContext n = s.fdContexts[n]? := by
  unfold fdContext
  rw [if_neg (by omega), Int.toNat_natCast]

omit [DecidableEq τ] in
theorem Placed.reachable {s : EventTable S C τ} (h : s.Placed) : s.Reachable where
  registered a ctx hctx _ := by
    rw [fdContext_natCast]
    exact h.contexts a ctx hctx
  calls := h.calls

theorem getElem?_of_prefix {α : Type*} {xs ys : List α} (h : xs <+: ys) {i : Nat} {x : α}
    (hx : xs[i]? = some x) : ys[i]? = some x := by
  rcases h with ⟨zs, rfl⟩
  rw [List.getElem?_append_left (List.getElem?_eq_some_iff.mp hx).choose, hx]

omit [DecidableEq τ] in
theorem fdContext_mono {s s' : EventTable S C τ} (h : s.fdContexts <+: s'.fdContexts) {fd : Int}
    {a : CtxAddr} (ha : s.fdContext fd = some a) : s'.fdContext fd = some a := by
  unfold fdContext at ha ⊢
  split at ha
  · cases ha
  · next hfd =>
    rw [if_neg hfd]
    exact getElem?_of_prefix h ha

/-! ## One step -/

omit [DecidableEq τ] in
/-- A table that is long enough is extended. -/
theorem contextResize_of_le {s : EventTable S C τ} {size : Nat} (h : s.fdContexts.length ≤ size) :
    (s.contextResize size).fdContexts = s.fdContexts ++
        List.range' s.contexts.length (size - s.fdContexts.length) ∧
      (s.contextResize size).contexts = s.contexts ++
        (List.range' s.fdContexts.length (size - s.fdContexts.length)).map fun i => { fd := i } := by
  unfold contextResize
  rw [List.take_of_length_le h]
  exact ⟨rfl, rfl⟩

omit [DecidableEq τ] in
theorem Placed.contextResize {s : EventTable S C τ} (h : s.Placed) {size : Nat}
    (hsize : s.fdContexts.length ≤ size) : (s.contextResize size).Placed := by
  rcases contextResize_of_le hsize with ⟨hfds, hctxs⟩
  constructor
  · intro a ctx hctx
    rw [hctxs] at hctx
    rw [hfds]
    by_cases ha : a < s.contexts.length
    · rw [List.getElem?_append_left ha] at hctx
      have hold := h.contexts a ctx hctx
      exact getElem?_of_prefix (List.prefix_append _ _) hold
    · -- one of the new objects
      rw [List.getElem?_append_right (Nat.le_of_not_lt ha), List.getElem?_map] at hctx
      rcases Option.map_eq_some_iff.mp hctx with ⟨i, hi, rfl⟩
      rcases List.getElem?_eq_some_iff.mp hi with ⟨hlt, hget⟩
      rw [List.getElem_range'] at hget
      subst hget
      simp only [List.length_range'] at hlt
      show (s.fdContexts ++ _)[s.fdContexts.length + 1 * (a - s.contexts.length)]? = some a
      have hge : s.contexts.length ≤ a := Nat.le_of_not_lt ha
      rw [List.getElem?_append_right (by omega), List.getElem?_range' (by omega)]
      congr 1
      omega
  · exact fun t call a hcall => fdContext_mono (hfds ▸ List.prefix_append _ _) (h.calls t call a hcall)

/-- Nothing but the resize touches the table, and the sections leave the numbers alone. -/
theorem Placed.leave {s : EventTable S C τ} (h : s.Placed) (t : τ) {a : CtxAddr}
    {ctx : FdContext S C} {next : Caller S C} (ret : Section S C → Option Bool)
    {r : Option (Section S C)} (hctx : s.contexts[a]? = some ctx)
    (hr : ∀ r', r = some r' → r'.ctx.fd = ctx.fd)
    (hnext : ∀ call b, next = .lock call b → s.fdContext call.fd = some b) :
    (s.leave t a next ret r).2.Placed := by
  cases r with
  | none => exact ⟨h.contexts, h.calls⟩
  | some r =>
    constructor
    · intro b ctx' hctx'
      have hset : (s.contexts.set a r.ctx)[b]? = some ctx' := hctx'
      rw [List.getElem?_set] at hset
      split at hset
      · next hab =>
        subst hab
        split at hset
        · cases hset
          show s.fdContexts[r.ctx.fd]? = some a
          rw [hr r rfl]
          exact h.contexts a ctx hctx
        · cases hset
      · exact h.contexts b ctx' hset
    · intro u call b hcall
      have hcaller : Function.update s.caller t next u = .lock call b := hcall
      by_cases hu : u = t
      · subst hu
        rw [Function.update_self] at hcaller
        exact hnext call b hcaller
      · rw [Function.update_of_ne hu] at hcaller
        exact h.calls u call b hcaller

theorem Placed.setCaller {s : EventTable S C τ} (h : s.Placed) (t : τ) {c : Caller S C}
    (hc : ∀ call a, c = .lock call a → s.fdContext call.fd = some a) : (s.setCaller t c).Placed where
  contexts := h.contexts
  calls u call a hcall := by
    have hcaller : Function.update s.caller t c u = .lock call a := hcall
    by_cases hu : u = t
    · subst hu
      rw [Function.update_self] at hcaller
      exact hc call a hcaller
    · rw [Function.update_of_ne hu] at hcaller
      exact h.calls u call a hcaller

theorem Placed.step {s s' : EventTable S C τ} {op : TableOp S C τ} {e : TableEffect S C}
    (h : s.Placed) (hgrows : s.Grows op) (hm : Move s op e s') :
    s.fdContexts <+: s'.fdContexts ∧ s'.Placed := by
  cases hm with
  | @find t call a hcaller hctx =>
    refine ⟨List.prefix_rfl, h.setCaller t fun call' b hlock => ?_⟩
    cases hlock
    exact hctx
  | @grow t _ _ | @epollWait t _ _ | @dispatched t _ _ =>
    exact ⟨List.prefix_rfl, h.setCaller t fun call b hlock => nomatch hlock⟩
  | refuse _ _ => exact ⟨List.prefix_rfl, h⟩
  | @resize t call a hcaller hctx =>
    have hsize : s.fdContexts.length ≤ (call.fd * 3 / 2).toNat := by
      simpa [Grows, hcaller] using hgrows
    constructor
    · show s.fdContexts <+: (s.contextResize _).fdContexts
      rw [(contextResize_of_le hsize).1]
      exact List.prefix_append _ _
    · apply (h.contextResize hsize).setCaller t
      intro call' b hlock
      cases hlock
      exact hctx
  | @lock t call a ctx ok hcaller hctx =>
    have hsame : ∀ r : Option (Section S C),
        (s.leave t a .out (fun r => some r.ret) r).2.fdContexts = s.fdContexts := by
      intro r
      cases r <;> rfl
    refine ⟨by simp only [hsame, List.prefix_rfl], h.leave t _ hctx (fun r' hr' => IoCall.fd_locked hr') ?_⟩
    exact fun _ _ hnext => nomatch hnext
  | @dispatch t a ev rest ctx ok hcaller hctx =>
    have hsame : ∀ r : Option (Section S C),
        (s.leave t a (.dispatch rest) (fun _ => none) r).2.fdContexts = s.fdContexts := by
      intro r
      cases r <;> rfl
    refine ⟨by simp only [hsame, List.prefix_rfl], h.leave t _ hctx (fun r' hr' => FdContext.fd_dispatch hr') ?_⟩
    exact fun _ _ hnext => nomatch hnext

/-- A step that keeps the table has grown it, if it was a resize. -/
theorem grows_of_move {s s' : EventTable S C τ} {op : TableOp S C τ} {e : TableEffect S C}
    (hm : Move s op e s') (h : s.fdContexts <+: s'.fdContexts) : s.Grows op := by
  cases hm with
  | @resize t call a hcaller hctx =>
    simp only [Grows, hcaller]
    by_contra hshort
    have hlength : (s.contextResize (call.fd * 3 / 2).toNat).fdContexts.length =
        (call.fd * 3 / 2).toNat := by
      simp only [EventTable.contextResize, List.length_append, List.length_take,
        List.length_range']
      omega
    have hle := h.length_le
    have : (s.contextResize (call.fd * 3 / 2).toNat).fdContexts.length <
        s.fdContexts.length := by omega
    exact absurd hle (Nat.not_le.mpr this)
  | _ => trivial

/-! ## Runs -/

omit [DecidableEq τ] in
theorem placed_new : (new : EventTable S C τ).Placed := by
  have hempty : ({} : EventTable S C τ).Placed := by
    constructor <;> simp
  exact hempty.contextResize (Nat.zero_le 32)

/-- In a run the table never gets shorter, its pointers stay, and what is registered can be reached
by its descriptor, if and only if each call that lets the table grow finds it no longer than what
it makes of it. -/
theorem contexts_kept (hist : List (Event S C τ)) (s : EventTable S C τ) :
    Run (fun s e s' => Step s e s' ∧ s.Keeps s') new hist s ↔
      Run (Guarded (fun s e => s.Grows e.1) Step) new hist s := by
  apply Run.iff_of_invariant Placed placed_new
  · intro s e s' h hs
    exact (h.step hs.1 (move_of_act hs.2).2).2
  · intro s e s' h
    constructor
    · rintro ⟨hs, hkeeps⟩
      exact ⟨grows_of_move (move_of_act hs).2 hkeeps.prefixed, hs⟩
    · rintro ⟨hgrows, hs⟩
      have hstep := h.step hgrows (move_of_act hs).2
      exact ⟨hs, hstep.1, hstep.2.reachable⟩

/-- Two threads register descriptors behind the table, one after the other. -/
theorem contexts_kept_twice : ∃ (hist : List (Event Unit Unit Bool))
    (s : EventTable Unit Unit Bool), Run (fun s e s' => Step s e s' ∧ s.Keeps s') new hist s ∧
      s.fdContexts.length = 75 := by
  have hlast : (runActs (fun (s : EventTable Unit Unit Bool) op =>
        if decide (s.Grows op) then act s op else none) new
      [.call true (.addEvent 33 .read none (some ()) 1), .resize true, .lock true true,
        .call false (.addEvent 50 .read none (some ()) 2), .resize false,
        .lock false true]).map (fun r => r.2.fdContexts.length) = some 75 := by
    decide
  rcases Option.map_eq_some_iff.mp hlast with ⟨⟨hist, s⟩, hs, hlength⟩
  have hgrows := run_of_runActs (fun (s : EventTable Unit Unit Bool) op => s.Grows op)
    (fun s op => decide (s.Grows op)) (fun _ _ h => of_decide_eq_true h) hs
  exact ⟨hist, s, (contexts_kept hist s).mpr hgrows, hlength⟩

/-- Both threads find the table too short; the one with the smaller descriptor comes second, and
`READ` of 50 is out of reach. -/
theorem resize_forgets : ∃ (hist : List (Event Unit Unit Bool)) (s : EventTable Unit Unit Bool)
    (a : CtxAddr) (ctx : FdContext Unit Unit), Run Step new hist s ∧ ¬ s.Reachable ∧
      s.contexts[a]? = some ctx ∧ ctx.fd = 50 ∧ ctx.events.has .read = true ∧
      (s.act (.call true (.cancelAll 50))).map (fun r => r.1.ret) = some (some false) := by
  let ctx : FdContext Unit Unit := {
    fd := 50, read := { scheduler := some (), fiber := some 1 }, events := { read := true } }
  have hlast : (runActs (fun s op => if true then act s op else none)
      (new : EventTable Unit Unit Bool)
      [.call true (.addEvent 50 .read none (some ()) 1),
        .call false (.addEvent 33 .read none (some ()) 2), .resize true, .lock true true,
        .resize false, .lock false true]).map (fun r => (r.2.contexts[50]?, r.2.fdContext 50,
          (r.2.act (.call true (.cancelAll 50))).map fun r => r.1.ret)) =
      some (some ctx, none, some (some false)) := by
    decide
  rcases Option.map_eq_some_iff.mp hlast with ⟨⟨hist, s⟩, hs, hvalues⟩
  simp only [Prod.mk.injEq] at hvalues
  rcases hvalues with ⟨hctx, hnone, hret⟩
  have hrun := run_of_runActs (fun _ _ => True) (fun _ _ => true) (fun _ _ _ => trivial) hs
  refine ⟨hist, s, 50, ctx, hrun.unguarded, fun hreach => ?_, hctx, rfl, rfl, hret⟩
  have hat : s.fdContext 50 = some 50 := hreach.registered 50 ctx hctx (by decide)
  rw [hnone] at hat
  cases hat

end EventTable

end Azure
