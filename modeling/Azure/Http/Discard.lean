import Azure.Http.Exchange

/-!
# Connections of failed exchanges

`recvResponse` closes the connection before it returns null, so that `ReleasePtr` deletes it.  After a
send that has failed nobody closes it.
-/

namespace Azure

open Reasoning

/-! ## Null responses -/

section Null

variable {α β : Type} {closed : Bool}

theorem Recv.closed_of_bind {r : Recv α} {f : α → List ReadResult → Option (Recv β)}
    (hr : r = .null closed → closed = true)
    (hf : ∀ a reads, f a reads = some (.null closed) → closed = true)
    (h : r.bind f = some (.null closed)) : closed = true := by
  cases r with
  | wait | thrown => cases h
  | null c =>
    cases h
    exact hr rfl
  | ret a reads => exact hf a reads h

theorem Recv.closed_of_map {r : Option (Recv α)} {f : α → β}
    (hr : r = some (.null closed) → closed = true) (h : r.map (Recv.map f) = some (.null closed)) :
    closed = true := by
  obtain ⟨x, rfl, hx⟩ := Option.map_eq_some_iff.mp h
  cases x with
  | wait | thrown | ret => cases hx
  | null c =>
    cases hx
    exact hr rfl

theorem HeadLoop.closed_of_null {P : Type} {L : HeadLoop P} {reads : List ReadResult} {parser : P}
    {left : Bytes} (h : L.recvHead parser left reads = some (.null closed)) : closed = true := by
  induction reads generalizing parser left with
  | nil => cases h
  | cons r reads ih =>
    cases r with
    | fail r =>
      rw [recvHead] at h
      split at h <;> cases h
      rfl
    | data bytes =>
      rw [recvHead] at h
      split at h
      · cases h
      · split at h
        · cases h
        · cases h
          rfl
        · cases h
        · exact ih h

theorem SocketStream.closed_of_null {length : UInt64} {reads : List ReadResult}
    (h : readFixSize length reads = some (.null closed)) : closed = true := by
  unfold readFixSize at h
  dsimp only at h
  split at h
  · cases h
  · split at h
    · cases h
    · split at h
      · cases h
        rfl
      · split at h <;> cases h

theorem closed_of_recvBody {length : Int} {left : Bytes} {reads : List ReadResult}
    (h : recvBody length left reads = some (.null closed)) : closed = true := by
  unfold recvBody at h
  split at h
  · cases h
  · split at h
    · cases h
    · exact Recv.closed_of_map SocketStream.closed_of_null h

namespace HttpConnection

variable {M : Scanner Nat ResponseAction} {size : Nat}

theorem closed_of_recvRest {reads : List ReadResult} {left : Int} {body : Bytes}
    (h : recvRest size left body reads = some (.null closed)) : closed = true := by
  obtain ⟨used, rest, -, ⟨hr, -⟩ | ⟨hr, -⟩ | ⟨n, hr, -⟩⟩ := recvRest_outcome h
  · cases hr
  · cases hr
  · cases hr
    rfl

theorem closed_of_recvChunkHead {parser : HttpResponseParser} {left : Bytes}
    {reads : List ReadResult} (h : recvChunkHead M size parser left reads = some (.null closed)) :
    closed = true := by
  unfold recvChunkHead at h
  dsimp only at h
  split at h
  · exact HeadLoop.closed_of_null h
  · split at h
    · cases h
    · cases h
      rfl
    · cases h
    · exact HeadLoop.closed_of_null h

theorem closed_of_recvChunkData {contentLen : Int} {left body : Bytes} {reads : List ReadResult}
    (h : recvChunkData size contentLen left body reads = some (.null closed)) : closed = true := by
  unfold recvChunkData at h
  split at h
  · cases h
  · split at h
    · split at h <;> cases h
    · obtain ⟨r, hr, hbind⟩ := Option.bind_eq_some_iff.mp h
      apply Recv.closed_of_bind ?_ ?_ hbind
      · rintro rfl
        exact closed_of_recvRest hr
      · intro body reads hret
        split at hret <;> cases hret

theorem closed_of_recvChunks {n : Nat} {parser : HttpResponseParser} {left body : Bytes}
    {reads : List ReadResult}
    (h : recvChunks M size n parser left body reads = some (.null closed)) : closed = true := by
  induction n generalizing parser left body reads with
  | zero => cases h
  | succ n ih =>
    rw [recvChunks] at h
    obtain ⟨r, hr, hbind⟩ := Option.bind_eq_some_iff.mp h
    apply Recv.closed_of_bind ?_ ?_ hbind
    · rintro rfl
      exact closed_of_recvChunkHead hr
    · rintro ⟨parser, left⟩ reads hdata
      obtain ⟨q, hq, hbind'⟩ := Option.bind_eq_some_iff.mp hdata
      apply Recv.closed_of_bind ?_ ?_ hbind'
      · rintro rfl
        exact closed_of_recvChunkData hq
      · rintro ⟨body, left⟩ reads hrest
        dsimp only at hrest
        split at hrest
        · cases hrest
        · exact ih hrest

/-- When `recvResponse` returns null, it has closed the connection. -/
theorem closed_of_recvResponse {reads : List ReadResult}
    (h : recvResponse M size reads = some (.null closed)) : closed = true := by
  unfold recvResponse at h
  obtain ⟨r, hr, hbind⟩ := Option.bind_eq_some_iff.mp h
  apply Recv.closed_of_bind ?_ ?_ hbind
  · rintro rfl
    exact HeadLoop.closed_of_null hr
  · rintro ⟨parser, left⟩ reads hbody
    dsimp only at hbody
    split at hbody
    · exact Recv.closed_of_map closed_of_recvChunks hbody
    · exact Recv.closed_of_map closed_of_recvBody hbody

end HttpConnection

end Null

/-! ## Connections in `ReleasePtr` -/

namespace Pool

variable {limits : PoolLimits} {s s' : Pool} {ptr : ConnId}

theorem act_move {a : PoolAction} {eff : PoolEffect} (h : s.act limits a = some (eff, s')) :
    Move limits s a eff s' := Step.move (e := (a, eff)) h

def Closed (s : Pool) (ptr : ConnId) : Prop :=
  ∃ conn, s.heap[ptr]? = some conn ∧ conn.isConnected = false

def Freed (s : Pool) (ptr : ConnId) : Prop :=
  ∃ conn, s.heap[ptr]? = some conn ∧ conn.freed = true

theorem Closed.move {a : PoolAction} {eff : PoolEffect} (h : s.Closed ptr)
    (hm : Move limits s a eff s') : s'.Closed ptr := by
  obtain ⟨conn, hconn, hclosed⟩ := h
  obtain ⟨conn', hconn', -, hmono⟩ := hm.heap_mono hconn
  exact ⟨conn', hconn', hmono hclosed⟩

theorem Freed.move {a : PoolAction} {eff : PoolEffect} (h : s.Freed ptr)
    (hm : Move limits s a eff s') : s'.Freed ptr := by
  obtain ⟨conn, hconn, hfreed⟩ := h
  obtain ⟨conn', hconn', hmono, -⟩ := hm.heap_mono hconn
  exact ⟨conn', hconn', hmono hfreed⟩

theorem Freed.not_idle (h : s.Freed ptr) (ho : Owned s) : ptr ∉ s.conns := by
  intro hptr
  obtain ⟨conn, hconn, hfreed⟩ := h
  obtain ⟨conn', hderef⟩ := Option.isSome_iff_exists.mp (ho.live .conns ptr hptr)
  rw [getElem?_of_deref hderef] at hconn
  cases hconn
  rw [freed_of_deref hderef] at hfreed
  cases hfreed

/-- What `ReleasePtr` asks of a connection before it puts it back. -/
def Keeps (limits : PoolLimits) (s : Pool) (ptr : ConnId) : Prop :=
  ∃ conn, s.deref ptr = some conn ∧ conn.isConnected = true ∧ limits.expired conn s.clock = false ∧
    conn.request + 1 < limits.maxRequest.toInt

theorem Closed.not_keeps (h : s.Closed ptr) : ¬ s.Keeps limits ptr := by
  rintro ⟨conn, hderef, hopen, -⟩
  obtain ⟨conn', hconn', hclosed⟩ := h
  rw [getElem?_of_deref hderef] at hconn'
  cases hconn'
  rw [hopen] at hclosed
  cases hclosed

/-- Where fiber `f` is in `ReleasePtr`; `kept` says which exchanges may have their connection put
back. -/
inductive InRelease (kept : Option HttpResultError → Prop) (s : Pool) (f : FiberId) (ptr : ConnId)
    (error : Option HttpResultError) : Prop
  | look : s.fiber f = .release ptr → (error = some .timeout → s.Closed ptr) →
      InRelease kept s f ptr error
  | delete : s.fiber f = .delete ptr → InRelease kept s f ptr error
  | discount : s.fiber f = .discount → s.Freed ptr → InRelease kept s f ptr error
  | pushBack : s.fiber f = .pushBack ptr → kept error → InRelease kept s f ptr error

variable {kept : Option HttpResultError → Prop} {f : FiberId} {error : Option HttpResultError}

theorem InRelease.other {a : PoolAction} {eff : PoolEffect} (h : InRelease kept s f ptr error)
    (hm : Move limits s a eff s') (ha : a.actor ≠ some f) : InRelease kept s' f ptr error := by
  have hfiber := hm.fiber_of_ne ha
  cases h with
  | look hpc hclosed => exact .look (hfiber.trans hpc) fun he => (hclosed he).move hm
  | delete hpc => exact .delete (hfiber.trans hpc)
  | discount hpc hfreed => exact .discount (hfiber.trans hpc) (hfreed.move hm)
  | pushBack hpc hkept => exact .pushBack (hfiber.trans hpc) hkept

/-- The next step in `ReleasePtr`. -/
theorem InRelease.step {ok : Bool} {eff : PoolEffect} (h : InRelease kept s f ptr error)
    (hm : Move limits s (.step f ok) eff s')
    (hkept : s.fiber f = .release ptr → error ≠ some .timeout → s.Keeps limits ptr → kept error) :
    (s'.fiber f ≠ .out ∧ InRelease kept s' f ptr error) ∨
      (s'.fiber f = .out ∧
        (s'.Freed ptr ∨ s.fiber f = .pushBack ptr ∧ kept error ∧ ptr ∈ s'.conns)) := by
  cases h with
  | look hpc hclosed =>
    left
    cases hm with
    | retire hpc' =>
      obtain rfl : ptr = _ := by simpa [hpc] using hpc'
      refine ⟨?_, .delete (fiber_goto_self ..)⟩
      rw [fiber_goto_self]
      simp
    | keep hpc' hconn hopen hyoung hless =>
      obtain rfl : ptr = _ := by simpa [hpc] using hpc'
      -- the connection is good, so it is put back
      have hkeeps : s.Keeps limits ptr := ⟨_, hconn, hopen, hyoung, hless⟩
      have herror : error ≠ some .timeout := fun he => (hclosed he).not_keeps hkeeps
      refine ⟨?_, .pushBack (fiber_goto_self ..) (hkept hpc herror hkeeps)⟩
      rw [fiber_goto_self]
      simp
    | lock hpc' | empty hpc' | invalid hpc' | take hpc' | dispose hpc' | found hpc'
    | notFound hpc' | fail hpc' | connect hpc' | count hpc' | delete hpc' | discount hpc'
    | pushBack hpc' =>
      rw [hpc] at hpc'
      cases hpc'
  | delete hpc =>
    left
    cases hm with
    | delete hpc' hlive =>
      obtain rfl : ptr = _ := by simpa [hpc] using hpc'
      refine ⟨?_, .discount (fiber_goto_self ..) ?_⟩
      · rw [fiber_goto_self]
        simp
      · obtain ⟨conn, hconn⟩ := Option.isSome_iff_exists.mp hlive
        refine ⟨{ conn with freed := true }, ?_, rfl⟩
        show (s.heap.modify ptr _)[ptr]? = _
        rw [List.getElem?_modify_eq, getElem?_of_deref hconn]
        rfl
    | lock hpc' | empty hpc' | invalid hpc' | take hpc' | dispose hpc' | found hpc'
    | notFound hpc' | fail hpc' | connect hpc' | count hpc' | retire hpc' | keep hpc'
    | discount hpc' | pushBack hpc' =>
      rw [hpc] at hpc'
      cases hpc'
  | discount hpc hfreed =>
    right
    have hfreed' := hfreed.move hm
    cases hm with
    | discount => exact ⟨fiber_goto_self .., .inl hfreed'⟩
    | lock hpc' | empty hpc' | invalid hpc' | take hpc' | dispose hpc' | found hpc'
    | notFound hpc' | fail hpc' | connect hpc' | count hpc' | retire hpc' | keep hpc'
    | delete hpc' | pushBack hpc' =>
      rw [hpc] at hpc'
      cases hpc'
  | pushBack hpc hkept' =>
    right
    cases hm with
    | pushBack hpc' =>
      obtain rfl : ptr = _ := by simpa [hpc] using hpc'
      exact ⟨fiber_goto_self .., .inr ⟨hpc, hkept', List.mem_append_right _ List.mem_cons_self⟩⟩
    | lock hpc' | empty hpc' | invalid hpc' | take hpc' | dispose hpc' | found hpc'
    | notFound hpc' | fail hpc' | connect hpc' | count hpc' | retire hpc' | keep hpc'
    | delete hpc' | discount hpc' =>
      rw [hpc] at hpc'
      cases hpc'

end Pool

/-! ## Steps of exchanges -/

def ExchangeAction.actor : ExchangeAction → Option FiberId
  | doRequest f _ | step f _ | write f _ | read f _ | getConnection f | releasePtr f _ => some f
  | close _ | tick _ => none

def ExchangePc.isReleasing : ExchangePc → Bool
  | releasing _ _ => true
  | _ => false

namespace Exchanges

variable {limits : PoolLimits} {M : Scanner Nat ResponseAction} {size : Nat} {s s' : Exchanges}

/-- The pool takes no step, or one that is not of a fiber at the end of `doRequest`. -/
def Aside (limits : PoolLimits) (s : Exchanges) (pool : Pool) : Prop :=
  pool = s.pool ∨ ∃ a eff, Pool.Move limits s.pool a eff pool ∧
    ∀ f, a.actor = some f → (s.fiber f).isReleasing = false

inductive Move (limits : PoolLimits) (s : Exchanges) :
    ExchangeAction → ExchangeEffect → Exchanges → Prop
  | aside {a : ExchangeAction} {eff : ExchangeEffect} {s' : Exchanges} : s.Aside limits s'.pool →
      (∀ f, s'.fiber f = s.fiber f ∨ a.actor = some f ∧
        (s.fiber f).isReleasing = false ∧ (s'.fiber f).isReleasing = false) →
      (∀ ptr error, eff.done ≠ some (some ptr, error)) → Move limits s a eff s'
  | release {a : ExchangeAction} {f : FiberId} {ptr : ConnId} {error : Option HttpResultError}
      {pool pool' : Pool} {eff : PoolEffect} : a.actor = some f →
      (s.fiber f).isReleasing = false → s.Aside limits pool →
      (error = some .timeout → pool.Closed ptr) →
      Pool.Move limits pool (.releasePtr f ptr) eff pool' →
      Move limits s a {} ({ s with pool := pool' }.goto f (.releasing ptr error))
  | stay {f : FiberId} {ok : Bool} {ptr : ConnId} {error : Option HttpResultError} {pool : Pool}
      {eff : PoolEffect} : s.fiber f = .releasing ptr error →
      Pool.Move limits s.pool (.step f ok) eff pool → pool.fiber f ≠ .out →
      Move limits s (.step f ok) {} { s with pool }
  | leave {f : FiberId} {ok : Bool} {ptr : ConnId} {error : Option HttpResultError} {pool : Pool}
      {eff : PoolEffect} : s.fiber f = .releasing ptr error →
      Pool.Move limits s.pool (.step f ok) eff pool → pool.fiber f = .out →
      Move limits s (.step f ok) { done := some (some ptr, error) }
        ({ s with pool }.goto f .out)

theorem fiber_goto_self (s : Exchanges) (f : FiberId) (pc : ExchangePc) :
    (s.goto f pc).fiber f = pc := Function.update_self ..

theorem fiber_goto_of_ne (s : Exchanges) {f g : FiberId} (pc : ExchangePc) (h : g ≠ f) :
    (s.goto f pc).fiber g = s.fiber g := Function.update_of_ne h ..

/-- A fiber goes from one place in front of `ReleasePtr` to another. -/
theorem Move.goto {a : ExchangeAction} {eff : ExchangeEffect} {f : FiberId} {pc : ExchangePc}
    {pool : Pool} {users : List ConnId} (ha : a.actor = some f) (hpool : s.Aside limits pool)
    (hpc : (s.fiber f).isReleasing = false) (hpc' : pc.isReleasing = false)
    (hdone : ∀ ptr error, eff.done ≠ some (some ptr, error)) :
    Move limits s a eff ({ s with pool, users }.goto f pc) := by
  apply Move.aside hpool ?_ hdone
  intro g
  by_cases hg : g = f
  · subst hg
    rw [fiber_goto_self]
    exact .inr ⟨ha, hpc, hpc'⟩
  · exact .inl (fiber_goto_of_ne _ _ hg)

theorem move_release {a : ExchangeAction} {eff : ExchangeEffect} {f : FiberId} {ptr : ConnId}
    {error : Option HttpResultError} {pool : Pool} (ha : a.actor = some f)
    (hpc : (s.fiber f).isReleasing = false) (hpool : s.Aside limits pool) (hclosed : error = some .timeout → pool.Closed ptr)
    (h : { s with pool }.release limits f ptr error = some (eff, s')) : Move limits s a eff s' := by
  obtain ⟨⟨peff, pool'⟩, hact, heq⟩ := Option.map_eq_some_iff.mp h
  cases heq
  exact .release ha hpc hpool hclosed (Pool.act_move hact)

theorem move_send {a : ExchangeAction} {eff : ExchangeEffect} {f : FiberId} {ptr : ConnId}
    {length : UInt64} {results : List Int} {pool : Pool} (ha : a.actor = some f)
    (hpc : (s.fiber f).isReleasing = false) (hpool : s.Aside limits pool)
    (h : { s with pool }.send limits f ptr length results = some (eff, s')) :
    Move limits s a eff s' := by
  unfold send at h
  split at h
  · cases h
    exact .goto ha hpool hpc rfl (by simp)
  · split at h
    · exact move_release ha hpc hpool (by simp) h
    · split at h
      · exact move_release ha hpc hpool (by simp) h
      · cases h
        exact .goto ha hpool hpc rfl (by simp)

theorem closed_modify {pool : Pool} {ptr : ConnId} {conn : HttpConnection}
    (h : pool.deref ptr = some conn) :
    (pool.modify ptr fun conn => { conn with isConnected := false }).Closed ptr := by
  refine ⟨{ conn with isConnected := false }, ?_, rfl⟩
  show (pool.heap.modify ptr _)[ptr]? = _
  rw [List.getElem?_modify_eq, Pool.getElem?_of_deref h]
  rfl

theorem move_receive {a : ExchangeAction} {eff : ExchangeEffect} {f : FiberId} {ptr : ConnId}
    {reads reads' : List ReadResult} {r : Recv HttpResponse} {conn : HttpConnection}
    (ha : a.actor = some f) (hpc : (s.fiber f).isReleasing = false) (hconn : s.pool.deref ptr = some conn)
    (hr : HttpConnection.recvResponse M size reads' = some r)
    (h : s.receive limits f ptr reads r = some (eff, s')) : Move limits s a eff s' := by
  have hsame : s.Aside limits s.pool := .inl rfl
  cases r with
  | wait =>
    cases h
    exact .goto ha hsame hpc rfl (by simp)
  | null closed =>
    obtain rfl := HttpConnection.closed_of_recvResponse hr
    simp only [receive, if_true] at h
    obtain ⟨⟨peff, pool⟩, hclose, hrelease⟩ := Option.bind_eq_some_iff.mp h
    have hmove := Pool.act_move hclose
    have hpool : s.Aside limits pool := .inr ⟨_, _, hmove, fun g hg => by cases hg⟩
    refine move_release ha hpc hpool (fun _ => ?_) hrelease
    cases hclose
    exact closed_modify hconn
  | thrown => exact move_release ha hpc hsame (by simp) h
  | ret response rest => exact move_release ha hpc hsame (by simp) h

theorem move_behind {f : FiberId} {ok : Bool} {eff : ExchangeEffect} {peff : PoolEffect}
    {pool : Pool} (hmove : Pool.Move limits s.pool (.step f ok) peff pool)
    (h : { s with pool }.behind limits f peff = some (eff, s')) :
    Move limits s (.step f ok) eff s' := by
  -- a step of a fiber that is not in `ReleasePtr`
  have haside : (s.fiber f).isReleasing = false → s.Aside limits pool := fun hpc =>
    .inr ⟨_, _, hmove, fun g hg => by cases hg; exact hpc⟩
  unfold behind at h
  split at h
  · next hpc =>
    have hpc' : (s.fiber f).isReleasing = false := by rw [show s.fiber f = .out from hpc]; rfl
    split at h <;> cases h <;>
      exact .aside (haside hpc') (fun _ => .inl rfl) (by simp)
  · next length hpc =>
    have hpc' : (s.fiber f).isReleasing = false := by
      rw [show s.fiber f = .getting length from hpc]
      rfl
    split at h
    · cases h
      exact .aside (haside hpc') (fun _ => .inl rfl) (by simp)
    · cases h
      exact .goto rfl (haside hpc') hpc' rfl (by simp)
    · exact move_send rfl hpc' (haside hpc') h
  · next ptr error hpc =>
    split at h
    · next hout =>
      cases h
      exact .leave hpc hmove hout
    · next hin =>
      cases h
      exact .stay hpc hmove hin
  · cases h
  · cases h

theorem Step.move {e : Event} (h : Step limits M size s e s') : Move limits s e.1 e.2 s' := by
  obtain ⟨a, eff⟩ := e
  have hact : s.act limits M size a = some (eff, s') := h
  -- a fiber that calls nothing is not within `ReleasePtr`
  have hidle : ∀ {f : FiberId}, s.fiber f = .out → (s.fiber f).isReleasing = false := by
    intro f hpc
    rw [hpc]
    rfl
  cases a with
  | doRequest f length =>
    simp only [act] at hact
    split at hact
    · next hpc =>
      obtain ⟨⟨peff, pool⟩, hpool, heq⟩ := Option.map_eq_some_iff.mp hact
      cases heq
      have haside : s.Aside limits pool :=
        .inr ⟨_, _, Pool.act_move hpool, fun g hg => by cases hg; exact hidle hpc⟩
      exact .goto rfl haside (hidle hpc) rfl (by simp)
    · cases hact
  | step f ok =>
    obtain ⟨⟨peff, pool⟩, hpool, hbehind⟩ := Option.bind_eq_some_iff.mp hact
    exact move_behind (Pool.act_move hpool) hbehind
  | write f r =>
    simp only [act] at hact
    split at hact
    · next ptr length results hpc =>
      obtain ⟨conn, -, hcall⟩ := Option.bind_eq_some_iff.mp hact
      obtain ⟨call, -, hsend⟩ := Option.bind_eq_some_iff.mp hcall
      split at hsend
      · exact move_send rfl (by rw [hpc]; rfl) (.inl rfl) hsend
      · cases hsend
    · cases hact
  | read f r =>
    simp only [act] at hact
    split at hact
    · next ptr reads hpc =>
      obtain ⟨conn, hconn, hread⟩ := Option.bind_eq_some_iff.mp hact
      split at hread
      · obtain ⟨recv, hrecv, hreceive⟩ := Option.bind_eq_some_iff.mp hread
        exact move_receive rfl (by rw [hpc]; rfl) hconn hrecv hreceive
      · cases hread
    · cases hact
  | getConnection f =>
    simp only [act] at hact
    split at hact
    · next hpc =>
      obtain ⟨⟨peff, pool⟩, hpool, heq⟩ := Option.map_eq_some_iff.mp hact
      cases heq
      exact .aside (.inr ⟨_, _, Pool.act_move hpool, fun g hg => by cases hg; exact hidle hpc⟩)
        (fun _ => .inl rfl) (by simp)
    · cases hact
  | releasePtr f ptr =>
    simp only [act] at hact
    split at hact
    · next hpc =>
      split at hact
      · obtain ⟨⟨peff, pool⟩, hpool, heq⟩ := Option.map_eq_some_iff.mp hact
        cases heq
        exact .aside (.inr ⟨_, _, Pool.act_move hpool, fun g hg => by cases hg; exact hidle hpc⟩)
          (fun _ => .inl rfl) (by simp)
      · cases hact
    · cases hact
  | close ptr =>
    simp only [act] at hact
    split at hact
    · obtain ⟨⟨peff, pool⟩, hpool, heq⟩ := Option.map_eq_some_iff.mp hact
      cases heq
      exact .aside (.inr ⟨_, _, Pool.act_move hpool, fun g hg => by cases hg⟩)
        (fun _ => .inl rfl) (by simp)
    · cases hact
  | tick now =>
    simp only [act] at hact
    obtain ⟨⟨peff, pool⟩, hpool, heq⟩ := Option.map_eq_some_iff.mp hact
    cases heq
    exact .aside (.inr ⟨_, _, Pool.act_move hpool, fun g hg => by cases hg⟩)
      (fun _ => .inl rfl) (by simp)

/-! ## Runs -/

theorem Aside.owned {pool : Pool} (h : s.Aside limits pool) (ho : s.pool.Owned) : pool.Owned := by
  rcases h with rfl | ⟨a, eff, hm, -⟩
  · exact ho
  · exact ho.move hm

theorem Aside.freed {pool : Pool} {ptr : ConnId} (h : s.Aside limits pool)
    (hfreed : s.pool.Freed ptr) : pool.Freed ptr := by
  rcases h with rfl | ⟨a, eff, hm, -⟩
  · exact hfreed
  · exact hfreed.move hm

theorem Aside.inRelease {kept : Option HttpResultError → Prop} {pool : Pool} {f : FiberId}
    {ptr : ConnId} {error : Option HttpResultError} (h : s.Aside limits pool)
    (hpc : s.fiber f = .releasing ptr error) (hrelease : s.pool.InRelease kept f ptr error) :
    pool.InRelease kept f ptr error := by
  rcases h with rfl | ⟨a, eff, hm, hactor⟩
  · exact hrelease
  · apply hrelease.other hm
    intro ha
    have hnot := hactor f ha
    rw [hpc] at hnot
    cases hnot

/-- Every exchange that has ended is in `ReleasePtr` with its connection. -/
structure Sound (kept : Option HttpResultError → Prop) (s : Exchanges) : Prop where
  owned : s.pool.Owned
  releases : ∀ f ptr error, s.fiber f = .releasing ptr error →
    s.pool.InRelease kept f ptr error

variable {kept : Option HttpResultError → Prop}

theorem Sound.move (h : Sound kept s) {a : ExchangeAction} {eff : ExchangeEffect}
    (hm : Move limits s a eff s')
    (hkept : ∀ f ok ptr error, a = .step f ok → s.fiber f = .releasing ptr error →
      s.pool.fiber f = .release ptr → error ≠ some .timeout → s.pool.Keeps limits ptr →
      kept error) :
    Sound kept s' ∧ ∀ ptr error, eff.done = some (some ptr, error) →
      s'.pool.Freed ptr ∨ kept error ∧ ptr ∈ s'.pool.conns := by
  cases hm with
  | aside hpool hfiber hdone =>
    refine ⟨⟨hpool.owned h.owned, ?_⟩, fun ptr error he => absurd he (hdone ptr error)⟩
    intro f ptr error hpc
    rcases hfiber f with hsame | ⟨-, -, hnot⟩
    · rw [hsame] at hpc
      exact hpool.inRelease hpc (h.releases f ptr error hpc)
    · rw [hpc] at hnot
      cases hnot
  | @release a f ptr error pool pool' eff _ hnot hpool hclosed hrelease =>
    refine ⟨⟨(hpool.owned h.owned).move hrelease, ?_⟩, fun ptr error he => by cases he⟩
    intro g q e hpc
    by_cases hg : g = f
    · subst hg
      rw [fiber_goto_self] at hpc
      cases hpc
      -- from the `return` on the fiber is in `ReleasePtr`
      have hclosed' := fun he => (hclosed he).move hrelease
      cases hrelease with
      | releasePtr => exact .look (Pool.fiber_goto_self ..) hclosed'
    · rw [fiber_goto_of_ne _ _ hg] at hpc
      have hin := hpool.inRelease hpc (h.releases g q e hpc)
      exact hin.other hrelease fun heq => hg (Option.some.inj heq).symm
  | @stay f ok ptr error pool eff hpc hstep hin =>
    refine ⟨⟨h.owned.move hstep, ?_⟩, fun ptr error he => by cases he⟩
    intro g q e hpc'
    by_cases hg : g = f
    · subst hg
      obtain ⟨rfl, rfl⟩ : ptr = q ∧ error = e := by simpa [hpc] using hpc'
      rcases (h.releases g ptr error hpc).step hstep (hkept g ok ptr error rfl hpc) with
        ⟨-, hrelease⟩ | ⟨hout, -⟩
      · exact hrelease
      · exact absurd hout hin
    · exact (h.releases g q e hpc').other hstep fun heq => hg (Option.some.inj heq).symm
  | @leave f ok ptr error pool eff hpc hstep hout =>
    refine ⟨⟨h.owned.move hstep, ?_⟩, fun q e he => ?_⟩
    · intro g q e hpc'
      by_cases hg : g = f
      · subst hg
        rw [fiber_goto_self] at hpc'
        cases hpc'
      · rw [fiber_goto_of_ne _ _ hg] at hpc'
        exact (h.releases g q e hpc').other hstep fun heq => hg (Option.some.inj heq).symm
    · cases he
      rcases (h.releases f ptr error hpc).step hstep (hkept f ok ptr error rfl hpc) with
        ⟨hin, -⟩ | ⟨-, hfreed | ⟨-, hend⟩⟩
      · exact absurd hout hin
      · exact .inl hfreed
      · exact .inr hend

theorem Move.freed {a : ExchangeAction} {eff : ExchangeEffect} (hm : Move limits s a eff s')
    {ptr : ConnId} (h : s.pool.Freed ptr) : s'.pool.Freed ptr := by
  cases hm with
  | aside hpool => exact hpool.freed h
  | release _ _ hpool _ hrelease => exact (hpool.freed h).move hrelease
  | stay _ hstep | leave _ hstep => exact h.move hstep

theorem sound_new (clock : UInt64) : Sound kept (new clock) :=
  ⟨(@Pool.kept_new ⟨0, 0, 0⟩ clock).owned, fun f ptr error hpc => by cases hpc⟩

theorem Move.fiber_of_ne {a : ExchangeAction} {eff : ExchangeEffect} (hm : Move limits s a eff s')
    {f : FiberId} (ha : a.actor ≠ some f) : s'.fiber f = s.fiber f := by
  have hne : ∀ {g : FiberId}, a.actor = some g → f ≠ g := by
    rintro g hg rfl
    exact ha hg
  cases hm with
  | aside _ hfiber =>
    rcases hfiber f with hsame | ⟨hactor, -⟩
    · exact hsame
    · exact absurd hactor ha
  | release hactor => exact fiber_goto_of_ne _ _ (hne hactor)
  | stay => rfl
  | leave => exact fiber_goto_of_ne _ _ (hne rfl)

/-- A fiber that takes no step stays outside. -/
theorem fiber_of_run {clock : UInt64} {hist : List Event} {f : FiberId}
    (hrun : Run (Step limits M size) (new clock) hist s)
    (h : ∀ e ∈ hist, e.1.actor ≠ some f) : s.fiber f = .out := by
  induction hrun with
  | nil => rfl
  | snoc _ hstep ih =>
    rw [hstep.move.fiber_of_ne (h _ (List.mem_append_right _ List.mem_cons_self))]
    exact ih fun e he => h e (List.mem_append_left _ he)

/-- A send that has failed leaves a connection that `ReleasePtr` does not put back. -/
def Discards (limits : PoolLimits) (s : Exchanges) (a : ExchangeAction) : Prop :=
  ∀ f ok ptr error, a = .step f ok → s.fiber f = .releasing ptr (some error) →
    error = .sendCloseByPeer ∨ error = .sendSocketError → s.pool.fiber f = .release ptr →
    ¬ s.pool.Keeps limits ptr

/-- The connections of the failed exchanges so far are not in `m_conns`. -/
def Discarded (hist : List Event) (s : Exchanges) : Prop :=
  ∀ e ∈ hist, ∀ ptr error, e.2.done = some (some ptr, some error) → error.failed = true →
    ptr ∉ s.pool.conns

theorem failed_iff {error : HttpResultError} : error.failed = true ↔
    error = .timeout ∨ error = .sendCloseByPeer ∨ error = .sendSocketError := by
  cases error <;> decide

/-- As long as every step discards, no exchange that has failed ends with its connection kept. -/
theorem discarded_of_run {clock : UInt64} {hist : List Event}
    (hrun : Run (Guarded (fun s e => Discards limits s e.1) (Step limits M size)) (new clock) hist s) :
    Discarded hist s := by
  let kept : Option HttpResultError → Prop := fun error => ∀ e, error = some e → e.failed = false
  have hfreed : Sound kept s ∧ ∀ e ∈ hist, ∀ ptr error, e.2.done = some (some ptr, some error) →
      error.failed = true → s.pool.Freed ptr := by
    apply hrun.history_invariant (fun hist s => Sound kept s ∧ ∀ e ∈ hist, ∀ ptr error,
      e.2.done = some (some ptr, some error) → error.failed = true → s.pool.Freed ptr)
      ⟨sound_new clock, fun e he => absurd he List.not_mem_nil⟩
    rintro hist s e t ⟨hsound, hold⟩ ⟨hguard, hstep⟩
    have hmove := hstep.move
    obtain ⟨hsound', hdone⟩ := hsound.move hmove (by
      rintro f ok ptr error hact hpc hlook hne hkeeps err rfl
      by_contra hfailed
      rw [Bool.not_eq_false, failed_iff] at hfailed
      rcases hfailed with rfl | hsend
      · exact hne rfl
      · exact hguard f ok ptr err hact hpc hsend hlook hkeeps)
    refine ⟨hsound', fun e' he' ptr error hend hfailed => ?_⟩
    rcases List.mem_append.mp he' with hbefore | hlast
    · exact hmove.freed (hold e' hbefore ptr error hend hfailed)
    · rw [List.mem_singleton.mp hlast] at hend
      rcases hdone ptr (some error) hend with hfreed | ⟨hkept, -⟩
      · exact hfreed
      · rw [hkept error rfl] at hfailed
        cases hfailed
  intro e he ptr error hend hfailed
  exact (hfreed.2 e he ptr error hend hfailed).not_idle hfreed.1.owned

/-- Nobody else takes a step for a fiber in `ReleasePtr`. -/
theorem Move.same {a : ExchangeAction} {eff : ExchangeEffect} (hm : Move limits s a eff s')
    {f : FiberId} (hpc : (s.fiber f).isReleasing = true) (ha : ∀ ok, a ≠ .step f ok) :
    s'.fiber f = s.fiber f ∧ s'.pool.fiber f = s.pool.fiber f := by
  -- only the fiber itself moves in the pool
  have hpool : ∀ {pool : Pool}, s.Aside limits pool → pool.fiber f = s.pool.fiber f := by
    rintro pool (rfl | ⟨b, peff, hmove, hactor⟩)
    · rfl
    · apply hmove.fiber_of_ne
      intro hb
      rw [hactor f hb] at hpc
      cases hpc
  cases hm with
  | aside haside hfiber =>
    refine ⟨?_, hpool haside⟩
    rcases hfiber f with hsame | ⟨-, hnot, -⟩
    · exact hsame
    · rw [hnot] at hpc
      cases hpc
  | @release a g ptr error pool pool' eff _ hnot haside _ hrelease =>
    have hne : f ≠ g := by
      rintro rfl
      rw [hnot] at hpc
      cases hpc
    refine ⟨fiber_goto_of_ne _ _ hne, ?_⟩
    rw [← hpool haside]
    exact hrelease.fiber_of_ne fun heq => hne (Option.some.inj heq).symm
  | @stay g ok ptr error pool eff _ hstep =>
    have hne : f ≠ g := fun heq => ha ok (by rw [heq])
    exact ⟨rfl, hstep.fiber_of_ne fun heq => hne (Option.some.inj heq).symm⟩
  | @leave g ok ptr error pool eff _ hstep =>
    have hne : f ≠ g := fun heq => ha ok (by rw [heq])
    exact ⟨fiber_goto_of_ne _ _ hne, hstep.fiber_of_ne fun heq => hne (Option.some.inj heq).symm⟩

/-- The next step of a fiber in `ReleasePtr`. -/
theorem step_releasing {f : FiberId} {ok : Bool} {eff : ExchangeEffect} {ptr : ConnId}
    {error : Option HttpResultError} (h : Step limits M size s (.step f ok, eff) s')
    (hpc : s.fiber f = .releasing ptr error) :
    ∃ peff pool, Pool.Move limits s.pool (.step f ok) peff pool ∧
      (pool.fiber f ≠ .out ∧ s' = { s with pool } ∨
        pool.fiber f = .out ∧ eff = { done := some (some ptr, error) } ∧
          s' = { s with pool }.goto f .out) := by
  obtain ⟨⟨peff, pool⟩, hpool, hbehind⟩ := Option.bind_eq_some_iff.mp h
  refine ⟨peff, pool, Pool.act_move hpool, ?_⟩
  simp only [behind, hpc] at hbehind
  split at hbehind
  · next hout =>
    cases hbehind
    exact .inr ⟨hout, rfl, rfl⟩
  · next hin =>
    cases hbehind
    exact .inl ⟨hin, rfl⟩

def PutsBack (f : FiberId) (ptr : ConnId) (error : Option HttpResultError) (s : Exchanges) : Prop :=
  s.fiber f = .releasing ptr error ∧ s.pool.fiber f = .pushBack ptr

theorem putsBack_of_keeps {f : FiberId} {ok : Bool} {eff : ExchangeEffect} {ptr : ConnId}
    {error : Option HttpResultError} (h : Step limits M size s (.step f ok, eff) s')
    (hpc : s.fiber f = .releasing ptr error) (hlook : s.pool.fiber f = .release ptr)
    (hkeeps : s.pool.Keeps limits ptr) : s'.PutsBack f ptr error := by
  obtain ⟨peff, pool, hmove, hend⟩ := step_releasing h hpc
  have hback : pool.fiber f = .pushBack ptr := by
    obtain ⟨conn, hconn, hopen, hyoung, hless⟩ := hkeeps
    cases hmove with
    | retire hpc' hconn' hused =>
      obtain rfl : ptr = _ := by simpa [hlook] using hpc'
      rw [hconn] at hconn'
      cases hconn'
      rcases hused with hclosed | hold | hmany
      · rw [hopen] at hclosed
        cases hclosed
      · rw [hyoung] at hold
        cases hold
      · omega
    | keep hpc' =>
      obtain rfl : ptr = _ := by simpa [hlook] using hpc'
      exact Pool.fiber_goto_self ..
    | lock hpc' | empty hpc' | invalid hpc' | take hpc' | dispose hpc' | found hpc' | notFound hpc'
    | fail hpc' | connect hpc' | count hpc' | delete hpc' | discount hpc' | pushBack hpc' =>
      rw [hlook] at hpc'
      cases hpc'
  rcases hend with ⟨-, rfl⟩ | ⟨hout, -⟩
  · exact ⟨hpc, hback⟩
  · rw [hback] at hout
    cases hout

/-- A connection that is about to be put back is put back by the next step of its fiber. -/
theorem kept_of_putsBack {e : Event} {f : FiberId} {ptr : ConnId} {error : Option HttpResultError}
    (h : Step limits M size s e s') (hs : s.PutsBack f ptr error) (hs' : ¬ s'.PutsBack f ptr error) :
    e.2.done = some (some ptr, error) ∧ ptr ∈ s'.pool.conns := by
  obtain ⟨a, eff⟩ := e
  obtain ⟨hpc, hback⟩ := hs
  by_cases ha : ∃ ok, a = .step f ok
  · obtain ⟨ok, rfl⟩ := ha
    obtain ⟨peff, pool, hmove, hend⟩ := step_releasing h hpc
    have hconns : pool.fiber f = .out ∧ ptr ∈ pool.conns := by
      cases hmove with
      | pushBack hpc' =>
        obtain rfl : ptr = _ := by simpa [hback] using hpc'
        exact ⟨Pool.fiber_goto_self .., List.mem_append_right _ List.mem_cons_self⟩
      | lock hpc' | empty hpc' | invalid hpc' | take hpc' | dispose hpc' | found hpc'
      | notFound hpc' | fail hpc' | connect hpc' | count hpc' | retire hpc' | keep hpc'
      | delete hpc' | discount hpc' =>
        rw [hback] at hpc'
        cases hpc'
    rcases hend with ⟨hin, -⟩ | ⟨-, rfl, rfl⟩
    · exact absurd hconns.1 hin
    · exact ⟨rfl, hconns.2⟩
  · have hsame := h.move.same (f := f) (by rw [hpc]; rfl) fun ok heq => ha ⟨ok, heq⟩
    exact absurd ⟨hsame.1.trans hpc, hsame.2.trans hback⟩ hs'

/-- When no failed exchange is on its way through `ReleasePtr` any more: in no state of the run has the
connection of a failed exchange been put back if and only if every failed send has left a connection
that is closed, too old, or used up. -/
theorem discarded_iff {clock : UInt64} {hist : List Event}
    (hrun : Run (Step limits M size) (new clock) hist s)
    (hend : ∀ f ptr error, s.fiber f = .releasing ptr (some error) → error.failed = false) :
    (∀ hist' s', hist' <+: hist → Run (Step limits M size) (new clock) hist' s' →
        Discarded hist' s') ↔
      Run (Guarded (fun s e => Discards limits s e.1) (Step limits M size)) (new clock) hist s := by
  constructor
  · intro hdiscarded
    apply hrun.guarded
    rintro before ⟨a, eff⟩ after u v rfl hbefore hstep hafter f ok ptr error rfl hpc hsend hlook hkeeps
    have hfailed : error.failed = true := failed_iff.mpr (.inr hsend)
    -- the connection would be put back, and the run ends with the call
    have hback := putsBack_of_keeps hstep hpc hlook hkeeps
    have hdone : ¬ s.PutsBack f ptr (some error) := by
      rintro ⟨hpc', -⟩
      rw [hend f ptr error hpc'] at hfailed
      cases hfailed
    obtain ⟨before', b, after', w, w', rfl, hw, hb, -, hin, hout⟩ :=
      hafter.crossing (fun x => ¬ x.PutsBack f ptr (some error)) (not_not.mpr hback) hdone
    obtain ⟨hreturns, hkept⟩ := kept_of_putsBack hb (not_not.mp hin) hout
    have hrun' : Run (Step limits M size) (new clock)
        (before ++ (.step f ok, eff) :: (before' ++ [b])) w' := by
      have hlast := (Run.snoc hbefore hstep).append (.snoc hw hb)
      rw [List.append_assoc] at hlast
      exact hlast
    refine hdiscarded _ w' ⟨after', ?_⟩ hrun' b (by simp) ptr error hreturns hfailed hkept
    simp
  · intro hguarded hist' s' hpre hrun'
    have hinitial := hguarded.initial (fun _ _ _ h => h.2) (fun _ _ _ _ h h' =>
      congrArg Prod.snd (Option.some.inj (h.symm.trans h'))) hpre hrun'
    exact discarded_of_run hinitial

def discards (limits : PoolLimits) (s : Exchanges) : ExchangeAction → Bool
  | .step f _ =>
    match s.fiber f with
    | .releasing ptr (some _) =>
      s.pool.fiber f ≠ .release ptr || (s.pool.deref ptr).all fun conn =>
        !conn.isConnected || limits.expired conn s.pool.clock ||
          limits.maxRequest.toInt ≤ conn.request + 1
    | _ => true
  | _ => true

theorem discards_of_eq {a : ExchangeAction} (h : s.discards limits a = true) :
    Discards limits s a := by
  rintro f ok ptr error rfl hpc - hlook ⟨conn, hconn, hopen, hyoung, hless⟩
  have hmany : limits.maxRequest.toInt ≤ conn.request + 1 := by
    simpa [discards, hpc, hlook, hconn, hopen, hyoung] using h
  omega

/-- A request of 16 bytes, of which 10 are sent before `write` returns 0. -/
def halfSent : List ExchangeAction :=
  .doRequest 0 16 :: List.replicate 5 (.step 0 true) ++ [.write 0 10, .write 0 0]

/-- Each connection is used once, so that none is put back. -/
theorem discarded_iff_once : ∃ (hist : List Event) (s : Exchanges),
    Run (Step (.new 10 100 1) (httpclientParser fun _ _ => ([], 0)) 4096) (new 0) hist s ∧
      (some (some 0, some .sendCloseByPeer) ∈ hist.map fun e => e.2.done) ∧ Discarded hist s := by
  have hlast : (runActs (fun s a => if s.discards (.new 10 100 1) a then
      act (.new 10 100 1) (httpclientParser fun _ _ => ([], 0)) 4096 s a else none) (new 0)
      (halfSent ++ List.replicate 3 (.step 0 true))).map
        (fun r => (r.1, r.2.fiber 0)) =
      some ((halfSent ++ List.replicate 2 (ExchangeAction.step 0 true)).map
        (fun a => (a, ({} : ExchangeEffect))) ++ [(.step 0 true, { done := some (some 0, some .sendCloseByPeer) })], .out) := by
    decide
  rcases Option.map_eq_some_iff.mp hlast with ⟨⟨hist, s⟩, hs, hvalues⟩
  simp only [Prod.mk.injEq] at hvalues
  have hguarded := run_of_runActs (Discards (.new 10 100 1)) (discards (.new 10 100 1))
    (fun _ _ => discards_of_eq) hs
  have hrun := hguarded.unguarded
  have hout : ∀ f, s.fiber f = .out := by
    intro f
    by_cases hf : f = 0
    · rw [hf]
      exact hvalues.2
    · apply fiber_of_run hrun
      rw [hvalues.1]
      simp [halfSent, ExchangeAction.actor, Ne.symm hf]
  refine ⟨hist, s, hrun, by rw [hvalues.1]; simp, ?_⟩
  apply (discarded_iff hrun ?_).mpr hguarded hist s (List.prefix_refl hist) hrun
  intro f ptr error hpc
  rw [hout f] at hpc
  cases hpc

/-- The connection of a request that is only half sent is put back. -/
theorem half_sent_kept : ∃ (hist : List Event) (s : Exchanges),
    Run (Step (.new 10 100 10) (httpclientParser fun _ _ => ([], 0)) 4096) (new 0) hist s ∧
      s.pool.conns = [0] ∧ ¬ Discarded hist s := by
  have hlast : (runActs (fun s a => if true then
      act (.new 10 100 10) (httpclientParser fun _ _ => ([], 0)) 4096 s a else none) (new 0)
      (halfSent ++ List.replicate 2 (.step 0 true))).map
        (fun r => (r.1.map fun e => e.2.done, r.2.pool.conns)) =
      some (List.replicate 9 none ++ [some (some 0, some .sendCloseByPeer)], [0]) := by
    decide
  rcases Option.map_eq_some_iff.mp hlast with ⟨⟨hist, s⟩, hs, hvalues⟩
  simp only [Prod.mk.injEq] at hvalues
  have hrun := (run_of_runActs (fun _ _ => True) (fun _ _ => true) (fun _ _ _ => trivial) hs).mono
    fun _ _ _ h => h.2
  refine ⟨hist, s, hrun, hvalues.2, fun hdiscarded => ?_⟩
  have hmem : some (some 0, some .sendCloseByPeer) ∈ hist.map fun e => e.2.done := by
    rw [hvalues.1]
    simp
  obtain ⟨e, he, hdone⟩ := List.mem_map.mp hmem
  apply hdiscarded e he 0 .sendCloseByPeer hdone rfl
  rw [hvalues.2]
  exact List.mem_cons_self

end Exchanges

end Azure
