import Azure.Http.ResponseRoundTrip
import Azure.Http.Server

/-!
# A client and a server

A client that waits for the response to each of its requests before it sends the next one, and the
server at the other end of its connection.  What is under way between them is two rows of bytes, of
which a read takes as many as it likes.  Nobody sets a timeout.
-/

namespace Azure

open Reasoning

/-! ## Messages that come piece by piece -/

/-- Reads that have brought the begin of a message, and what of it is still to come.  The first of them
brings all that stands in front of the body. -/
structure Begun (size : Nat) (head message : Bytes) (pieces : List Bytes) (rest : Bytes) : Prop where
  readable : Readable pieces
  bytes : pieces.flatten ++ rest = message
  first : ∀ d, pieces.head? = some d →
    head.length ≤ d.length ∧ d.length ≤ size ∧ Counts (message.length - d.length)

namespace Begun

variable {size n : Nat} {head message rest : Bytes} {pieces : List Bytes}

theorem nil : Begun size head message [] message where
  readable := by simp [Readable]
  bytes := rfl
  first := by simp

/-- One more read. -/
theorem read (h : Begun size head message pieces rest) (hn : n ≠ 0 ∧ n ≤ rest.length ∧ n < 2 ^ 31)
    (hfirst : pieces = [] → head.length ≤ n ∧ n ≤ size ∧ Counts (message.length - n)) :
    Begun size head message (pieces ++ [rest.take n]) (rest.drop n) := by
  have hlength : (rest.take n).length = n := List.length_take_of_le hn.2.1
  refine ⟨?_, ?_, ?_⟩
  · intro d hd
    rcases List.mem_append.mp hd with hd | hd
    · exact h.readable d hd
    · rw [List.mem_singleton.mp hd]
      refine ⟨fun hnil => hn.1 ?_, ?_⟩
      · rw [← hlength, hnil, List.length_nil]
      · rw [hlength]
        exact hn.2.2
  · rw [List.flatten_append, List.flatten_singleton, List.append_assoc, List.take_append_drop, h.bytes]
  · intro d hd
    cases pieces with
    | nil =>
      have heq : rest.take n = d := by simpa using hd
      rw [← heq, hlength]
      exact hfirst rfl
    | cons d' pieces => exact h.first d hd

variable {relaxed : Bool} {absolute : Nat → UInt8 → List RequestAction × Nat}

/-- The call waits until the request is there. -/
theorem recvRequest (habsolute : RequestUri absolute) {req : HttpRequest} (hreq : req.Sendable)
    (h : Begun size req.wireHead req.dump pieces rest) (hne : pieces ≠ []) :
    HttpSession.recvRequest (httpParser (originNext relaxed absolute)) size
      (pieces.map ReadResult.data) = some (if rest = [] then .ret req.received [] else .wait) := by
  rcases List.exists_cons_of_ne_nil hne with ⟨d, pieces, rfl⟩
  obtain ⟨hhead, hsize, hcounts⟩ := h.first d rfl
  by_cases hrest : rest = []
  · subst hrest
    rw [if_pos rfl, ← List.append_nil (List.map _ _)]
    rw [hreq.recvRequest habsolute [] h.readable (by rw [← h.bytes, List.append_nil]) hhead hsize,
      if_pos hcounts]
  · rw [if_neg hrest]
    obtain ⟨r, hr, hbody, -⟩ := hreq.wireRequest relaxed absolute
    refine recvRequest_waits (originNext_space habsolute) r h.readable ?_ hrest (by rw [hr]; exact hhead)
      hsize
    rw [WireRequest.bytes, hr, hbody, ← HttpRequest.dump_eq]
    exact h.bytes

theorem recvResponse {rsp : HttpResponse} (hrsp : rsp.Sendable)
    (h : Begun size rsp.wireHead rsp.dump pieces rest) (hne : pieces ≠ []) :
    HttpConnection.recvResponse (httpclientParser HttpResponseParser.fieldsNext) size
      (pieces.map ReadResult.data) = some (if rest = [] then .ret rsp.received [] else .wait) := by
  rcases List.exists_cons_of_ne_nil hne with ⟨d, pieces, rfl⟩
  obtain ⟨hhead, hsize, hcounts⟩ := h.first d rfl
  by_cases hrest : rest = []
  · subst hrest
    rw [if_pos rfl, ← List.append_nil (List.map _ _)]
    rw [hrsp.recvResponse [] h.readable (by rw [← h.bytes, List.append_nil]) hhead hsize,
      if_pos hcounts]
  · rw [if_neg hrest]
    obtain ⟨r, hr, hdata, hchunked⟩ := hrsp.responseHead
    have hlength : r.parser.data.headers.contentLength.toInt64.toInt = rsp.body.length := by
      rw [hdata]
      exact contentLength_receivedHeaders rsp.close hrsp.noLength hrsp.body
    refine r.recvResponse_waits HttpResponseParser.headerFields_fieldsNext hchunked hlength h.readable ?_
      hrest (by rw [hr]; exact hhead) hsize
    rw [hr, ← HttpResponse.dump_eq]
    exact h.bytes

end Begun

/-! ## The two ends -/

/-- What the client does: it may send a request, it is in `recvResponse`, or that has returned null. -/
inductive Client where
  | idle
  | waits
  | failed
  deriving DecidableEq, Repr

structure Conversation (World : Type) where
  world : World
  client : Client := .idle
  sent : List HttpRequest := []
  answered : List HttpResponse := []
  got : List HttpResponse := []
  /-- bytes that are under way -/
  toServer : Bytes := []
  toClient : Bytes := []
  /-- what the reads of the calls that wait have come to -/
  serverReads : List ReadResult := []
  clientReads : List ReadResult := []
  /-- the server has closed the session -/
  closed : Bool := false

inductive Move where
  | send (req : HttpRequest)
  | serverRead (n : Nat)
  | clientRead (n : Nat)
  | clientEof

namespace Conversation

variable {World : Type}

section

variable (fnmatch : Bytes → Bytes → Bool) (server : HttpServer World) (M : Scanner Nat RequestAction)
  (N : Scanner Nat ResponseAction) (size : Nat)

def serverTakes (s : Conversation World) (r : ReadResult) : Option (Conversation World) :=
  match HttpSession.recvRequest M size (s.serverReads ++ [r]) with
  | none => none
  | some .wait => some { s with serverReads := s.serverReads ++ [r] }
  | some (.ret req reads) =>
    let (world, req, rsp) := server.reply fnmatch s.world req
    some { s with world, serverReads := reads, answered := s.answered ++ [rsp]
                  toClient := s.toClient ++ rsp.dump, closed := !server.keepalive || req.close }
  | some _ => some { s with closed := true }

def clientTakes (s : Conversation World) (r : ReadResult) : Option (Conversation World) :=
  match HttpConnection.recvResponse N size (s.clientReads ++ [r]) with
  | none => none
  | some .wait => some { s with clientReads := s.clientReads ++ [r] }
  | some (.ret rsp reads) =>
    some { s with clientReads := reads, got := s.got ++ [rsp], client := .idle }
  | some _ => some { s with client := .failed }

/-- The `int` that a read returns has room for the number of the bytes. -/
def step (s : Conversation World) : Move → Option (Conversation World)
  | .send req =>
    if s.client = .idle then
      some { s with sent := s.sent ++ [req], toServer := s.toServer ++ req.dump, client := .waits }
    else none
  | .serverRead n =>
    if s.closed = false ∧ n ≠ 0 ∧ n ≤ s.toServer.length ∧ n < 2 ^ 31 then
      serverTakes fnmatch server M size { s with toServer := s.toServer.drop n }
        (.data (s.toServer.take n))
    else none
  | .clientRead n =>
    if s.client = .waits ∧ n ≠ 0 ∧ n ≤ s.toClient.length ∧ n < 2 ^ 31 then
      clientTakes N size { s with toClient := s.toClient.drop n } (.data (s.toClient.take n))
    else none
  | .clientEof =>
    if s.client = .waits ∧ s.closed ∧ s.toClient = [] then clientTakes N size s (.fail 0) else none

/-- A read that begins a message brings all that stands in front of the body, and the size of the rest
fits into the `int` that `readFixSize` returns. -/
def Careful (s : Conversation World) : Move → Prop
  | .send req => req.Sendable
  | .serverRead n => s.serverReads = [] → ∀ req ∈ s.sent.getLast?,
    req.wireHead.length ≤ n ∧ n ≤ size ∧ Counts (req.dump.length - n)
  | .clientRead n => s.clientReads = [] → ∀ rsp ∈ s.answered.getLast?,
    rsp.wireHead.length ≤ n ∧ n ≤ size ∧ Counts (rsp.dump.length - n)
  | .clientEof => True

instance (s : Conversation World) : (move : Move) → Decidable (Careful size s move)
  | .send req => inferInstanceAs (Decidable req.Sendable)
  | .serverRead _ => inferInstanceAs (Decidable (_ → ∀ req ∈ s.sent.getLast?, _))
  | .clientRead _ => inferInstanceAs (Decidable (_ → ∀ rsp ∈ s.answered.getLast?, _))
  | .clientEof => inferInstanceAs (Decidable True)

end

/-! ## Phases -/

/-- What is under way: nothing, a request or a response.  The first list has the request that is not
answered, the second one the response that has not come yet. -/
inductive Phase (size : Nat) (s : Conversation World) : List HttpRequest → List HttpResponse → Prop
  | quiet (client : s.client = .idle) (toServer : s.toServer = []) (toClient : s.toClient = [])
      (serverReads : s.serverReads = []) (clientReads : s.clientReads = []) : Phase size s [] []
  | request {req : HttpRequest} {pieces : List Bytes} (client : s.client = .waits)
      (last : s.sent.getLast? = some req) (sendable : req.Sendable) (opened : s.closed = false)
      (reads : s.serverReads = pieces.map ReadResult.data)
      (begun : Begun size req.wireHead req.dump pieces s.toServer) (more : s.toServer ≠ [])
      (toClient : s.toClient = []) (clientReads : s.clientReads = []) : Phase size s [req] []
  | response {rsp : HttpResponse} {pieces : List Bytes} (client : s.client = .waits)
      (last : s.answered.getLast? = some rsp) (sendable : rsp.Sendable)
      (reads : s.clientReads = pieces.map ReadResult.data)
      (begun : Begun size rsp.wireHead rsp.dump pieces s.toClient) (more : s.toClient ≠ [])
      (toServer : s.toServer = []) (serverReads : s.serverReads = []) : Phase size s [] [rsp]
  /-- a request behind the end of the session -/
  | refused {req : HttpRequest} (client : s.client = .waits ∨ s.client = .failed)
      (closed : s.closed = true) (toClient : s.toClient = []) (clientReads : s.clientReads = []) :
      Phase size s [req] []

/-- The requests that the server has dealt with have been answered as the servlets answer them in this
order, and the responses have come as they were sent. -/
structure Sound (fnmatch : Bytes → Bytes → Bool) (server : HttpServer World) (w₀ : World)
    (s : Conversation World) (handled pending : List HttpRequest) (taken rest : List HttpResponse) :
    Prop where
  sent : s.sent = handled ++ pending
  served : server.serve fnmatch w₀ (handled.map HttpRequest.received) = (s.world, s.answered, s.closed)
  once : s.answered.length = handled.length
  answered : s.answered = taken ++ rest
  got : s.got = taken.map HttpResponse.received

theorem sound_start (w₀ : World) {fnmatch : Bytes → Bytes → Bool} {server : HttpServer World} :
    Sound fnmatch server w₀ { world := w₀ } [] [] [] [] :=
  ⟨rfl, rfl, rfl, rfl, rfl⟩

section

variable {fnmatch : Bytes → Bytes → Bool} {server : HttpServer World} {size : Nat} {relaxed : Bool}
  {absolute : Nat → UInt8 → List RequestAction × Nat} {w₀ : World} {s t : Conversation World}
  {handled pending : List HttpRequest} {taken rest : List HttpResponse}

def Inv (fnmatch : Bytes → Bytes → Bool) (server : HttpServer World) (size : Nat) (w₀ : World)
    (s : Conversation World) : Prop :=
  ∃ handled pending taken rest,
    Sound fnmatch server w₀ s handled pending taken rest ∧ Phase size s pending rest

/-- A request is sent when nothing is under way. -/
theorem inv_send {req : HttpRequest} (hs : Sound fnmatch server w₀ s handled pending taken rest)
    (hphase : Phase size s pending rest) (hclient : s.client = .idle) (hreq : req.Sendable)
    (hhead : req.dump ≠ []) :
    Inv fnmatch server size w₀
      { s with sent := s.sent ++ [req], toServer := s.toServer ++ req.dump, client := .waits } := by
  cases hphase with
  | quiet _ htoServer htoClient hserver hclientReads =>
    have hsound : Sound fnmatch server w₀
        { s with sent := s.sent ++ [req], toServer := s.toServer ++ req.dump, client := .waits } handled
        [req] taken [] :=
      ⟨by rw [hs.sent, List.append_nil], hs.served, hs.once, hs.answered, hs.got⟩
    refine ⟨handled, [req], taken, [], hsound, ?_⟩
    by_cases hclosed : s.closed = true
    · exact .refused (.inl rfl) hclosed htoClient hclientReads
    · have hreads : s.serverReads = [].map ReadResult.data := hserver
      refine .request rfl List.getLast?_concat hreq (Bool.eq_false_iff.mpr hclosed) hreads ?_ ?_
        htoClient hclientReads
      · rw [htoServer]
        exact .nil
      · rw [htoServer]
        exact hhead
  | request hclient' | response hclient' => rw [hclient'] at hclient; cases hclient
  | refused hclient' => rcases hclient' with h | h <;> rw [h] at hclient <;> cases hclient

theorem dump_ne_nil (rsp : HttpResponse) : rsp.dump ≠ [] := by
  intro hnil
  rw [HttpResponse.dump_eq, List.append_eq_nil_iff] at hnil
  have hhead := congrArg List.length hnil.1
  simp only [HttpResponse.wireHead, crlf, List.length_append, List.length_cons, List.length_nil] at hhead
  omega

/-- A read of the server: the request is not complete, or it is answered. -/
theorem inv_serverRead (habsolute : RequestUri absolute)
    (hserver : ∀ w (req : HttpRequest), req.Sendable → (server.reply fnmatch w req.received).2.2.Sendable) {n : Nat}
    (hs : Sound fnmatch server w₀ s handled pending taken rest) (hphase : Phase size s pending rest)
    (hcareful : Careful size s (.serverRead n)) (hopen : s.closed = false)
    (hn : n ≠ 0 ∧ n ≤ s.toServer.length ∧ n < 2 ^ 31)
    (h : serverTakes fnmatch server (httpParser (originNext relaxed absolute)) size
      { s with toServer := s.toServer.drop n } (.data (s.toServer.take n)) = some t) :
    Inv fnmatch server size w₀ t := by
  cases hphase with
  -- in these phases there is nothing to be read
  | quiet _ hnothing | response _ _ _ _ _ _ hnothing =>
    rw [hnothing, List.length_nil] at hn
    omega
  | refused _ hclosed => rw [hclosed] at hopen; cases hopen
  | @request req pieces hclient hlast hreq _ hreads hbegun hmore htoClient hclientReads =>
    have hbegun' := hbegun.read hn fun hnil => hcareful (by rw [hreads, hnil]; rfl) req hlast
    have hall : s.serverReads ++ [.data (s.toServer.take n)] =
        (pieces ++ [s.toServer.take n]).map ReadResult.data := by
      rw [hreads, List.map_append]
      rfl
    have hrecv : HttpSession.recvRequest (httpParser (originNext relaxed absolute)) size
        ((pieces ++ [s.toServer.take n]).map ReadResult.data) =
          some (if s.toServer.drop n = [] then .ret req.received [] else .wait) :=
      hbegun'.recvRequest habsolute hreq (by simp)
    rw [serverTakes] at h
    dsimp only at h
    rw [hall, hrecv] at h
    -- the request is answered with its last byte, and not before
    by_cases hdone : s.toServer.drop n = []
    · rw [if_pos hdone] at h
      have hsent : s.sent = (handled ++ [req]) ++ [] := by rw [hs.sent, List.append_nil]
      have hserved := hs.served
      rw [hopen] at hserved
      have hsnoc := HttpServer.serve_snoc hserved req.received
      cases h
      refine ⟨handled ++ [req], [], taken, [(server.reply fnmatch s.world req.received).2.2],
        ⟨hsent, ?_, ?_, ?_, hs.got⟩, ?_⟩
      · rw [List.map_append, List.map_singleton, hsnoc]
      · rw [List.length_append, List.length_append, hs.once]
        rfl
      · rw [hs.answered, List.append_nil]
      · have hnil : s.clientReads = [].map ReadResult.data := hclientReads
        refine .response hclient List.getLast?_concat (hserver s.world req hreq) hnil ?_ ?_ hdone rfl
        · rw [htoClient]
          exact .nil
        · rw [htoClient]
          exact dump_ne_nil _
    · rw [if_neg hdone] at h
      cases h
      exact ⟨handled, [req], taken, [], ⟨hs.sent, hs.served, hs.once, hs.answered, hs.got⟩,
        .request hclient hlast hreq hopen rfl hbegun' hdone htoClient hclientReads⟩

/-- A read of the client: the response is not complete, or it has come. -/
theorem inv_clientRead {n : Nat} (hs : Sound fnmatch server w₀ s handled pending taken rest)
    (hphase : Phase size s pending rest) (hcareful : Careful size s (.clientRead n))
    (hn : n ≠ 0 ∧ n ≤ s.toClient.length ∧ n < 2 ^ 31)
    (h : clientTakes (httpclientParser HttpResponseParser.fieldsNext) size
      { s with toClient := s.toClient.drop n } (.data (s.toClient.take n)) = some t) :
    Inv fnmatch server size w₀ t := by
  cases hphase with
  | quiet _ _ hnothing | request _ _ _ _ _ _ _ hnothing | refused _ _ hnothing =>
    rw [hnothing, List.length_nil] at hn
    omega
  | @response rsp pieces hclient hlast hrsp hreads hbegun hmore htoServer hserverReads =>
    have hbegun' := hbegun.read hn fun hnil => hcareful (by rw [hreads, hnil]; rfl) rsp hlast
    have hall : s.clientReads ++ [.data (s.toClient.take n)] =
        (pieces ++ [s.toClient.take n]).map ReadResult.data := by
      rw [hreads, List.map_append]
      rfl
    have hrecv := hbegun'.recvResponse hrsp (by simp)
    rw [clientTakes] at h
    dsimp only at h
    rw [hall, hrecv] at h
    by_cases hdone : s.toClient.drop n = []
    · rw [if_pos hdone] at h
      cases h
      refine ⟨handled, [], taken ++ [rsp], [], ⟨hs.sent, hs.served, hs.once, ?_, ?_⟩,
        .quiet rfl htoServer hdone hserverReads rfl⟩
      · rw [hs.answered, List.append_nil]
      · rw [hs.got, List.map_append]
        rfl
    · rw [if_neg hdone] at h
      cases h
      exact ⟨handled, [], taken, [rsp], ⟨hs.sent, hs.served, hs.once, hs.answered, hs.got⟩,
        .response hclient hlast hrsp rfl hbegun' hdone htoServer hserverReads⟩

/-- The client finds the end of the session. -/
theorem inv_clientEof {N : Scanner Nat ResponseAction}
    (hs : Sound fnmatch server w₀ s handled pending taken rest) (hphase : Phase size s pending rest)
    (hclient : s.client = .waits) (hclosed : s.closed = true) (hnothing : s.toClient = [])
    (h : clientTakes N size s (.fail 0) = some t) : Inv fnmatch server size w₀ t := by
  cases hphase with
  | quiet hidle => rw [hidle] at hclient; cases hclient
  | request _ _ _ hopen => rw [hopen] at hclosed; cases hclosed
  | response _ _ _ _ _ hmore => exact absurd hnothing hmore
  | @refused req _ _ htoClient hclientReads =>
    have hrecv : HttpConnection.recvResponse N size ([] ++ [.fail 0]) = some (.null true) := rfl
    rw [clientTakes, hclientReads, hrecv] at h
    cases h
    exact ⟨handled, [req], taken, [], ⟨hs.sent, hs.served, hs.once, hs.answered, hs.got⟩,
      .refused (.inr rfl) hclosed htoClient rfl⟩

theorem inv_step (habsolute : RequestUri absolute)
    (hserver : ∀ w (req : HttpRequest), req.Sendable → (server.reply fnmatch w req.received).2.2.Sendable)
    {move : Move} (hinv : Inv fnmatch server size w₀ s) (hcareful : Careful size s move)
    (h : step fnmatch server (httpParser (originNext relaxed absolute))
      (httpclientParser HttpResponseParser.fieldsNext) size s move = some t) :
    Inv fnmatch server size w₀ t := by
  obtain ⟨handled, pending, taken, rest, hs, hphase⟩ := hinv
  cases move with
  | send req =>
    rw [step] at h
    split_ifs at h with hclient
    cases h
    refine inv_send hs hphase hclient hcareful fun hnil => ?_
    rw [HttpRequest.dump_eq, List.append_eq_nil_iff] at hnil
    have hhead := congrArg List.length hnil.1
    simp only [HttpRequest.wireHead, crlf, List.length_append, List.length_cons, List.length_nil] at hhead
    omega
  | serverRead n =>
    rw [step] at h
    split_ifs at h with hn
    exact inv_serverRead habsolute hserver hs hphase hcareful hn.1 hn.2 h
  | clientRead n =>
    rw [step] at h
    split_ifs at h with hn
    exact inv_clientRead hs hphase hcareful hn.2 h
  | clientEof =>
    rw [step] at h
    split_ifs at h with hend
    exact inv_clientEof hs hphase hend.1 hend.2.1 hend.2.2 h

/-- However the reads cut the messages up and in whatever order the two ends take their turns: the
requests that the server has dealt with are those that were sent first, it has answered each of them
once and as the servlets answer them in this order, and the client has got these answers in their order.
At most one message is under way; the client fails only behind the end of the session, when it has got
every answer, and as long as it waits there is something to be read. -/
theorem run_faithful (habsolute : RequestUri absolute)
    (hserver : ∀ w (req : HttpRequest), req.Sendable → (server.reply fnmatch w req.received).2.2.Sendable)
    {moves : List Move}
    (hrun : Run (Guarded (Careful size) (Steps (step fnmatch server
      (httpParser (originNext relaxed absolute)) (httpclientParser HttpResponseParser.fieldsNext) size)))
      { world := w₀ } moves s) :
    ∃ handled pending taken rest, s.sent = handled ++ pending ∧
      server.serve fnmatch w₀ (handled.map HttpRequest.received) = (s.world, s.answered, s.closed) ∧
      s.answered.length = handled.length ∧ s.answered = taken ++ rest ∧
      s.got = taken.map HttpResponse.received ∧ pending.length + rest.length ≤ 1 ∧
      (s.client = .idle → pending = [] ∧ rest = []) ∧
      (s.client = .failed → s.closed = true ∧ rest = []) ∧
      (s.client = .waits → s.closed = true ∨ s.toServer ≠ [] ∨ s.toClient ≠ []) := by
  -- the invariant says in which phase the two ends are
  have hinv : Inv fnmatch server size w₀ s := by
    apply hrun.invariant (Inv fnmatch server size w₀)
      ⟨[], [], [], [], sound_start w₀, .quiet rfl rfl rfl rfl rfl⟩
    rintro s move t hinv ⟨hcareful, hstep⟩
    exact inv_step habsolute hserver hinv hcareful hstep
  obtain ⟨handled, pending, taken, rest, hs, hphase⟩ := hinv
  refine ⟨handled, pending, taken, rest, hs.sent, hs.served, hs.once, hs.answered, hs.got, ?_⟩
  cases hphase with
  | quiet hclient => simp [hclient]
  | request hclient _ _ _ _ _ hmore => simp [hclient, hmore]
  | response hclient _ _ _ _ hmore => simp [hclient, hmore]
  | refused hclient hclosed => rcases hclient with h | h <;> simp [h, hclosed]

/-- What a server without servlets answers can be read back. -/
theorem sendable_notFound (h : server.dispatch = { default_ := some .notFound }) (w : World)
    (req : HttpRequest) (hreq : req.Sendable) :
    (server.reply fnmatch w req.received).2.2.Sendable := by
  rw [HttpServer.reply, h]
  exact { version := hreq.version
          status := by
            show (0 : Int) ≤ 404 ∧ (404 : Int) < 2 ^ 31
            decide
          reason := rfl
          headers := by
            show ∀ e ∈ HeaderMap.erase (ascii "connection".toList)
              (HttpResponse.notFound {}).headers, HttpResponseParser.isHeader e = true
            decide +kernel
          ordered := by
            show HeaderMap.Ordered (HttpResponse.notFound {}).headers
            decide +kernel
          noLength := fun hnil => absurd hnil (show notFoundBody ≠ [] by decide)
          body := by
            show notFoundBody.length < 2 ^ 63
            decide +kernel }

end

/-- Two requests, of which the second one is not answered yet. -/
theorem run_faithful_notFound :
    let server : HttpServer Unit := { keepalive := true, dispatch := { default_ := some .notFound } }
    let req : HttpRequest := { close := false }
    ∃ s : Conversation Unit, s.sent = [req, req] ∧ s.client = .waits ∧ s.got ≠ [] ∧
      ∃ handled pending taken rest, s.sent = handled ++ pending ∧
        server.serve (fun _ _ => false) () (handled.map HttpRequest.received) =
          (s.world, s.answered, s.closed) ∧
        s.answered.length = handled.length ∧ s.answered = taken ++ rest ∧
        s.got = taken.map HttpResponse.received ∧ pending.length + rest.length ≤ 1 ∧
        (s.client = .idle → pending = [] ∧ rest = []) ∧
        (s.client = .failed → s.closed = true ∧ rest = []) ∧
        (s.client = .waits → s.closed = true ∨ s.toServer ≠ [] ∨ s.toClient ≠ []) := by
  intro server req
  let next := step (fun _ _ => false) server (httpParser (originNext false fun _ _ => ([], 0)))
    (httpclientParser HttpResponseParser.fieldsNext) 4096
  let moves := [Move.send req, .serverRead 42, .clientRead 150, .clientRead 105, .send req]
  have hmoves : (runAll (fun s a => if decide (Careful 4096 s a) then next s a else none)
      { world := () } moves).any (fun s => s.sent = [req, req] ∧ s.client = .waits ∧ s.got ≠ []) =
        true := by decide +kernel
  obtain ⟨s, hall, hend⟩ := (Option.any_eq_true _ _).mp hmoves
  have hrun := run_of_runAll_guarded _ (fun _ _ h => of_decide_eq_true h) hall
  have hstate := of_decide_eq_true hend
  exact ⟨s, hstate.1, hstate.2.1, hstate.2.2, run_faithful ⟨by simp⟩ (sendable_notFound rfl) hrun⟩

end Conversation

end Azure
