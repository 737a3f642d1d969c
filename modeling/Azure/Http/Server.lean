import Azure.Http.RequestRoundTrip
import Azure.Http.Servlet

/-!
# Serving a client (`http_server.cpp`)

`handleClient` answers the requests of one connection, one after the other.  The table of its servlets
is the one it has when the client comes; servlets use the request and the response, and leave the
session alone.
-/

namespace Azure

open Reasoning

structure HttpServer (World : Type) where
  keepalive : Bool := false
  dispatch : ServletDispatch (Servlet World)

/-- What `handleClient` comes to: it waits for a request, an exception leaves it, or it closes the
session. -/
inductive Handled where
  | waits
  | thrown
  | closes
  deriving DecidableEq, Repr

namespace HttpServer

variable {World : Type} (fnmatch : Bytes → Bytes → Bool) (server : HttpServer World)

def reply (w : World) (req : HttpRequest) : World × HttpRequest × HttpResponse :=
  server.dispatch.handle fnmatch w req
    { version := req.version, close := req.close || !server.keepalive }

/-- `handleClient`, with the responses that it sends; every turn reads something. -/
def handleClient (M : Scanner Nat RequestAction) (size : Nat) :
    Nat → World → List ReadResult → Option (World × List HttpResponse × Handled)
  | 0, _, _ => none
  | n + 1, w, reads =>
    match HttpSession.recvRequest M size reads with
    | none => none
    | some .wait => some (w, [], .waits)
    | some .thrown => some (w, [], .thrown)
    | some (.null _) => some (w, [], .closes)
    | some (.ret req reads) =>
      let (w, req, rsp) := server.reply fnmatch w req
      if !server.keepalive || req.close then some (w, [rsp], .closes)
      else
        (handleClient M size n w reads).map fun (w, rsps, handled) => (w, rsp :: rsps, handled)

/-! ## Requests and answers -/

/-- The answers to some requests, up to the first behind which the session is closed, and whether there
is one. -/
def serve : World → List HttpRequest → World × List HttpResponse × Bool
  | w, [] => (w, [], false)
  | w, req :: reqs =>
    let (w, req, rsp) := server.reply fnmatch w req
    if !server.keepalive || req.close then (w, [rsp], true)
    else
      let (w, rsps, closed) := serve w reqs
      (w, rsp :: rsps, closed)

variable {fnmatch server} in
/-- One more request. -/
theorem serve_snoc {w w' : World} {reqs : List HttpRequest} {rsps : List HttpResponse}
    (h : server.serve fnmatch w reqs = (w', rsps, false)) (req : HttpRequest) :
    server.serve fnmatch w (reqs ++ [req]) =
      let (w'', req, rsp) := server.reply fnmatch w' req
      (w'', rsps ++ [rsp], !server.keepalive || req.close) := by
  induction reqs generalizing w rsps with
  | nil =>
    cases h
    rw [List.nil_append, serve]
    dsimp only
    split_ifs with hclose
    · rw [hclose]
      rfl
    · rw [Bool.not_eq_true] at hclose
      rw [hclose]
      rfl
  | cons first reqs ih =>
    rw [serve] at h
    rw [List.cons_append, serve]
    dsimp only at h ⊢
    split_ifs at h ⊢ with hclose
    · cases h
    · obtain ⟨rfl, hrsps, hopen⟩ : _ ∧ _ ∧ _ := by simpa using h
      have hrest := ih (Prod.ext rfl (Prod.ext rfl hopen))
      dsimp only at hrest
      rw [hrest, ← hrsps]
      rfl

end HttpServer

/-- Reads that bring what a request is written as and nothing else, the first of them with all that stands
in front of the body. -/
structure Carries (size : Nat) (req : HttpRequest) (pieces : List Bytes) : Prop where
  readable : Readable pieces
  bytes : pieces.flatten = req.dump
  first : ∀ d, pieces.head? = some d → req.dump.length ≤ d.length + req.body.length ∧
    d.length ≤ size ∧ Counts (req.dump.length - d.length)

structure Brings (size : Nat) (req : HttpRequest) (pieces : List Bytes) : Prop extends
    Carries size req pieces where
  sendable : req.Sendable

/-- What a client may do when it has sent its requests: nothing, or it closes the connection, or the
connection breaks. -/
def Leaves (reads : List ReadResult) : Prop := reads = [] ∨ reads = [.fail 0] ∨ reads = [.fail (-1)]

def leaving (reads : List ReadResult) : Handled := if reads = [] then .waits else .closes

section

variable {World : Type} {fnmatch : Bytes → Bytes → Bool} {server : HttpServer World} {size : Nat}
  {relaxed : Bool} {absolute : Nat → UInt8 → List RequestAction × Nat}

variable (relaxed) in
theorem Brings.recvRequest (habsolute : RequestUri absolute) {req : HttpRequest} {pieces : List Bytes}
    (h : Brings size req pieces) (later : List ReadResult) :
    HttpSession.recvRequest (httpParser (originNext relaxed absolute)) size
      (pieces.map ReadResult.data ++ later) = some (.ret req.received later) := by
  cases pieces with
  | nil =>
    have hbytes := h.bytes
    rw [HttpRequest.dump_eq, List.flatten_nil, eq_comm, List.append_eq_nil_iff] at hbytes
    have hhead := congrArg List.length hbytes.1
    simp only [HttpRequest.wireHead, crlf, List.length_append, List.length_cons, List.length_nil] at hhead
    omega
  | cons d pieces =>
    obtain ⟨hhead, hsize, hcounts⟩ := h.first d rfl
    have hfirst : req.wireHead.length ≤ d.length := by
      rw [HttpRequest.dump_eq, List.length_append] at hhead
      omega
    rw [h.sendable.recvRequest habsolute later h.readable h.bytes hfirst hsize, if_pos hcounts]

theorem recvRequest_leaves (M : Scanner Nat RequestAction) (size : Nat) {reads : List ReadResult}
    (h : Leaves reads) :
    HttpSession.recvRequest M size reads = some .wait ∧ leaving reads = .waits ∨
      HttpSession.recvRequest M size reads = some (.null true) ∧ leaving reads = .closes := by
  rcases h with rfl | rfl | rfl
  · exact .inl ⟨rfl, rfl⟩
  · exact .inr ⟨rfl, rfl⟩
  · exact .inr ⟨rfl, rfl⟩

/-- The server answers the requests of a connection in their order, each once, up to the first behind
which it closes the session; no request is lost, and none is answered with what belongs to another. -/
theorem handleClient_brings (habsolute : RequestUri absolute) (w : World)
    (sent : List (HttpRequest × List Bytes)) (hsent : ∀ s ∈ sent, Brings size s.1 s.2)
    {later : List ReadResult} (hlater : Leaves later) :
    server.handleClient fnmatch (httpParser (originNext relaxed absolute)) size (sent.length + 1) w
        ((sent.flatMap Prod.snd).map ReadResult.data ++ later) =
      let (w', rsps, closed) := server.serve fnmatch w (sent.map fun s => s.1.received)
      some (w', rsps, if closed then .closes else leaving later) := by
  induction sent generalizing w with
  | nil =>
    rw [List.flatMap_nil, List.map_nil, List.nil_append, HttpServer.handleClient]
    -- behind the last request the stream ends, or nothing more comes
    rcases recvRequest_leaves (httpParser (originNext relaxed absolute)) size hlater
      with ⟨hrecv, hleaving⟩ | ⟨hrecv, hleaving⟩
    · simp only [hrecv, hleaving, List.map_nil, HttpServer.serve]
      rfl
    · simp only [hrecv, hleaving, List.map_nil, HttpServer.serve]
      rfl
  | cons s sent ih =>
    -- `recvRequest` takes exactly the first request and leaves the rest of the stream
    have hrecv := (hsent s List.mem_cons_self).recvRequest relaxed habsolute
      ((sent.flatMap Prod.snd).map ReadResult.data ++ later)
    rw [List.flatMap_cons, List.map_append, List.append_assoc, List.length_cons,
      HttpServer.handleClient, List.map_cons]
    simp only [hrecv, HttpServer.serve]
    split
    · rfl
    · have hrest := ih (server.reply fnmatch w s.1.received).1
        fun s' hs' => hsent s' (List.mem_cons_of_mem s hs')
      rw [hrest]
      rfl

theorem handleClient_brings_twice :
    let server : HttpServer Nat :=
      { keepalive := true
        dispatch := { data := [(ascii "/n".toList, some (.function fun n req rsp =>
          (n + 1, req, { rsp with body := decimal n })))], default_ := some .notFound } }
    let req : HttpRequest := { path := ascii "/n".toList, close := false }
    server.handleClient (fun _ _ => false) (httpParser (originNext false fun _ _ => ([], 0))) 4096 3 7
        ([req.dump, req.dump].map ReadResult.data ++ [.fail 0]) =
      some (9, [{ version := 0x11, close := false, body := decimal 7 }
        , { version := 0x11, close := false, body := decimal 8 }], .closes) := by
  intro server req
  have hbrings : Brings 4096 req [req.dump] :=
    { sendable := by decide +kernel
      readable := by
        unfold Readable
        decide +kernel
      bytes := by simp
      first := by
        intro d hd
        cases Option.some.inj hd
        decide +kernel }
  have hsent : ∀ s ∈ [(req, [req.dump]), (req, [req.dump])], Brings 4096 s.1 s.2 := by
    simp [hbrings]
  exact handleClient_brings ⟨by simp⟩ 7 [(req, [req.dump]), (req, [req.dump])] hsent (.inr (.inl rfl))

end

end Azure
