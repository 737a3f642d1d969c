import Azure.Http.Targets

/-!
# Making requests (`http_connection.cpp`)

`HttpConnection::DoRequest` and `HttpConnectionPool::doRequest` make a request of a URI, of headers and
of a body.  The headers are those of a `std::map`, in its order; nothing here depends on the order being
that of their keys.
-/

namespace Azure

open Reasoning

/-! ## Building a request -/

def connectionKey : Bytes := ascii "connection".toList

def hostKey : Bytes := ascii "Host".toList

def lengthKey : Bytes := ascii "content-length".toList

/-- A turn of the loop over the headers; the second value is `has_host`. -/
def addHeader (r : HttpRequest × Bool) (i : Bytes × Bytes) : HttpRequest × Bool :=
  if strcaseeq i.1 connectionKey then
    if strcaseeq i.2 (ascii "keep-alive".toList) then ({ r.1 with close := false }, r.2) else r
  else
    ({ r.1 with headers := r.1.headers.set i.1 i.2 },
      if !r.2 && strcaseeq i.1 (ascii "host".toList) then i.2 ≠ [] else r.2)

/-- From the loop on; `host` is what the header says when the requester does not. -/
def buildRequest (req : HttpRequest) (host : Bytes) (headers : List (Bytes × Bytes)) (body : Bytes) :
    HttpRequest :=
  let (req, hasHost) := headers.foldl addHeader (req, false)
  let req := if !hasHost then { req with headers := req.headers.set hostKey host } else req
  { req with body }

/-- The request of `HttpConnection::DoRequest` -/
def HttpConnection.doRequest (method : HttpMethod) (uri : Uri) (headers : List (Bytes × Bytes))
    (body : Bytes) : HttpRequest :=
  buildRequest { path := uri.getPath, query := uri.query, fragment := uri.fragment, method } uri.host
    headers body

namespace HttpConnectionPool

/-- The request of `HttpConnectionPool::doRequest` for a text -/
def doRequest (host vhost : Bytes) (method : HttpMethod) (url : Bytes) (headers : List (Bytes × Bytes))
    (body : Bytes) : HttpRequest :=
  buildRequest { path := url, method, close := false } (if vhost = [] then host else vhost) headers body

def doRequestUri (host vhost : Bytes) (method : HttpMethod) (uri : Uri)
    (headers : List (Bytes × Bytes)) (body : Bytes) : HttpRequest :=
  doRequest host vhost method (uri.getPath ++ (if uri.query = [] then [] else [63]) ++ uri.query ++
    (if uri.fragment = [] then [] else [35]) ++ uri.fragment) headers body

end HttpConnectionPool

/-! ## What a request says -/

def lastValue (key : Bytes) (headers : List (Bytes × Bytes)) : Option Bytes :=
  (headers.reverse.find? fun e => decide (HeaderMap.same e.1 key)).map Prod.snd

def keepsAlive (headers : List (Bytes × Bytes)) : Bool :=
  headers.any fun i => strcaseeq i.1 connectionKey && strcaseeq i.2 (ascii "keep-alive".toList)

def namesHost (headers : List (Bytes × Bytes)) : Bool :=
  headers.any fun i => strcaseeq i.1 (ascii "host".toList) && i.2 ≠ []

def otherHeaders (headers : List (Bytes × Bytes)) : List (Bytes × Bytes) :=
  headers.filter fun i => !strcaseeq i.1 connectionKey

section

variable {key : Bytes} {headers : List (Bytes × Bytes)}

theorem lastValue_cons (e : Bytes × Bytes) :
    lastValue key (e :: headers) =
      (lastValue key headers).or (if HeaderMap.same e.1 key then some e.2 else none) := by
  rw [lastValue, lastValue, List.reverse_cons, List.find?_append]
  cases hfind : headers.reverse.find? fun e => decide (HeaderMap.same e.1 key) with
  | some e' => rfl
  | none =>
    by_cases hsame : HeaderMap.same e.1 key
    · simp [hsame]
    · simp [hsame]

theorem HeaderMap.find_setAll (m : HeaderMap) :
    (m.setAll headers).find key = (lastValue key headers).or (m.find key) := by
  induction headers generalizing m with
  | nil => rfl
  | cons e headers ih =>
    rw [HeaderMap.setAll_cons, ih, HeaderMap.find_set, lastValue_cons, Option.or_assoc]
    by_cases hsame : HeaderMap.same e.1 key
    · rw [if_pos hsame, if_pos hsame, Option.some_or]
    · rw [if_neg hsame, if_neg hsame, Option.none_or]

/-- The loop, from any request. -/
theorem foldl_addHeader (req : HttpRequest) (hasHost : Bool) :
    headers.foldl addHeader (req, hasHost) =
      ({ req with close := req.close && !keepsAlive headers
                  headers := req.headers.setAll (otherHeaders headers) },
        hasHost || namesHost headers) := by
  induction headers generalizing req hasHost with
  | nil => simp [keepsAlive, namesHost, otherHeaders, HeaderMap.setAll]
  | cons i headers ih =>
    rw [List.foldl_cons, addHeader]
    by_cases hconnection : strcaseeq i.1 connectionKey = true
    · -- such a key is not that of a host
      have hnot : strcaseeq i.1 (ascii "host".toList) = false := by
        have hkey := of_decide_eq_true hconnection
        rw [strcaseeq, hkey]
        decide
      have hother : otherHeaders (i :: headers) = otherHeaders headers := by
        rw [otherHeaders, List.filter_cons_of_neg (by simp [hconnection])]
        rfl
      have hnames : namesHost (i :: headers) = namesHost headers := by
        rw [namesHost, List.any_cons, hnot, Bool.false_and, Bool.false_or]
        rfl
      have hkeeps : keepsAlive (i :: headers) =
          (strcaseeq i.2 (ascii "keep-alive".toList) || keepsAlive headers) := by
        rw [keepsAlive, List.any_cons, hconnection, Bool.true_and]
        rfl
      rw [if_pos hconnection, hother, hnames, hkeeps]
      by_cases hkeep : strcaseeq i.2 (ascii "keep-alive".toList) = true
      · rw [if_pos hkeep, ih, hkeep, Bool.true_or, Bool.not_true, Bool.and_false, Bool.false_and]
      · rw [Bool.not_eq_true] at hkeep
        rw [hkeep, if_neg Bool.false_ne_true, ih, Bool.false_or]
    · rw [Bool.not_eq_true] at hconnection
      have hother : otherHeaders (i :: headers) = i :: otherHeaders headers := by
        rw [otherHeaders, List.filter_cons_of_pos (by simp [hconnection])]
        rfl
      have hkeeps : keepsAlive (i :: headers) = keepsAlive headers := by
        rw [keepsAlive, List.any_cons, hconnection, Bool.false_and, Bool.false_or]
        rfl
      have hhost : (if !hasHost && strcaseeq i.1 (ascii "host".toList) then decide (i.2 ≠ [])
          else hasHost) = (hasHost || (strcaseeq i.1 (ascii "host".toList) && decide (i.2 ≠ []))) := by
        cases hasHost <;> cases strcaseeq i.1 (ascii "host".toList) <;> simp
      rw [hconnection, if_neg Bool.false_ne_true, ih, hother, hkeeps, HeaderMap.setAll_cons]
      dsimp only
      rw [hhost, Bool.or_assoc, namesHost, namesHost, List.any_cons]

/-- The request that the loop and what follows it come to. -/
theorem buildRequest_eq (req : HttpRequest) (host : Bytes) (headers : List (Bytes × Bytes))
    (body : Bytes) :
    buildRequest req host headers body =
      { req with close := req.close && !keepsAlive headers
                 headers := (req.headers.setAll (otherHeaders headers)).setAll
                   (if namesHost headers then [] else [(hostKey, host)])
                 body } := by
  rw [buildRequest, foldl_addHeader, Bool.false_or]
  cases namesHost headers <;> rfl

/-- What the headers of such a request say: the host stands in for one that the requester does not name,
and the connection is left to `dump`. -/
theorem find_buildRequest {req : HttpRequest} (hempty : req.headers = []) (host : Bytes)
    (headers : List (Bytes × Bytes)) (body : Bytes) (hkey : ¬ HeaderMap.same key connectionKey) :
    (buildRequest req host headers body).headers.find key =
      if HeaderMap.same hostKey key ∧ namesHost headers = false then some host
      else lastValue key headers := by
  have hother : lastValue key (otherHeaders headers) = lastValue key headers := by
    rw [lastValue, lastValue, otherHeaders, ← List.filter_reverse, List.find?_filter]
    congr 2
    funext e
    by_cases hsame : HeaderMap.same e.1 key
    · have hnot : strcaseeq e.1 connectionKey = false :=
        decide_eq_false fun h => hkey (hsame.symm.trans h)
      simp [hsame, hnot]
    · simp [hsame]
  rw [buildRequest_eq]
  dsimp only
  rw [HeaderMap.find_setAll, HeaderMap.find_setAll, hother, hempty]
  have hnil : HeaderMap.find key [] = none := rfl
  rw [hnil, Option.or_none]
  cases hnames : namesHost headers with
  | true => simp [lastValue]
  | false =>
    by_cases hsame : HeaderMap.same hostKey key
    · simp [lastValue, hsame]
    · simp [lastValue, hsame]

/-- What the headers of a request are on the other side, but for the connection. -/
theorem find_received (req : HttpRequest) (hkey : ¬ HeaderMap.same key connectionKey) :
    req.received.headers.find key =
      if req.body ≠ [] ∧ HeaderMap.same lengthKey key then some (decimal req.body.length)
      else req.headers.find key := by
  have hconnection : ¬ HeaderMap.same (connectionEntry req.close).1 key := fun h => hkey h.symm
  have herased : (req.headers.erase (ascii "connection".toList)).find key = req.headers.find key := by
    rw [HeaderMap.find_erase, if_neg]
    exact fun h => hkey h.symm
  have hset : ((req.headers.erase (ascii "connection".toList)).set (connectionEntry req.close).1
      (connectionEntry req.close).2).find key = req.headers.find key := by
    rw [HeaderMap.find_set, if_neg hconnection, herased]
  show HeaderMap.find key (receivedHeaders req.headers req.close req.body) = _
  rw [receivedHeaders, lengthEntry]
  by_cases hbody : req.body = []
  · rw [if_pos hbody, if_neg (by simp [hbody])]
    exact hset
  · rw [if_neg hbody]
    show HeaderMap.find key (HeaderMap.set lengthKey _ _) = _
    rw [HeaderMap.find_set, hset]
    by_cases hlength : HeaderMap.same lengthKey key
    · rw [if_pos hlength, if_pos ⟨hbody, hlength⟩]
    · rw [if_neg hlength, if_neg (fun h => hlength h.2)]

/-! ## From the URI to the server -/

/-- Who makes a request: a connection of its own, or a pool with its hosts. -/
inductive Requester where
  | connection
  | pool (host vhost : Bytes)

namespace Requester

def request : Requester → HttpMethod → Uri → List (Bytes × Bytes) → Bytes → HttpRequest
  | connection => HttpConnection.doRequest
  | pool host vhost => HttpConnectionPool.doRequestUri host vhost

def host : Requester → Uri → Bytes
  | connection, uri => uri.host
  | pool host vhost, _ => if vhost = [] then host else vhost

def closes : Requester → List (Bytes × Bytes) → Bool
  | connection, headers => !keepsAlive headers
  | pool _ _, _ => false

def parts (requester : Requester) (method : HttpMethod) (uri : Uri) (headers : List (Bytes × Bytes))
    (body : Bytes) : HttpRequest :=
  { requester.request method uri headers body with
    path := uri.getPath
    query := uri.query
    fragment := uri.fragment }

variable {requester : Requester} {method : HttpMethod} {uri : Uri} {body : Bytes}

theorem dump_parts (requester : Requester) (method : HttpMethod) (uri : Uri)
    (headers : List (Bytes × Bytes)) (body : Bytes) :
    (requester.parts method uri headers body).dump = (requester.request method uri headers body).dump := by
  cases requester with
  | connection =>
    have hparts : parts connection method uri headers body =
        request connection method uri headers body := by
      rw [parts, request, HttpConnection.doRequest, buildRequest_eq]
    rw [hparts]
  | pool host vhost =>
    have hline : (parts (pool host vhost) method uri headers body).startLine =
        (request (pool host vhost) method uri headers body).startLine := by
      rw [HttpRequest.startLine_eq, HttpRequest.startLine_eq, parts, request,
        HttpConnectionPool.doRequestUri, HttpConnectionPool.doRequest, buildRequest_eq]
      simp [HttpRequestParser.uriTail]
    rw [HttpRequest.dump_eq, HttpRequest.dump_eq, HttpRequest.wireHead, HttpRequest.wireHead, hline]
    rfl

/-- The members of the request, but for its target. -/
theorem parts_eq (requester : Requester) (method : HttpMethod) (uri : Uri)
    (headers : List (Bytes × Bytes)) (body : Bytes) :
    requester.parts method uri headers body =
      { method, path := uri.getPath, query := uri.query, fragment := uri.fragment, body
        close := requester.closes headers
        headers := (HeaderMap.setAll [] (otherHeaders headers)).setAll
          (if namesHost headers then [] else [(hostKey, requester.host uri)]) } := by
  cases requester with
  | connection =>
    rw [parts, request, HttpConnection.doRequest, buildRequest_eq]
    rfl
  | pool host vhost =>
    rw [parts, request, HttpConnectionPool.doRequestUri, HttpConnectionPool.doRequest, buildRequest_eq]
    rfl

theorem find_parts (hkey : ¬ HeaderMap.same key connectionKey) :
    (requester.parts method uri headers body).headers.find key =
      if HeaderMap.same hostKey key ∧ namesHost headers = false then some (requester.host uri)
      else lastValue key headers := by
  have hempty : HttpRequest.headers {} = [] := rfl
  rw [parts_eq, ← find_buildRequest hempty (requester.host uri) headers body hkey, buildRequest_eq]

theorem sendable_parts (huri : uri.Target) (hmethod : method ≠ .msearch ∧ method ≠ .invalid)
    (hheaders : ∀ e ∈ otherHeaders headers, isName e.1 = true ∧ isValue e.2 = true)
    (hhost : isValue (requester.host uri) = true)
    (hlength : body = [] → ((lastValue lengthKey headers).bind lexicalCast).getD 0 = 0)
    (hbody : body.length < 2 ^ 63) : (requester.parts method uri headers body).Sendable := by
  have hother : ¬ (HeaderMap.same hostKey lengthKey ∧ namesHost headers = false) :=
    fun h => absurd h.1 (by decide)
  have hfind : (requester.parts method uri headers body).headers.find lengthKey =
      lastValue lengthKey headers := by rw [find_parts (by decide), if_neg hother]
  rw [parts_eq] at hfind ⊢
  refine ⟨hmethod, .inl rfl, huri.path, huri.query, huri.fragment, ?_, ?_, ?_, hbody⟩
  · intro e he
    have hmem := List.mem_of_mem_filter he
    have hfirst : ∀ e ∈ HeaderMap.setAll [] (otherHeaders headers),
        isName e.1 = true ∧ isValue e.2 = true :=
      HeaderMap.forall_setAll (P := fun k => isName k = true) (Q := fun v => isValue v = true)
        (fun e he => absurd he List.not_mem_nil) hheaders
    have hlast : ∀ e ∈ (if namesHost headers then [] else [(hostKey, requester.host uri)]),
        isName e.1 = true ∧ isValue e.2 = true := by
      split_ifs
      · exact fun e he => absurd he List.not_mem_nil
      · rw [List.forall_mem_singleton]
        exact ⟨show isName hostKey = true by decide, hhost⟩
    exact HeaderMap.forall_setAll (P := fun k => isName k = true) (Q := fun v => isValue v = true)
      hfirst hlast e hmem
  · exact HeaderMap.ordered_setAll (HeaderMap.ordered_setAll .nil _) _
  · intro hnil
    rw [HeaderMap.contentLength]
    have hgoal := hlength hnil
    rw [← hfind] at hgoal
    exact hgoal

end Requester

variable {relaxed : Bool} {absolute : Nat → UInt8 → List RequestAction × Nat}

/-- The server gets what the requester has asked for: the parts of the URI as they were, the body, and the
headers, among them a host. -/
theorem recvRequest_doRequest (habsolute : RequestUri absolute) (requester : Requester) {url : Bytes}
    {uri : Uri} (hcreate : Uri.create url = some (some uri)) (hslashes : ¬ [47, 47] <+: uri.path)
    {method : HttpMethod} (hmethod : method ≠ .msearch ∧ method ≠ .invalid)
    (hheaders : ∀ e ∈ otherHeaders headers, isName e.1 = true ∧ isValue e.2 = true)
    (hpool : ∀ host vhost, requester = .pool host vhost → isValue host = true ∧ isValue vhost = true)
    {body : Bytes} (hlength : body = [] → ((lastValue lengthKey headers).bind lexicalCast).getD 0 = 0)
    (hbody : body.length < 2 ^ 63) {size : Nat} {d : Bytes} {pieces : List Bytes}
    (later : List ReadResult) (hread : Readable (d :: pieces))
    (hwire : (d :: pieces).flatten = (requester.request method uri headers body).dump)
    (hhead : (requester.request method uri headers body).dump.length ≤ d.length + body.length)
    (hsize : d.length ≤ size)
    (hcounts : Counts ((requester.request method uri headers body).dump.length - d.length)) :
    ∃ req, HttpSession.recvRequest (httpParser (originNext relaxed absolute)) size
        ((d :: pieces).map ReadResult.data ++ later) = some (.ret req later) ∧
      req.method = method ∧ req.path = uri.getPath ∧ req.query = uri.query ∧
      req.fragment = uri.fragment ∧ req.body = body ∧ req.close = requester.closes headers ∧
      ∀ key, ¬ HeaderMap.same key connectionKey → ¬ (body ≠ [] ∧ HeaderMap.same lengthKey key) →
        req.headers.find key =
          if HeaderMap.same hostKey key ∧ namesHost headers = false then some (requester.host uri)
          else lastValue key headers := by
  have huri := Uri.target_of_create hcreate hslashes
  have hhost : isValue (requester.host uri) = true := by
    cases requester with
    | connection => exact huri.host
    | pool host vhost =>
      rw [Requester.host]
      split_ifs
      · exact (hpool host vhost rfl).1
      · exact (hpool host vhost rfl).2
  have hsendable := Requester.sendable_parts huri hmethod hheaders hhost hlength hbody
  -- what is written is what the request of these parts writes, and that one is sendable
  have hsame := requester.dump_parts method uri headers body
  have hrest : (requester.parts method uri headers body).body = body := by rw [Requester.parts_eq]
  rw [← hsame] at hwire hhead hcounts
  have hfirst : (requester.parts method uri headers body).wireHead.length ≤ d.length := by
    rw [HttpRequest.dump_eq, List.length_append, hrest] at hhead
    omega
  have hrecv : HttpSession.recvRequest (httpParser (originNext relaxed absolute)) size
      ((d :: pieces).map ReadResult.data ++ later) =
        some (.ret (requester.parts method uri headers body).received later) := by
    rw [hsendable.recvRequest habsolute later hread hwire hfirst hsize, if_pos hcounts]
  refine ⟨_, hrecv, ?_, ?_, ?_, ?_, hrest, ?_, fun key hkey hnot => ?_⟩
  · rw [Requester.parts_eq]
    rfl
  · rfl
  · rfl
  · rfl
  · rw [Requester.parts_eq]
    rfl
  · rw [find_received _ hkey, hrest, if_neg hnot, Requester.find_parts hkey]

theorem recvRequest_doRequest_pool :
    let headers := [(ascii "Accept".toList, ascii "x".toList), (ascii "hOST".toList, [])]
    let uri : Uri := { scheme := ascii "http".toList, host := ascii "h".toList, path := ascii "/a".toList
                       query := ascii "b=%20".toList, fragment := ascii "c".toList }
    let requester := Requester.pool (ascii "h".toList) (ascii "v".toList)
    let sent := (requester.request .post uri headers (ascii "body".toList)).dump
    ∃ req, HttpSession.recvRequest (httpParser (originNext false fun _ _ => ([], 0))) 4096
        ([sent.take 92, sent.drop 92].map ReadResult.data ++ []) = some (.ret req []) ∧
      req.method = .post ∧ req.path = ascii "/a".toList ∧ req.query = ascii "b=%20".toList ∧
      req.fragment = ascii "c".toList ∧ req.body = ascii "body".toList ∧ req.close = false ∧
      ∀ key, ¬ HeaderMap.same key connectionKey →
        ¬ (ascii "body".toList ≠ [] ∧ HeaderMap.same lengthKey key) → req.headers.find key =
          if HeaderMap.same hostKey key ∧ namesHost headers = false then some (ascii "v".toList)
          else lastValue key headers := by
  intro headers uri requester sent
  have hcreate : Uri.create (ascii "http://h/a?b=%20#c".toList) = some (some uri) :=
    Uri.create_of_accepted (c := ⟨some (ascii "http".toList), some ⟨none, [104], none⟩,
      ascii "/a".toList, some (ascii "b=%20".toList), some [99]⟩) (by decide +kernel) (by decide)
      (by decide)
  have hread : Readable [sent.take 92, sent.drop 92] := by
    unfold Readable
    decide +kernel
  have hhosts : ∀ host vhost, requester = .pool host vhost →
      isValue host = true ∧ isValue vhost = true := by
    intro host vhost heq
    obtain ⟨rfl, rfl⟩ := Requester.pool.inj heq
    decide
  exact recvRequest_doRequest ⟨by simp⟩ requester hcreate (by decide) ⟨by decide, by decide⟩
    (by decide +kernel) hhosts (fun hnil => absurd hnil (by decide)) (by decide) [] hread
    (List.flatten_cons.trans (by decide +kernel)) (by decide +kernel) (by decide +kernel)
    (by decide +kernel)

end

end Azure
