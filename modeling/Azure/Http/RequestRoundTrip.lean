import Azure.Http.HeaderLines
import Azure.Http.KeepAlive
import Azure.Uri.Printing

/-!
# Requests that are written and read back

`recvRequest` gives back what `dump` has written.  The connection comes back as a header too, and so
does the length of a body; parameters and cookies are not written at all.
-/

namespace Azure

open Reasoning

/-! ## Numbers -/

theorem lexicalCast_decimal {n : Nat} (h : n < 2 ^ 64) :
    lexicalCast (decimal n) = some (UInt64.ofNat n) := by
  have hfirst : ∀ b, (decimal n).head? = some b → 48 ≤ b := fun b hb =>
    (digit_of_mem_decimal (List.mem_of_head? hb)).1
  have hminus : (decimal n).head? ≠ some 45 := fun heq => absurd (hfirst 45 heq) (by decide)
  have hplus : (decimal n).head? ≠ some 43 := fun heq => absurd (hfirst 43 heq) (by decide)
  rw [lexicalCast, if_neg hminus, if_neg hplus, unsignedOf, leadingDigits_decimal,
    if_pos ⟨decimal_ne_nil n, decimal_all n, h⟩]

theorem toInt_ofNat {n : Nat} (h : n < 2 ^ 63) : (UInt64.ofNat n).toInt64.toInt = n := by
  have hlt : n < 2 ^ 64 := by omega
  have hnat : (UInt64.ofNat n).toNat = n := UInt64.toNat_ofNat_of_lt hlt
  rw [← Int64.toInt_toBitVec, UInt64.toBitVec_toInt64, BitVec.toInt_eq_toNat_of_lt]
  · rw [UInt64.toNat_toBitVec, hnat]
  · rw [UInt64.toNat_toBitVec, hnat]
    omega

/-! ## Lines -/

def connectionEntry (close : Bool) : Bytes × Bytes :=
  (ascii "connection".toList, ascii (if close then "close" else "keep-alive").toList)

theorem connectionLine_eq (close : Bool) : connectionLine close = headerLine (connectionEntry close) := by
  cases close <;> decide

def lengthEntry (body : Bytes) : HeaderMap :=
  if body = [] then [] else [(ascii "content-length".toList, decimal body.length)]

theorem dumpLines_eq (lines : List Bytes) (body : Bytes) :
    dumpLines lines body =
      (lines ++ (lengthEntry body).map headerLine).flatMap (fun l => l ++ crlf) ++ crlf ++ body := by
  unfold dumpLines lengthEntry
  by_cases hbody : body = []
  · simp [hbody]
  · simp [hbody, headerLine, ascii]

theorem isName_connection (close : Bool) :
    isName (connectionEntry close).1 = true ∧ isValue (connectionEntry close).2 = true := by
  cases close <;> decide

theorem isName_length {body : Bytes} {e : Bytes × Bytes} (he : e ∈ lengthEntry body) :
    isName e.1 = true ∧ isValue e.2 = true := by
  unfold lengthEntry at he
  split_ifs at he
  · cases he
  · rw [List.mem_singleton] at he
    subst he
    refine ⟨show isName (ascii "content-length".toList) = true by decide, ?_⟩
    have hbyte : ∀ b ∈ decimal body.length, b ≠ 0 ∧ b ≠ 10 ∧ b ≠ 13 ∧ b ≠ 127 ∧ b ≠ 9 ∧ b ≠ 32 := by
      intro b hb
      obtain ⟨hlow, hhigh⟩ := digit_of_mem_decimal hb
      refine ⟨?_, ?_, ?_, ?_, ?_, ?_⟩ <;>
      · rintro rfl
        first | exact absurd hlow (by decide) | exact absurd hhigh (by decide)
    simp only [isValue, Bool.and_eq_true, List.all_eq_true, decide_eq_true_eq]
    refine ⟨⟨fun b hb => ?_, fun heq => ?_⟩, fun heq => ?_⟩
    · obtain ⟨h0, h10, h13, h127, -, -⟩ := hbyte b hb
      exact ⟨⟨⟨h0, h10⟩, h13⟩, h127⟩
    · exact (hbyte 9 (List.mem_of_head? heq)).2.2.2.2.1 rfl
    · exact (hbyte 32 (List.mem_of_head? heq)).2.2.2.2.2 rfl

/-! ## Headers -/

def receivedHeaders (headers : HeaderMap) (close : Bool) (body : Bytes) : HeaderMap :=
  ((headers.erase (ascii "connection".toList)).set (connectionEntry close).1
    (connectionEntry close).2).setAll (lengthEntry body)

theorem not_same_length_connection :
    ¬ HeaderMap.same (ascii "content-length".toList) (ascii "connection".toList) := by decide

theorem find_receivedHeaders (headers : HeaderMap) (close : Bool) (body : Bytes) :
    (receivedHeaders headers close body).find (ascii "connection".toList) =
      some (connectionEntry close).2 := by
  have hconnection : ((headers.erase (ascii "connection".toList)).set (connectionEntry close).1
      (connectionEntry close).2).find (ascii "connection".toList) =
        some (connectionEntry close).2 := by
    rw [HeaderMap.find_set]
    exact if_pos rfl
  rw [receivedHeaders, lengthEntry]
  split_ifs with hbody
  · exact hconnection
  · show HeaderMap.find _ (HeaderMap.set _ _ _) = _
    rw [HeaderMap.find_set, if_neg not_same_length_connection, hconnection]

theorem contentLength_receivedHeaders {headers : HeaderMap} {body : Bytes} (close : Bool)
    (hnone : body = [] → headers.contentLength = 0) (hbody : body.length < 2 ^ 63) :
    (receivedHeaders headers close body).contentLength.toInt64.toInt = body.length := by
  by_cases hnil : body = []
  · have hlength : (receivedHeaders headers close body).contentLength = headers.contentLength := by
      rw [receivedHeaders, lengthEntry, if_pos hnil]
      show HeaderMap.contentLength (HeaderMap.set (ascii "connection".toList) _ _) = _
      rw [HeaderMap.contentLength, HeaderMap.find_set, if_neg (by decide), HeaderMap.find_erase,
        if_neg (by decide)]
      rfl
    rw [hlength, hnone hnil, hnil]
    rfl
  · have hlength : (receivedHeaders headers close body).contentLength = UInt64.ofNat body.length := by
      rw [receivedHeaders, lengthEntry, if_neg hnil]
      show HeaderMap.contentLength (HeaderMap.set (ascii "content-length".toList) _ _) = _
      rw [HeaderMap.contentLength, HeaderMap.find_set, if_pos (by decide), Option.bind_some,
        lexicalCast_decimal (by omega), Option.getD_some]
    rw [hlength, toInt_ofNat hbody]

/-- The headers in the order of their lines come to the same map. -/
theorem setAll_entries {headers : HeaderMap} (hordered : headers.Ordered) (close : Bool) (body : Bytes) :
    HeaderMap.setAll [] (connectionEntry close :: headers.erase (ascii "connection".toList) ++
      lengthEntry body) = receivedHeaders headers close body := by
  have herase : HeaderMap.Ordered (headers.erase (ascii "connection".toList)) :=
    List.Pairwise.filter _ hordered
  have hbuild : HeaderMap.setAll [] (headers.erase (ascii "connection".toList)) =
      headers.erase (ascii "connection".toList) := HeaderMap.setAll_of_ordered (m := []) herase
  have happend : HeaderMap.setAll [] (connectionEntry close ::
      headers.erase (ascii "connection".toList) ++ lengthEntry body) =
        ((HeaderMap.set (ascii "connection".toList) (connectionEntry close).2 []).setAll
          (headers.erase (ascii "connection".toList))).setAll (lengthEntry body) :=
    List.foldl_append ..
  rw [happend, HeaderMap.setAll_set fun e he => HeaderMap.not_same_of_mem_erase he, hbuild]
  rfl

/-! ## Requests -/

namespace HttpRequest

/-- What a request has to be for its text to be read back.  The parser has no minus in a method. -/
structure Sendable (req : HttpRequest) : Prop where
  method : req.method ≠ .msearch ∧ req.method ≠ .invalid
  version : req.version = 0x11 ∨ req.version = 0x10
  path : HttpRequestParser.isPath req.path = true
  query : HttpRequestParser.isText isquery req.query = true
  fragment : HttpRequestParser.isText isquery req.fragment = true
  headers : ∀ e ∈ req.headers.erase (ascii "connection".toList), isName e.1 = true ∧ isValue e.2 = true
  ordered : req.headers.Ordered
  noLength : req.body = [] → req.headers.contentLength = 0
  body : req.body.length < 2 ^ 63

instance (req : HttpRequest) : Decidable req.Sendable :=
  decidable_of_iff ((req.method ≠ .msearch ∧ req.method ≠ .invalid) ∧
      (req.version = 0x11 ∨ req.version = 0x10) ∧ HttpRequestParser.isPath req.path = true ∧
      HttpRequestParser.isText isquery req.query = true ∧
      HttpRequestParser.isText isquery req.fragment = true ∧
      (∀ e ∈ req.headers.erase (ascii "connection".toList), isName e.1 = true ∧ isValue e.2 = true) ∧
      req.headers.Ordered ∧ (req.body = [] → req.headers.contentLength = 0) ∧ req.body.length < 2 ^ 63)
    ⟨fun ⟨method, version, path, query, fragment, headers, ordered, noLength, body⟩ =>
      { method, version, path, query, fragment, headers, ordered, noLength, body },
      fun h => ⟨h.method, h.version, h.path, h.query, h.fragment, h.headers, h.ordered, h.noLength, h.body⟩⟩

def received (req : HttpRequest) : HttpRequest :=
  { req with
    headers := receivedHeaders req.headers req.close req.body
    params := []
    cookies := [] }

def entries (req : HttpRequest) : HeaderMap :=
  connectionEntry req.close :: req.headers.erase (ascii "connection".toList) ++ lengthEntry req.body

def wireHead (req : HttpRequest) : Bytes :=
  req.startLine ++ crlf ++ (req.entries.map headerLine).flatMap (fun l => l ++ crlf) ++ crlf

theorem dump_eq (req : HttpRequest) : req.dump = req.wireHead ++ req.body := by
  rw [dump, dumpLines_eq, lines, HeaderMap.lines_eq, connectionLine_eq, wireHead, entries]
  simp only [List.map_append, List.map_cons, List.flatMap_append, List.flatMap_cons,
    List.append_assoc, List.cons_append, List.nil_append]

/-- The first line, up to its line end. -/
theorem startLine_eq (req : HttpRequest) :
    req.startLine = req.method.toString ++ [32] ++ (req.path ++
      (HttpRequestParser.uriTail req.query req.fragment ++ ([32] ++ versionText req.version))) := by
  simp [startLine, HttpRequestParser.uriTail, ascii]

theorem method_token {m : HttpMethod} (h : m ≠ .msearch ∧ m ≠ .invalid) :
    m.toString ≠ [] ∧ m.toString.all HttpMethod.ismethod = true ∧ m.toString.length ≤ 20 ∧
      HttpMethod.ofChars m.toString = some m := by
  cases m <;> first | exact absurd rfl h.1 | exact absurd rfl h.2 | decide +kernel

section

variable {relaxed : Bool} {absolute : Nat → UInt8 → List RequestAction × Nat} {req : HttpRequest}

variable (relaxed absolute) in
open HttpRequestParser in
/-- The text up to the version. -/
theorem Sendable.takes_target (h : req.Sendable) {buffer post : Bytes}
    (hbuffer : buffer = req.method.toString ++ [32] ++ (req.path ++
      (uriTail req.query req.fragment ++ ([32] ++ post)))) :
    ∃ y, Takes relaxed absolute buffer 0 1 {} (req.method.toString ++ [32] ++ (req.path ++
        (uriTail req.query req.fragment ++ [32]))) 4 y ∧
      y.data = { method := req.method, path := req.path, query := req.query
                 fragment := req.fragment } ∧
      y.error = 0 := by
  obtain ⟨hne, hbytes, hlen, hm⟩ := method_token h.method
  have hsplit : buffer = req.method.toString ++
      32 :: (req.path ++ (uriTail req.query req.fragment ++ ([32] ++ post))) := by
    rw [hbuffer]
    simp only [List.append_assoc, List.cons_append, List.nil_append]
  have hmethod : Takes relaxed absolute buffer 0 1 {} (req.method.toString ++ [32]) 3
      { mark := 0, data := { method := req.method } } := takes_method hsplit hne hbytes hlen hm
  have hsplit' : buffer = req.method.toString ++ [32] ++ req.path ++
      (uriTail req.query req.fragment ++ ([32] ++ post)) := by
    rw [hbuffer]
    simp only [List.append_assoc]
  obtain ⟨y, huri, hdata, herror⟩ := takes_uri relaxed absolute
    { mark := 0, data := { method := req.method } } hsplit' h.path h.query h.fragment rfl rfl
  refine ⟨y, hmethod.append ?_, hdata, herror⟩
  rw [Nat.zero_add]
  exact huri

variable (relaxed absolute) in
open HttpRequestParser in
/-- The text in front of the empty line leads to the start of a line, with the data of the request. -/
theorem Sendable.takes_lines (h : req.Sendable) {buffer post : Bytes}
    (hbuffer : buffer = req.startLine ++ crlf ++
      (req.entries.map headerLine).flatMap (fun l => l ++ crlf) ++ post) :
    (∃ y, Takes relaxed absolute buffer 0 1 {} (req.startLine ++ crlf ++
        (req.entries.map headerLine).flatMap fun l => l ++ crlf) 13 y ∧
      y.data = { req.received with close := true, body := [] } ∧ y.error = 0) ∧
    ∃ u v, req.startLine = u ++ v ∧ (httpParser (originNext relaxed absolute)).run 1 u = 4 := by
  let target := req.method.toString ++ [32] ++ (req.path ++ (uriTail req.query req.fragment ++ [32]))
  let block := (req.entries.map headerLine).flatMap fun l => l ++ crlf
  have hline : req.startLine = target ++ versionText req.version := by
    rw [startLine_eq]
    simp only [target, List.append_assoc]
  have hsplit : buffer = req.method.toString ++ [32] ++ (req.path ++ (uriTail req.query req.fragment ++
      ([32] ++ (versionText req.version ++ (crlf ++ (block ++ post)))))) := by
    rw [hbuffer, startLine_eq]
    simp only [block, List.append_assoc]
  have hsplit' : buffer = target ++ versionText req.version ++ (crlf ++ (block ++ post)) := by
    rw [hbuffer, hline]
    simp only [block, List.append_assoc]
  have hsplit'' : buffer = target ++ (versionText req.version ++ crlf) ++
      (req.entries.map headerLine).flatMap (fun l => l ++ crlf) ++ post := by
    rw [hsplit']
    simp only [block, List.append_assoc]
  obtain ⟨x, htarget, hxdata, hxerror⟩ := h.takes_target relaxed absolute hsplit
  have hversion : Takes relaxed absolute buffer target.length 4 x (versionText req.version ++ crlf) 13
      { x with mark := target.length, data := { x.data with version := req.version } } :=
    takes_version h.version hsplit'
  have hnames : ∀ e ∈ req.entries, isName e.1 = true ∧ isValue e.2 = true := by
    intro e he
    rw [entries, List.mem_append, List.mem_cons] at he
    rcases he with (rfl | he) | he
    · exact isName_connection req.close
    · exact h.headers e he
    · exact isName_length he
  obtain ⟨z, hlines, hzdata, hzerror⟩ := takes_headers relaxed absolute
    { x with mark := target.length, data := { x.data with version := req.version } } hsplit'' hnames
  refine ⟨⟨z, ?_, ?_, ?_⟩, target, versionText req.version, hline, htarget.run⟩
  · have hpieces : req.startLine ++ crlf ++ block =
        target ++ ((versionText req.version ++ crlf) ++ block) := by
      rw [hline]
      simp only [List.append_assoc]
    rw [List.length_append] at hlines
    rw [hpieces]
    refine htarget.append ?_
    rw [Nat.zero_add]
    exact hversion.append hlines
  · rw [hzdata, hxdata]
    have hheaders : HeaderMap.setAll [] req.entries = req.received.headers :=
      setAll_entries h.ordered req.close req.body
    simp only [hheaders]
    rfl
  · rw [hzerror]
    exact hxerror

/-- What a request that says it keeps the connection, or closes it, is taken for. -/
theorem finish_received (req : HttpRequest) :
    HttpSession.finish { req.received with close := true, body := [] } req.body = req.received := by
  have hfind : req.received.headers.find (ascii ['C', 'o', 'n', 'n', 'e', 'c', 't', 'i', 'o', 'n']) =
      some (connectionEntry req.close).2 := find_receivedHeaders req.headers req.close req.body
  unfold HttpSession.finish
  rw [hfind]
  show ({ req.received with close := _ } : HttpRequest) = req.received
  have hclose : (true && !strcaseeq (connectionEntry req.close).2
      (ascii ['k', 'e', 'e', 'p', '-', 'a', 'l', 'i', 'v', 'e'])) = req.close := by
    cases req.close <;> decide
  rw [Option.getD_some, hclose]
  rfl

variable (relaxed absolute) in
/-- The text of a request is a request on the wire, and it is the one that `received` says. -/
theorem Sendable.wireRequest (h : req.Sendable) :
    ∃ r : WireRequest (originNext relaxed absolute),
      r.head = req.wireHead ∧ r.body = req.body ∧ r.request = req.received := by
  have hwire : req.wireHead = req.startLine ++ crlf ++
      (req.entries.map headerLine).flatMap (fun l => l ++ crlf) ++ crlf := rfl
  obtain ⟨⟨y, hy, hdata, herror⟩, u, v, hline, hrun⟩ := h.takes_lines relaxed absolute hwire
  -- the empty line
  have hcr := hy.append (.byte (b := 13) [.startField] (y := { y with fieldStart := _ }) (t := 18)
    rfl rfl rfl (HttpRequestParser.unfinished (by omega)) (by decide))
  have hlf : (httpParser (originNext relaxed absolute)).next 18 10 = ([.done], 348) := rfl
  obtain ⟨haccepted, hclean⟩ := hcr.accepted hlf rfl ⟨rfl, rfl⟩ (by decide)
  have hfollow := hcr.followed hlf rfl
  have hhead : (req.startLine ++ crlf ++ (req.entries.map headerLine).flatMap fun l => l ++ crlf) ++
      [13] ++ [10] = req.wireHead := by
    rw [wireHead, List.append_assoc]
    rfl
  rw [hhead] at haccepted hclean hfollow
  have hlength : y.data.headers.contentLength.toInt64.toInt = req.body.length := by
    rw [hdata]
    exact contentLength_receivedHeaders req.close h.noLength h.body
  refine ⟨{ head := req.wireHead, body := req.body, parser := _, accepted := haccepted
            clean := hclean, parsed := hfollow, valid := herror, version := ?_, length := hlength },
    rfl, rfl, ?_⟩
  · refine ⟨u, v ++ (crlf ++ ((req.entries.map headerLine).flatMap (fun l => l ++ crlf) ++ crlf)), ?_,
      hrun⟩
    rw [wireHead, hline]
    simp only [List.append_assoc]
  · show HttpSession.finish y.data req.body = _
    rw [hdata]
    exact finish_received req

/-- What `recvRequest` makes of the text in some pieces, when the first of them brings what stands in front of
the body. -/
theorem Sendable.recvRequest (h : req.Sendable) (habsolute : RequestUri absolute) {size : Nat} {d : Bytes}
    {pieces : List Bytes} (later : List ReadResult) (hread : Readable (d :: pieces))
    (hwire : (d :: pieces).flatten = req.dump) (hhead : req.wireHead.length ≤ d.length)
    (hsize : d.length ≤ size) :
    HttpSession.recvRequest (httpParser (originNext relaxed absolute)) size
        ((d :: pieces).map ReadResult.data ++ later) =
      some (if Counts (req.dump.length - d.length) then .ret req.received later else .null true) := by
  obtain ⟨r, hr, hbody, hreceived⟩ := h.wireRequest relaxed absolute
  have hbytes : r.bytes = req.dump := by rw [WireRequest.bytes, hr, hbody, dump_eq]
  rw [recvRequest_pieces (originNext_space habsolute) r later hread (hwire.trans hbytes.symm)
    (by rw [hr]; exact hhead) hsize, hbytes, hreceived]

/-- A request that is sent is received as it was, whatever reads bring it, when the first of them brings
what stands in front of the body and none brings what is not part of it; the size of the rest must fit
into the `int` that `readFixSize` returns. -/
theorem recvRequest_dump (habsolute : RequestUri absolute) (h : req.Sendable) {size : Nat} {d : Bytes}
    {pieces : List Bytes} (later : List ReadResult) (hread : Readable (d :: pieces))
    (hwire : (d :: pieces).flatten = req.dump) (hhead : req.dump.length ≤ d.length + req.body.length)
    (hsize : d.length ≤ size) (hcounts : Counts (req.dump.length - d.length)) :
    HttpSession.recvRequest (httpParser (originNext relaxed absolute)) size
        ((d :: pieces).map ReadResult.data ++ later) = some (.ret req.received later) := by
  have hfirst : req.wireHead.length ≤ d.length := by
    rw [dump_eq, List.length_append] at hhead
    omega
  rw [h.recvRequest habsolute later hread hwire hfirst hsize, if_pos hcounts]

theorem recvRequest_dump_put :
    let req : HttpRequest := { method := .put, close := false, path := ascii "/a%20b".toList
                               query := ascii "c=d".toList, body := ascii "hello".toList
                               headers := [(ascii "Host".toList, ascii "x".toList)] }
    HttpSession.recvRequest (httpParser (originNext false fun _ _ => ([], 0))) 4096
      ([req.dump.take 81, req.dump.drop 81].map ReadResult.data ++ [.fail 0]) =
        some (.ret req.received [.fail 0]) := by
  intro req
  have hsend : req.Sendable := by decide +kernel
  have hread : Readable [req.dump.take 81, req.dump.drop 81] := by
    unfold Readable
    decide +kernel
  exact recvRequest_dump ⟨by simp⟩ hsend [.fail 0] hread (by decide +kernel) (by decide +kernel)
    (by decide +kernel) (by decide +kernel)

end

end HttpRequest

end Azure
