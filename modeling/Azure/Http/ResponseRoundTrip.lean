import Azure.Http.RequestRoundTrip
import Azure.Http.ResponseLines
import Azure.Http.Waiting

/-!
# Responses that are written and read back

`recvResponse` gives back what `dump` has written.  The connection comes back as a header only, the
length of a body as one more, and a reason that was left out as the text of the status.
-/

namespace Azure

open Reasoning

/-! ## The table is one of headers -/

namespace HttpResponseParser

def OfFields (r : List ResponseAction × Nat) : Prop := .statusCode ∉ r.1 ∧ r.2 ≠ 17

instance (r : List ResponseAction × Nat) : Decidable (OfFields r) :=
  inferInstanceAs (Decidable (_ ∧ _))

theorem ofFields_ite {c : Prop} [Decidable c] {r r' : List ResponseAction × Nat} (h : c → OfFields r)
    (h' : OfFields r') : OfFields (if c then r else r') := by
  split
  · next hc => exact h hc
  · exact h'

theorem ofFields_nameNext {word : Bytes} {i go behind : Nat} {b : UInt8} (hgo : go ≠ 17)
    (hbehind : behind ≠ 17) : OfFields (nameNext word i go behind b) := by
  unfold nameNext
  split_ifs
  · exact ⟨by simp, hbehind⟩
  · exact ⟨by simp, hgo⟩
  all_goals decide

theorem ofFields_startNext {self lf cr go : Nat} {first : UInt8 → Bool} {b : UInt8} (hself : self ≠ 17)
    (hlf : lf ≠ 17) (hcr : cr ≠ 17) (hgo : go ≠ 17) : OfFields (startNext self lf cr first go b) := by
  unfold startNext
  split_ifs
  · exact ⟨by simp, hself⟩
  · exact ⟨by simp, hlf⟩
  · exact ⟨by simp, hcr⟩
  · exact ⟨by simp, hgo⟩
  · decide

theorem ofFields_valueNext {word : Bytes} {i go : Nat} {b : UInt8} (hgo : go ≠ 17) :
    OfFields (valueNext word i go b) := by
  unfold valueNext
  split_ifs
  · decide
  · decide
  · exact ⟨by simp, hgo⟩
  · decide

theorem ofFields_lineNext {acts : List ResponseAction} {b : UInt8} (hacts : .statusCode ∉ acts) :
    OfFields (lineNext acts b) := by
  unfold lineNext
  split_ifs <;> exact ⟨by simp [hacts], by simp⟩

theorem ofFields_belowNext {self lf cr go : Nat} {lfActs crActs acts : List ResponseAction}
    {first : UInt8 → Bool} {b : UInt8} (hself : self ≠ 17) (hlf : OfFields (lfActs, lf))
    (hcr : OfFields (crActs, cr)) (hgo : OfFields (acts, go)) :
    OfFields (belowNext self lf cr lfActs crActs first acts go b) := by
  unfold belowNext
  split_ifs
  · exact ⟨List.not_mem_nil, hself⟩
  · exact hlf
  · exact hcr
  · exact hgo
  · exact ⟨List.not_mem_nil, by decide⟩

theorem ofFields_nameBelowNext {self final cr go : Nat} {acts : List ResponseAction}
    {first : UInt8 → Bool} {b : UInt8} (hself : self ≠ 17) (hfinal : final ≠ 17) (hcr : cr ≠ 17)
    (hgo : OfFields (acts, go)) : OfFields (nameBelowNext self final cr first acts go b) := by
  unfold nameBelowNext
  split_ifs
  · exact ⟨List.not_mem_nil, hself⟩
  · exact ⟨by simp, hfinal⟩
  · exact ⟨List.not_mem_nil, hcr⟩
  · exact hgo
  all_goals exact ⟨by simp, by decide⟩

theorem ofFields_wordNext {word : Bytes} {i go : Nat} {b : UInt8} (hgo : go ≠ 17) :
    OfFields (wordNext word i go b) := by
  unfold wordNext
  split_ifs
  · exact ⟨by simp, hgo⟩
  · decide

theorem ofFields_endNext {lfActs crActs : List ResponseAction} {lf cr : Nat}
    {other : UInt8 → List ResponseAction × Nat} {b : UInt8} (hlf : OfFields (lfActs, lf))
    (hcr : OfFields (crActs, cr)) (hother : OfFields (other b)) :
    OfFields (endNext lfActs lf crActs cr other b) := by
  unfold endNext
  split_ifs
  · exact hlf
  · exact hcr
  · exact hother

theorem ofFields_fieldsNext (cs : Nat) (b : UInt8) : OfFields (fieldsNext cs b) := by
  unfold fieldsNext
  split
  all_goals repeat' with_reducible refine ofFields_ite (fun _ => ?_) ?_
  -- the ends of lines come first, as there are names and values behind them
  all_goals try with_reducible refine ofFields_endNext (by decide) (by decide) ?_
  all_goals first
    | with_reducible refine ofFields_nameNext ?_ ?_
    | with_reducible refine ofFields_valueNext ?_
    | with_reducible refine ofFields_wordNext ?_
    | with_reducible refine ofFields_startNext ?_ ?_ ?_ ?_
    | with_reducible refine ofFields_lineNext ?_
    | with_reducible refine ofFields_belowNext ?_ ?_ ?_ ?_
    | with_reducible refine ofFields_nameBelowNext ?_ ?_ ?_ ?_
    | skip
  all_goals first | omega | decide

theorem headerFields_fieldsNext : HeaderFields fieldsNext where
  noStatus cs b := (ofFields_fieldsNext cs b).1
  target cs b := (ofFields_fieldsNext cs b).2

end HttpResponseParser

/-! ## Responses -/

theorem reason_statusToString (status : Int) :
    statusToString status ≠ [] ∧ (statusToString status).all (fun b => b ≠ 10 && b ≠ 13) = true := by
  have hall : ∀ e ∈ statusMap, e.2 ≠ [] ∧ e.2.all (fun b => b ≠ 10 && b ≠ 13) = true := by
    decide +kernel
  unfold statusToString
  cases hlookup : statusMap.lookup status with
  | none => decide
  | some text =>
    obtain ⟨l, r, hsplit, -⟩ := List.lookup_eq_some_iff.mp hlookup
    exact hall (status, text) (by rw [hsplit]; simp)

namespace HttpResponse

structure Sendable (rsp : HttpResponse) : Prop where
  version : rsp.version = 0x11 ∨ rsp.version = 0x10
  status : 0 ≤ rsp.status ∧ rsp.status < 2 ^ 31
  reason : rsp.reason.all (fun b => b ≠ 10 && b ≠ 13) = true
  headers : ∀ e ∈ rsp.headers.erase (ascii "connection".toList), HttpResponseParser.isHeader e = true
  ordered : rsp.headers.Ordered
  noLength : rsp.body = [] → rsp.headers.contentLength = 0
  body : rsp.body.length < 2 ^ 63

instance (rsp : HttpResponse) : Decidable rsp.Sendable :=
  decidable_of_iff ((rsp.version = 0x11 ∨ rsp.version = 0x10) ∧
      (0 ≤ rsp.status ∧ rsp.status < 2 ^ 31) ∧ rsp.reason.all (fun b => b ≠ 10 && b ≠ 13) = true ∧
      (∀ e ∈ rsp.headers.erase (ascii "connection".toList), HttpResponseParser.isHeader e = true) ∧
      rsp.headers.Ordered ∧ (rsp.body = [] → rsp.headers.contentLength = 0) ∧ rsp.body.length < 2 ^ 63)
    ⟨fun ⟨version, status, reason, headers, ordered, noLength, body⟩ =>
      { version, status, reason, headers, ordered, noLength, body },
      fun h => ⟨h.version, h.status, h.reason, h.headers, h.ordered, h.noLength, h.body⟩⟩

def writtenReason (rsp : HttpResponse) : Bytes :=
  if rsp.reason = [] then statusToString rsp.status else rsp.reason

def received (rsp : HttpResponse) : HttpResponse :=
  { rsp with
    close := true
    reason := rsp.writtenReason
    headers := receivedHeaders rsp.headers rsp.close rsp.body }

def entries (rsp : HttpResponse) : HeaderMap :=
  rsp.headers.erase (ascii "connection".toList) ++ connectionEntry rsp.close :: lengthEntry rsp.body

def wireHead (rsp : HttpResponse) : Bytes :=
  rsp.statusLine ++ crlf ++ (rsp.entries.map headerLine).flatMap (fun l => l ++ crlf) ++ crlf

theorem dump_eq (rsp : HttpResponse) : rsp.dump = rsp.wireHead ++ rsp.body := by
  rw [dump, dumpLines_eq, lines, HeaderMap.lines_eq, connectionLine_eq, wireHead, entries]
  simp only [List.map_append, List.map_cons, List.flatMap_append, List.flatMap_cons,
    List.append_assoc, List.cons_append, List.nil_append]

theorem setAll_entries {rsp : HttpResponse} (hordered : rsp.headers.Ordered) :
    HeaderMap.setAll [] rsp.entries = rsp.received.headers := by
  have herase : HeaderMap.Ordered (rsp.headers.erase (ascii "connection".toList)) :=
    List.Pairwise.filter _ hordered
  have hbuild : HeaderMap.setAll [] (rsp.headers.erase (ascii "connection".toList)) =
      rsp.headers.erase (ascii "connection".toList) := HeaderMap.setAll_of_ordered (m := []) herase
  have happend : HeaderMap.setAll [] rsp.entries =
      (HeaderMap.setAll [] (rsp.headers.erase (ascii "connection".toList))).setAll
        (connectionEntry rsp.close :: lengthEntry rsp.body) := List.foldl_append ..
  rw [happend, hbuild]
  rfl

theorem isHeader_connection (close : Bool) :
    HttpResponseParser.isHeader (connectionEntry close) = true := by
  cases close <;> decide

theorem isblank_of_digit {b : UInt8} (h : 48 ≤ b) : HttpResponseParser.isblank b = false := by
  rw [HttpResponseParser.isblank, decide_eq_false_iff_not]
  rintro (rfl | ⟨-, hle⟩ | rfl)
  · exact absurd h (by decide)
  · exact absurd (UInt8.le_trans h hle) (by decide)
  · exact absurd h (by decide)

theorem isHeader_length {body : Bytes} {e : Bytes × Bytes} (he : e ∈ lengthEntry body) :
    HttpResponseParser.isHeader e = true := by
  unfold lengthEntry at he
  split_ifs at he with hbody
  · cases he
  · rw [List.mem_singleton] at he
    subst he
    have hlow : ∀ b ∈ decimal body.length, 48 ≤ b := fun b hb => (digit_of_mem_decimal hb).1
    have hplain : (decimal body.length).all (fun b => b ≠ 10 && b ≠ 13) = true := by
      rw [List.all_eq_true]
      intro b hb
      rw [Bool.and_eq_true, decide_eq_true_eq, decide_eq_true_eq]
      constructor
      · rintro rfl
        exact absurd (hlow 10 hb) (by decide)
      · rintro rfl
        exact absurd (hlow 13 hb) (by decide)
    have hfirst : (decimal body.length).head?.all (fun b => !HttpResponseParser.isblank b) = true := by
      cases hhead : (decimal body.length).head? with
      | none => rfl
      | some b =>
        rw [Option.all_some, isblank_of_digit (hlow b (List.mem_of_head? hhead))]
        rfl
    have hname : ascii "content-length".toList ≠ [] ∧ (ascii "content-length".toList).all istoken = true := by
      decide
    refine decide_eq_true ⟨hname.1, hname.2, hplain, hfirst, fun _ => decimal_ne_nil _, ?_⟩
    rintro ⟨htransfer, -⟩
    exact absurd htransfer (show ¬ (ascii "content-length".toList).map tolower =
      HttpResponseParser.transferWord by decide)

section

variable {rsp : HttpResponse}

open HttpResponseParser in
/-- The text in front of the empty line leads to the start of a line, with the data of the response. -/
theorem Sendable.takes_lines (h : rsp.Sendable) {buffer post : Bytes}
    (hbuffer : buffer = rsp.statusLine ++ crlf ++
      (rsp.entries.map headerLine).flatMap (fun l => l ++ crlf) ++ post) :
    ∃ t y, Takes buffer 0 1 {} (rsp.statusLine ++ crlf ++
        (rsp.entries.map headerLine).flatMap fun l => l ++ crlf) t y ∧ IsLineStart t ∧
      y.data = { rsp.received with body := [] } ∧ y.error = 0 ∧ y.chunked = false := by
  obtain ⟨n, hn⟩ := Int.eq_ofNat_of_zero_le h.status.1
  have hlt : n < 2 ^ 31 := by
    have hstatus := h.status.2
    omega
  let block := (rsp.entries.map headerLine).flatMap fun l => l ++ crlf
  have hwritten : (rsp.status % 2 ^ 32).toNat = n := by omega
  have hline : rsp.statusLine =
      versionText rsp.version ++ [32] ++ (decimal n ++ [32] ++ rsp.writtenReason) := by
    rw [statusLine, hwritten, writtenReason]
    simp [ascii]
  have hreason : rsp.writtenReason ≠ [] ∧
      rsp.writtenReason.all (fun b => b ≠ 10 && b ≠ 13) = true := by
    unfold writtenReason
    split_ifs with hnil
    · exact reason_statusToString rsp.status
    · exact ⟨hnil, h.reason⟩
  -- each piece of the text is read by a lemma that wants the buffer cut where the piece begins
  have hsplit : buffer = [] ++ versionText rsp.version ++
      32 :: (decimal n ++ 32 :: (rsp.writtenReason ++ crlf ++ (block ++ post))) := by
    rw [hbuffer, hline]
    simp [block]
  have hsplit' : buffer = versionText rsp.version ++ [32] ++ decimal n ++
      32 :: (rsp.writtenReason ++ crlf ++ (block ++ post)) := by
    rw [hsplit]
    simp
  have hsplit'' : buffer = versionText rsp.version ++ [32] ++ (decimal n ++ [32]) ++ rsp.writtenReason ++
      (crlf ++ (block ++ post)) := by
    rw [hsplit']
    simp
  have hsplit''' : buffer = versionText rsp.version ++ [32] ++ (decimal n ++ [32]) ++
      (rsp.writtenReason ++ crlf) ++ (rsp.entries.map headerLine).flatMap (fun l => l ++ crlf) ++ post := by
    rw [hsplit'']
    simp only [block, List.append_assoc]
  have hversion : Takes buffer 0 1 {} (versionText rsp.version ++ [32]) 16
      { mark := 0, data := { version := rsp.version } } := takes_version h.version hsplit
  have hstatus : Takes buffer (versionText rsp.version ++ [32]).length 16
      { mark := 0, data := { version := rsp.version } } (decimal n ++ [32]) 18
      { mark := (versionText rsp.version ++ [32]).length
        data := { version := rsp.version, status := n } } := takes_status hlt hsplit'
  have hphrase : Takes buffer (versionText rsp.version ++ [32] ++ (decimal n ++ [32])).length 18
      { mark := (versionText rsp.version ++ [32]).length
        data := { version := rsp.version, status := n } } (rsp.writtenReason ++ crlf) 20
      { mark := (versionText rsp.version ++ [32] ++ (decimal n ++ [32])).length
        data := { version := rsp.version, status := n, reason := rsp.writtenReason } } :=
    takes_reason hreason.1 hreason.2 hsplit''
  -- `connection` and the length are headers like the others
  have hheaders : ∀ e ∈ rsp.entries, isHeader e = true := by
    intro e he
    rw [entries, List.mem_append, List.mem_cons] at he
    rcases he with he | rfl | he
    · exact h.headers e he
    · exact isHeader_connection rsp.close
    · exact isHeader_length he
  have hstart : IsLineStart 20 := .inl rfl
  obtain ⟨t, y, hlines, ht, hdata, herror, hchunked⟩ := takes_headers
    { mark := (versionText rsp.version ++ [32] ++ (decimal n ++ [32])).length
      data := { version := rsp.version, status := n, reason := rsp.writtenReason } }
    hstart hsplit''' hheaders
  refine ⟨t, y, ?_, ht, ?_, herror, hchunked⟩
  · have hpieces : rsp.statusLine ++ crlf ++ block =
        versionText rsp.version ++ [32] ++ (decimal n ++ [32] ++ ((rsp.writtenReason ++ crlf) ++ block)) := by
      rw [hline]
      simp only [List.append_assoc]
    rw [@List.length_append _ (versionText rsp.version ++ [32])] at hphrase
    rw [List.length_append, @List.length_append _ (versionText rsp.version ++ [32])] at hlines
    rw [hpieces]
    refine hversion.append ?_
    rw [Nat.zero_add]
    exact hstatus.append (hphrase.append hlines)
  · have hset : HeaderMap.setAll [] rsp.entries = rsp.received.headers := setAll_entries h.ordered
    rw [hdata]
    simp only [hset]
    rw [← hn]
    rfl

open HttpResponseParser in
/-- The text of a response has a head of which the parser makes what `received` says. -/
theorem Sendable.responseHead (h : rsp.Sendable) :
    ∃ r : ResponseHead fieldsNext, r.head = rsp.wireHead ∧
      r.parser.data = { rsp.received with body := [] } ∧ r.parser.chunked = false := by
  have hwire : rsp.wireHead = rsp.statusLine ++ crlf ++
      (rsp.entries.map headerLine).flatMap (fun l => l ++ crlf) ++ crlf := rfl
  obtain ⟨t, y, hy, ht, hdata, herror, hchunked⟩ := h.takes_lines hwire
  -- the empty line
  have hcr : Takes rsp.wireHead (0 + (rsp.statusLine ++ crlf ++
      (rsp.entries.map headerLine).flatMap fun l => l ++ crlf).length) t y [13] 3 y := by
    rcases ht with rfl | rfl
    · exact .quiet rfl (unfinished (by omega)) (by decide)
    · exact .byte [.writeConnectionClose] rfl rfl rfl (unfinished (by omega)) (by decide)
  have hall := hy.append hcr
  have hlf : (httpclientParser fieldsNext).next 3 10 = ([.done], 120) := rfl
  obtain ⟨haccepted, hclean⟩ := hall.accepted hlf rfl ⟨rfl, rfl⟩ (by decide)
  have hfollow := hall.followed (z := y) hlf rfl
  have hhead : (rsp.statusLine ++ crlf ++ (rsp.entries.map headerLine).flatMap fun l => l ++ crlf) ++
      [13] ++ [10] = rsp.wireHead := by
    rw [wireHead, List.append_assoc]
    rfl
  rw [hhead] at haccepted hclean hfollow
  refine ⟨{ head := rsp.wireHead, parser := y, accepted := haccepted, clean := hclean
            parsed := hfollow, valid := herror, version := ?_ }, rfl, hdata, hchunked⟩
  have hversion : (versionText rsp.version).head? = some 72 := by
    rcases h.version with heq | heq <;> rw [heq] <;> decide
  rw [wireHead, statusLine]
  simp only [List.append_assoc]
  rw [List.head?_append, hversion]
  rfl

/-- What `recvResponse` makes of the text in some pieces, when the first of them brings what stands in front of
the body. -/
theorem Sendable.recvResponse (h : rsp.Sendable) {size : Nat} {d : Bytes} {pieces : List Bytes}
    (later : List ReadResult) (hread : Readable (d :: pieces))
    (hwire : (d :: pieces).flatten = rsp.dump) (hhead : rsp.wireHead.length ≤ d.length)
    (hsize : d.length ≤ size) :
    HttpConnection.recvResponse (httpclientParser HttpResponseParser.fieldsNext) size
        ((d :: pieces).map ReadResult.data ++ later) =
      some (if Counts (rsp.dump.length - d.length) then .ret rsp.received later else .null true) := by
  obtain ⟨r, hr, hdata, hchunked⟩ := h.responseHead
  have hlength : r.parser.data.headers.contentLength.toInt64.toInt = rsp.body.length := by
    rw [hdata]
    exact contentLength_receivedHeaders rsp.close h.noLength h.body
  rw [r.recvResponse_pieces HttpResponseParser.headerFields_fieldsNext hchunked hlength later hread
    (by rw [hwire, dump_eq, hr]) (by rw [hr]; exact hhead) hsize, hr, ← dump_eq, hdata]
  rfl

/-- A response that is sent is received as it was, whatever reads bring it, when the first of them
brings what stands in front of the body and none brings what is not part of it; the size of the rest
must fit into the `int` that `readFixSize` returns. -/
theorem recvResponse_dump (h : rsp.Sendable) {size : Nat} {d : Bytes} {pieces : List Bytes}
    (later : List ReadResult) (hread : Readable (d :: pieces))
    (hwire : (d :: pieces).flatten = rsp.dump) (hhead : rsp.dump.length ≤ d.length + rsp.body.length)
    (hsize : d.length ≤ size) (hcounts : Counts (rsp.dump.length - d.length)) :
    HttpConnection.recvResponse (httpclientParser HttpResponseParser.fieldsNext) size
        ((d :: pieces).map ReadResult.data ++ later) = some (.ret rsp.received later) := by
  have hfirst : rsp.wireHead.length ≤ d.length := by
    rw [dump_eq, List.length_append] at hhead
    omega
  rw [h.recvResponse later hread hwire hfirst hsize, if_pos hcounts]

theorem recvResponse_dump_created :
    let rsp : HttpResponse := { status := 201, close := false, body := ascii "hello".toList
                                headers := [(ascii "Server".toList, ascii "x y".toList)] }
    HttpConnection.recvResponse (httpclientParser HttpResponseParser.fieldsNext) 4096
      ([rsp.dump.take 80, rsp.dump.drop 80].map ReadResult.data ++ [.fail 0]) =
        some (.ret rsp.received [.fail 0]) := by
  intro rsp
  have hsend : rsp.Sendable := by decide +kernel
  have hread : Readable [rsp.dump.take 80, rsp.dump.drop 80] := by
    unfold Readable
    decide +kernel
  exact recvResponse_dump hsend [.fail 0] hread (by decide +kernel) (by decide +kernel)
    (by decide +kernel) (by decide +kernel)

end

end HttpResponse

end Azure
