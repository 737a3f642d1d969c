import Azure.Http.Chunked
import Azure.Http.KeepAlive

/-!
# Messages that have come in part

A call that has got a head, but not all of the body behind it, waits for the next read.
-/

namespace Azure

open Reasoning

section Bodies

variable {n done : Nat} {pieces : List Bytes}

theorem exactTransfer_waits (h : done + pieces.flatten.length < n) (hread : Readable pieces) :
    Stream.exactTransfer some n done ((pieces.map ReadResult.data).map ReadResult.result) =
      (bodyCalls n done pieces ++
        [{ offset := some (done + pieces.flatten.length)
           requested := n - (done + pieces.flatten.length) }], .waiting) := by
  induction pieces generalizing done with
  | nil =>
    rw [List.flatten_nil, List.length_nil] at h
    have hdone : done ≠ n := by omega
    simp [Stream.exactTransfer, hdone, bodyCalls]
  | cons d ds ih =>
    have hd := List.length_pos_of_ne_nil (hread d List.mem_cons_self).1
    rw [List.flatten_cons, List.length_append] at h
    have hlt : done + d.length + ds.flatten.length < n := by omega
    have hrest := ih hlt (hread.suffix (List.suffix_cons d ds))
    simp only [List.map_cons, Stream.exactTransfer, ReadResult.result]
    rw [if_neg (by omega), if_neg (by omega), Int.toNat_natCast, hrest, List.flatten_cons,
      List.length_append, Nat.add_assoc]
    rfl

theorem answers_waits {left : Nat} (h : pieces.flatten.length ≤ left) (hread : Readable pieces) :
    Stream.Answers left ((pieces.map ReadResult.data).map ReadResult.result) := by
  induction pieces generalizing left with
  | nil => trivial
  | cons d ds ih =>
    obtain ⟨-, hint⟩ := hread d List.mem_cons_self
    rw [List.flatten_cons, List.length_append] at h
    right
    simp only [ReadResult.result]
    refine ⟨by omega, by omega, by omega, fun _ => ?_⟩
    exact ih (by omega) (hread.suffix (List.suffix_cons d ds))

theorem answered_waits (more : List StreamCall) (h : done + pieces.flatten.length ≤ n)
    (hread : Readable pieces) :
    ((bodyCalls n done pieces ++ more).zip (pieces.map ReadResult.data)).all
      (fun p => p.2.answers p.1.requested) = true := by
  induction pieces generalizing done with
  | nil => simp
  | cons d ds ih =>
    obtain ⟨hne, hint⟩ := hread d List.mem_cons_self
    rw [List.flatten_cons, List.length_append] at h
    have hle : done + d.length + ds.flatten.length ≤ n := by omega
    have hrest := ih hle (hread.suffix (List.suffix_cons d ds))
    rw [bodyCalls, List.map_cons, List.cons_append, List.zip_cons_cons, List.all_cons, hrest]
    simp only [ReadResult.answers, Bool.and_true, Bool.and_eq_true, decide_eq_true_eq]
    exact ⟨⟨hne, by omega⟩, hint⟩

theorem readFixSize_waits (h : pieces.flatten.length < n) (hread : Readable pieces)
    (hn : n < 2 ^ 64) :
    SocketStream.readFixSize (UInt64.ofNat n) (pieces.map ReadResult.data) = some .wait := by
  have hnat : (UInt64.ofNat n).toNat = n := UInt64.toNat_ofNat_of_lt hn
  have hlt : 0 + pieces.flatten.length < n := by omega
  have hexact := exactTransfer_waits hlt hread
  have htransfer := Stream.fixSize_eq some hn (Nat.zero_le n) (answers_waits (Nat.le_of_lt h) hread)
    (by rw [hexact]; simp)
  rw [hexact, Nat.sub_zero] at htransfer
  have hanswered := answered_waits [{ offset := some (0 + pieces.flatten.length)
                                      requested := n - (0 + pieces.flatten.length) }]
    (Nat.le_of_lt hlt) hread
  simp only [SocketStream.readFixSize, Stream.readFixSize, hnat, htransfer, Stream.Ending.code,
    hanswered, Bool.not_true, Bool.false_eq_true, if_false]

theorem recvBody_waits {left body : Bytes} (h : (left ++ pieces.flatten).length < body.length)
    (hread : Readable pieces) (hbody : body.length < 2 ^ 64) :
    recvBody body.length left (pieces.map ReadResult.data) = some .wait := by
  rw [List.length_append] at h
  have hrest : ((body.length : Int) - left.length).toNat = body.length - left.length := by omega
  unfold recvBody
  rw [if_neg (by omega), if_neg (by omega), hrest, readFixSize_waits (by omega) hread (by omega)]
  rfl

theorem Readable.answers {d : Bytes} {size : Nat} (h : Readable (d :: pieces)) (hsize : d.length ≤ size) :
    (ReadResult.data d).answers size = true := by
  obtain ⟨hne, hint⟩ := h d List.mem_cons_self
  simp only [ReadResult.answers, Bool.and_eq_true, decide_eq_true_eq]
  exact ⟨⟨hne, hsize⟩, hint⟩

end Bodies

/-! ## Requests -/

section Requests

variable {uri : Nat → UInt8 → List RequestAction × Nat} {size : Nat}

/-- The read that brings the head leads to the body. -/
theorem recvRequest_head (huri : RequestUri uri) (r : WireRequest uri) {left : Bytes}
    (reads : List ReadResult)
    (hread : (ReadResult.data (r.head ++ left)).answers size = true) :
    HttpSession.recvRequest (httpParser uri) size (.data (r.head ++ left) :: reads) =
      (recvBody r.body.length left reads).map (Recv.map (HttpSession.finish r.parser.data)) := by
  have hpos := List.length_pos_of_ne_nil r.head_ne_nil
  have hfits := hread
  simp only [ReadResult.answers, Bool.and_eq_true, decide_eq_true_eq, List.length_append] at hfits
  have hspace : left.length ≠ size := by omega
  obtain ⟨x, hturn, hdata⟩ := r.turn_head huri size left hspace
  have hloop : (HttpSession.requestHead (httpParser uri) size).recvHead {} []
      (.data (r.head ++ left) :: reads) = some (.ret (x, left) reads) := by
    rw [HeadLoop.recvHead, List.nil_append, hturn, List.length_nil]
    have hanswers : (ReadResult.data (r.head ++ left)).answers
        ((HttpSession.requestHead (httpParser uri) size).size - 0) = true := hread
    rw [hanswers]
    rfl
  rw [HttpSession.recvRequest, hloop, Option.bind_some, Recv.bind_ret]
  dsimp only
  rw [hdata, r.length]

/-- Some of the request has not come yet. -/
theorem recvRequest_waits (huri : RequestUri uri) (r : WireRequest uri) {d more : Bytes}
    {pieces : List Bytes} (hread : Readable (d :: pieces))
    (hwire : (d :: pieces).flatten ++ more = r.bytes) (hmore : more ≠ [])
    (hhead : r.head.length ≤ d.length) (hsize : d.length ≤ size) :
    HttpSession.recvRequest (httpParser uri) size ((d :: pieces).map ReadResult.data) = some .wait := by
  rw [List.flatten_cons, List.append_assoc] at hwire
  obtain ⟨left, rfl⟩ := List.prefix_of_prefix_length_le ⟨r.body, rfl⟩ ⟨_, hwire⟩ hhead
  have hbody : left ++ (pieces.flatten ++ more) = r.body := by
    rw [WireRequest.bytes, List.append_assoc] at hwire
    exact List.append_cancel_left hwire
  have hlt : (left ++ pieces.flatten).length < r.body.length := by
    have hpos := List.length_pos_of_ne_nil hmore
    have hall := congrArg List.length hbody
    simp only [List.length_append] at hall ⊢
    omega
  rw [List.map_cons, recvRequest_head huri r _ (hread.answers hsize),
    recvBody_waits hlt (hread.suffix (List.suffix_cons _ pieces)) r.length_body_lt]
  rfl

end Requests

/-! ## Responses -/

namespace ResponseHead

variable {fields : Nat → UInt8 → List ResponseAction × Nat} {body : Bytes} {size : Nat}

/-- The read that brings the head leads to the body. -/
theorem recvResponse_head (hfields : HeaderFields fields) (r : ResponseHead fields)
    (hchunked : r.parser.chunked = false)
    (hlength : r.parser.data.headers.contentLength.toInt64.toInt = body.length) {left : Bytes}
    (reads : List ReadResult) (hread : (ReadResult.data (r.head ++ left)).answers size = true) :
    HttpConnection.recvResponse (httpclientParser fields) size (.data (r.head ++ left) :: reads) =
      (recvBody body.length left reads).map
        (Recv.map fun body => { r.parser.data with body }) := by
  have hpos := List.length_pos_of_ne_nil r.head_ne_nil
  have hfits := hread
  simp only [ReadResult.answers, Bool.and_eq_true, decide_eq_true_eq, List.length_append] at hfits
  have hspace : left.length ≠ size := by omega
  obtain ⟨x, hturn, hdata, -, hx⟩ := r.turn_head hfields hspace
  have hloop : (HttpConnection.responseHead (httpclientParser fields) size false).recvHead {} []
      (.data (r.head ++ left) :: reads) = some (.ret (x, left) reads) := by
    rw [HeadLoop.recvHead, List.nil_append, hturn, List.length_nil]
    have hanswers : (ReadResult.data (r.head ++ left)).answers
        ((HttpConnection.responseHead (httpclientParser fields) size false).size - 0) = true := hread
    rw [hanswers]
    rfl
  rw [HttpConnection.recvResponse, hloop, Option.bind_some, Recv.bind_ret]
  dsimp only
  rw [hx, hchunked, if_neg Bool.false_ne_true, hdata, hlength]

theorem length_body_lt (r : ResponseHead fields)
    (hlength : r.parser.data.headers.contentLength.toInt64.toInt = body.length) :
    body.length < 2 ^ 64 := by
  have hlt := Int64.toInt_lt r.parser.data.headers.contentLength.toInt64
  rw [hlength] at hlt
  omega

/-- What stands behind the head in a read that brings it. -/
theorem split_head (r : ResponseHead fields) {d rest : Bytes} (hwire : d ++ rest = r.head ++ body)
    (hhead : r.head.length ≤ d.length) : ∃ left, d = r.head ++ left ∧ left ++ rest = body := by
  obtain ⟨left, rfl⟩ := List.prefix_of_prefix_length_le ⟨body, rfl⟩ ⟨rest, hwire⟩ hhead
  rw [List.append_assoc] at hwire
  exact ⟨left, rfl, List.append_cancel_left hwire⟩

/-- The reads from the one that brings the head on bring the response and nothing else. -/
theorem recvResponse_pieces (hfields : HeaderFields fields) (r : ResponseHead fields)
    (hchunked : r.parser.chunked = false)
    (hlength : r.parser.data.headers.contentLength.toInt64.toInt = body.length) {d : Bytes}
    {pieces : List Bytes} (later : List ReadResult) (hread : Readable (d :: pieces))
    (hwire : (d :: pieces).flatten = r.head ++ body) (hhead : r.head.length ≤ d.length)
    (hsize : d.length ≤ size) :
    HttpConnection.recvResponse (httpclientParser fields) size
        ((d :: pieces).map ReadResult.data ++ later) =
      some (if Counts ((r.head ++ body).length - d.length) then
        .ret { r.parser.data with body } later else .null true) := by
  obtain ⟨left, rfl, hbody⟩ := r.split_head hwire hhead
  have hpart : (r.head ++ body).length - (r.head ++ left).length = body.length - left.length := by
    rw [List.length_append, List.length_append]
    omega
  rw [List.map_cons, List.cons_append,
    r.recvResponse_head hfields hchunked hlength _ (hread.answers hsize),
    recvBody_pieces later hbody (hread.suffix (List.suffix_cons _ pieces)) (r.length_body_lt hlength),
    hpart]
  split <;> rfl

/-- Some of the response has not come yet. -/
theorem recvResponse_waits (hfields : HeaderFields fields) (r : ResponseHead fields)
    (hchunked : r.parser.chunked = false)
    (hlength : r.parser.data.headers.contentLength.toInt64.toInt = body.length) {d more : Bytes}
    {pieces : List Bytes} (hread : Readable (d :: pieces))
    (hwire : (d :: pieces).flatten ++ more = r.head ++ body) (hmore : more ≠ [])
    (hhead : r.head.length ≤ d.length) (hsize : d.length ≤ size) :
    HttpConnection.recvResponse (httpclientParser fields) size ((d :: pieces).map ReadResult.data) =
      some .wait := by
  rw [List.flatten_cons, List.append_assoc] at hwire
  obtain ⟨left, rfl, hbody⟩ := r.split_head hwire hhead
  have hlt : (left ++ pieces.flatten).length < body.length := by
    have hpos := List.length_pos_of_ne_nil hmore
    have hall := congrArg List.length hbody
    simp only [List.length_append] at hall ⊢
    omega
  rw [List.map_cons, r.recvResponse_head hfields hchunked hlength _ (hread.answers hsize),
    recvBody_waits hlt (hread.suffix (List.suffix_cons _ pieces)) (r.length_body_lt hlength)]
  rfl

end ResponseHead

end Azure
