import Azure.Http.Receive
import Azure.Http.Tokens
import Azure.Reasoning.Pieces

/-!
# Requests one after the other

The buffer of `recvRequest` lives as long as the call.  What a read has brought behind the body of a
request is lost with it.
-/

namespace Azure

open Reasoning

/-! ## Bodies -/

section Bodies

def bodyCalls (n : Nat) : Nat → List Bytes → List StreamCall
  | _, [] => []
  | done, d :: ds => { offset := some done, requested := n - done } :: bodyCalls n (done + d.length) ds

theorem length_bodyCalls (n done : Nat) (pieces : List Bytes) :
    (bodyCalls n done pieces).length = pieces.length := by
  induction pieces generalizing done with
  | nil => rfl
  | cons d ds ih => simp only [bodyCalls, List.length_cons, ih]

variable {n : Nat} {pieces : List Bytes} {later : List ReadResult}

/-- What successive calls of `read` can return. -/
def Readable (pieces : List Bytes) : Prop := ∀ d ∈ pieces, d ≠ [] ∧ d.length < 2 ^ 31

theorem Readable.suffix {b : List Bytes} (h : Readable pieces) (hb : b <:+ pieces) : Readable b :=
  fun d hd => h d (hb.subset hd)

theorem Readable.ne_nil (h : Readable pieces) : ∀ d ∈ pieces, d ≠ [] := fun d hd => (h d hd).1

theorem exactTransfer_pieces (later : List ReadResult) {done : Nat} (h : done + pieces.flatten.length = n)
    (hread : Readable pieces) :
    Stream.exactTransfer some n done ((pieces.map ReadResult.data ++ later).map ReadResult.result) =
      (bodyCalls n done pieces, .complete) := by
  induction pieces generalizing done with
  | nil =>
    have hdone : done = n := by simpa using h
    cases later <;> simp [Stream.exactTransfer, hdone, bodyCalls]
  | cons d ds ih =>
    have hd := List.length_pos_of_ne_nil (hread d List.mem_cons_self).1
    rw [List.flatten_cons, List.length_append] at h
    have hrest := @ih (done + d.length) (by omega)
      (hread.suffix (List.suffix_cons d ds))
    simp only [List.map_cons, List.cons_append, Stream.exactTransfer, ReadResult.result]
    rw [if_neg (by omega), if_neg (by omega), Int.toNat_natCast, hrest]
    rfl

theorem answers_pieces (later : List ReadResult) {left : Nat} (h : pieces.flatten.length = left) (hread : Readable pieces) :
    Stream.Answers left ((pieces.map ReadResult.data ++ later).map ReadResult.result) := by
  induction pieces generalizing left with
  | nil =>
    have hleft : left = 0 := by simpa using h.symm
    cases later with
    | nil => trivial
    | cons r rs => exact Or.inl hleft
  | cons d ds ih =>
    obtain ⟨-, hint⟩ := hread d List.mem_cons_self
    rw [List.flatten_cons, List.length_append] at h
    right
    simp only [ReadResult.result]
    refine ⟨by omega, by omega, by omega, fun _ => ?_⟩
    exact ih (by omega) (hread.suffix (List.suffix_cons d ds))

theorem answered_pieces (later : List ReadResult) {done : Nat} (h : done + pieces.flatten.length = n)
    (hread : Readable pieces) :
    ((bodyCalls n done pieces).zip (pieces.map ReadResult.data ++ later)).all
      (fun p => p.2.answers p.1.requested) = true := by
  induction pieces generalizing done with
  | nil => rfl
  | cons d ds ih =>
    obtain ⟨hne, hint⟩ := hread d List.mem_cons_self
    rw [List.flatten_cons, List.length_append] at h
    have hrest := @ih (done + d.length) (by omega) (hread.suffix (List.suffix_cons d ds))
    rw [bodyCalls, List.map_cons, List.cons_append, List.zip_cons_cons, List.all_cons, hrest]
    simp only [ReadResult.answers, Bool.and_true, Bool.and_eq_true, decide_eq_true_eq]
    exact ⟨⟨hne, by omega⟩, hint⟩

/-- The pieces stand in the buffer one behind the other. -/
theorem store_pieces (n : Nat) (pieces : List Bytes) (later : List ReadResult) (got : Bytes) :
    SocketStream.store (got ++ List.replicate pieces.flatten.length 0)
      (bodyCalls n got.length pieces) (pieces.map ReadResult.data ++ later) = some (got ++ pieces.flatten) := by
  induction pieces generalizing got with
  | nil => simp [bodyCalls, SocketStream.store]
  | cons d ds ih =>
    have hover : overwrite (got ++ List.replicate (d :: ds).flatten.length 0) got.length d =
        got ++ d ++ List.replicate ds.flatten.length 0 := by
      have hinside := overwrite_append_right got (List.replicate (d :: ds).flatten.length 0) d 0
      rw [Nat.add_zero] at hinside
      rw [hinside, overwrite, List.flatten_cons, List.length_append]
      simp
    have hrest := ih (got ++ d)
    rw [List.length_append] at hrest
    simp only [bodyCalls, List.map_cons, List.cons_append, SocketStream.store, Option.getD_some,
      ReadResult.bytes, hover, hrest]
    rw [if_pos (by simp), List.flatten_cons, List.append_assoc]

/-- `readFixSize` takes these pieces, and its result is the length as an `int`. -/
theorem readFixSize_pieces (h : pieces.flatten.length = n) (hread : Readable pieces)
    (hn : n < 2 ^ 64) :
    SocketStream.readFixSize (UInt64.ofNat n) (pieces.map ReadResult.data ++ later) =
      some (if intOfSize n ≤ 0 then .null true else .ret pieces.flatten later) := by
  have hnat : (UInt64.ofNat n).toNat = n := UInt64.toNat_ofNat_of_lt hn
  have hexact := @exactTransfer_pieces n pieces later 0 (by rw [Nat.zero_add, h]) hread
  have htransfer := Stream.fixSize_eq some hn (Nat.zero_le n)
    (answers_pieces later h hread) (by rw [hexact]; simp)
  rw [hexact, Nat.sub_zero] at htransfer
  have hanswered := @answered_pieces n pieces later 0 (by rw [Nat.zero_add, h]) hread
  have hstore := store_pieces n pieces later []
  rw [List.nil_append, List.nil_append, List.length_nil, h] at hstore
  simp only [SocketStream.readFixSize, Stream.readFixSize, hnat, htransfer, Stream.Ending.code,
    hanswered, hstore, length_bodyCalls, Bool.not_true, Bool.false_eq_true, if_false]
  split
  · rfl
  · rw [List.drop_left' (List.length_map ..)]

/-- The result of `readFixSize` for the last `n` bytes of a body is positive, if there are any. -/
def Counts (n : Nat) : Prop := n = 0 ∨ 0 < intOfSize n

instance (n : Nat) : Decidable (Counts n) := inferInstanceAs (Decidable (_ ∨ _))

theorem recvBody_pieces (later : List ReadResult) {left body : Bytes} (h : left ++ pieces.flatten = body)
    (hread : Readable pieces) (hbody : body.length < 2 ^ 64) :
    recvBody body.length left (pieces.map ReadResult.data ++ later) =
      some (if Counts (body.length - left.length) then .ret body later else .null true) := by
  have hlen : left.length + pieces.flatten.length = body.length := by rw [← h, List.length_append]
  have hnothing : body.length - left.length = 0 → pieces = [] := fun hzero =>
    eq_nil_of_flatten hread.ne_nil (List.eq_nil_of_length_eq_zero (by omega))
  unfold recvBody
  by_cases hempty : (body.length : Int) ≤ 0
  · have hnil : body = [] := List.eq_nil_of_length_eq_zero (by omega)
    have hpieces := hnothing (by omega)
    have hcounts : Counts (body.length - left.length) := Or.inl (by omega)
    rw [if_pos hempty, if_pos hcounts, hnil, hpieces]
    rfl
  rw [if_neg hempty]
  -- the whole body came with the head, or the rest is read by `readFixSize`
  by_cases hwhole : (body.length : Int) ≤ left.length
  · have hpieces := hnothing (by omega)
    have hleft : left = body := by simpa [hpieces] using h
    have hcounts : Counts (body.length - left.length) := Or.inl (by omega)
    rw [if_pos hwhole, if_pos hcounts, hpieces, hleft, Int.toNat_natCast, List.take_length]
    rfl
  · have hrest : ((body.length : Int) - left.length).toNat = pieces.flatten.length := by omega
    have hpart : body.length - left.length = pieces.flatten.length := by omega
    rw [if_neg hwhole, hrest, readFixSize_pieces rfl hread (by omega), hpart]
    by_cases hpositive : intOfSize pieces.flatten.length ≤ 0
    · have hcounts : ¬ Counts pieces.flatten.length := by
        rintro (hzero | hpos)
        · omega
        · exact absurd hpositive (Int.not_le.mpr hpos)
      rw [if_pos hpositive, if_neg hcounts]
      rfl
    · have hcounts : Counts pieces.flatten.length := Or.inr (Int.not_le.mp hpositive)
      rw [if_neg hpositive, if_pos hcounts, ← h]
      rfl

end Bodies

/-! ## Requests on the wire -/

section Requests

variable {uri : Nat → UInt8 → List RequestAction × Nat}

/-- A well-formed head of a request: the machine accepts it, each callback gets a token of it, and the
request line has a version, which is scanned from state 4 on. -/
structure RequestHead (uri : Nat → UInt8 → List RequestAction × Nat) where
  head : Bytes
  parser : HttpRequestParser
  accepted : (httpParser uri).accepts 1 head = true
  clean : (httpParser uri).clean RequestAction.registers [] 1 head = true
  parsed : (httpParser uri).follow (HttpRequestParser.act head) 0 1 {} head = some parser
  valid : parser.error = 0
  version : ∃ u v, head = u ++ v ∧ (httpParser uri).run 1 u = 4

namespace RequestHead

theorem head_ne_nil (r : RequestHead uri) : r.head ≠ [] := by
  intro hnil
  have haccepted := r.accepted
  rw [hnil] at haccepted
  cases haccepted

/-- The head is parsed as it stands, whatever has come behind it. -/
theorem turn_head (huri : RequestUri uri) (r : RequestHead uri) (size : Nat) (left : Bytes)
    (hsize : left.length ≠ size) :
    ∃ x, (HttpSession.requestHead (httpParser uri) size).turn {} (r.head ++ left) =
      .finished x left ∧ x.data = r.parser.data := by
  obtain ⟨x, y, hx, hy, hdata, herror⟩ := HttpRequestParser.follow_agrees huri [] [] left
    (x := {}) (y := {}) rfl rfl r.clean
  rw [List.append_nil, r.parsed] at hx
  cases hx
  rw [List.nil_append, List.length_nil] at hy
  obtain ⟨hnoerror, hfinished⟩ := Scanner.run_of_accepts r.accepted
  have hscan := Scanner.scan_accepts_append (HttpRequestParser.act (r.head ++ left)) 0 {}
    r.accepted left
  refine ⟨{ y with cs := (httpParser uri).run 1 r.head }, ?_, hdata.symm⟩
  have hne : r.head ++ left ≠ [] := by simp [r.head_ne_nil]
  simp only [HeadLoop.turn, HttpSession.requestHead, HttpRequestParser.execute, if_neg hne, hscan, hy,
    Option.map_some, HttpRequestParser.hasError, HttpRequestParser.isFinished, ← herror, r.valid,
    hnoerror, hfinished, Nat.zero_add, List.drop_left, hsize]
  rfl

end RequestHead

/-- A well-formed request: the length that its head gives is that of its body. -/
structure WireRequest (uri : Nat → UInt8 → List RequestAction × Nat) extends RequestHead uri where
  body : Bytes
  length : parser.data.headers.contentLength.toInt64.toInt = body.length

namespace WireRequest

def bytes (r : WireRequest uri) : Bytes := r.head ++ r.body

def request (r : WireRequest uri) : HttpRequest := HttpSession.finish r.parser.data r.body

theorem length_body_lt (r : WireRequest uri) : r.body.length < 2 ^ 64 := by
  have hlt := Int64.toInt_lt r.parser.data.headers.contentLength.toInt64
  rw [r.length] at hlt
  omega

end WireRequest

def wire (rs : List (WireRequest uri)) : Bytes := (rs.map WireRequest.bytes).flatten

theorem wire_cons (r : WireRequest uri) (rs : List (WireRequest uri)) :
    wire (r :: rs) = r.bytes ++ wire rs := rfl

/-- The reads from the one that brings the head on bring the request and nothing else. -/
theorem recvRequest_pieces (huri : RequestUri uri) (r : WireRequest uri) {size : Nat} {d : Bytes}
    {pieces : List Bytes} (later : List ReadResult) (hread : Readable (d :: pieces))
    (hwire : (d :: pieces).flatten = r.bytes) (hhead : r.head.length ≤ d.length)
    (hsize : d.length ≤ size) :
    HttpSession.recvRequest (httpParser uri) size
        ((d :: pieces).map ReadResult.data ++ later) =
      some (if Counts (r.bytes.length - d.length) then .ret r.request later else .null true) := by
  obtain ⟨left, rfl⟩ : ∃ left, d = r.head ++ left := by
    rw [List.flatten_cons, WireRequest.bytes] at hwire
    obtain ⟨left, hleft⟩ := List.prefix_of_prefix_length_le ⟨r.body, rfl⟩ ⟨_, hwire⟩ hhead
    exact ⟨left, hleft.symm⟩
  -- the head ends within the first piece
  have hbody : left ++ pieces.flatten = r.body := by
    rw [List.flatten_cons, WireRequest.bytes, List.append_assoc] at hwire
    exact List.append_cancel_left hwire
  have hpos := List.length_pos_of_ne_nil r.head_ne_nil
  rw [List.length_append] at hsize
  obtain ⟨x, hturn, hdata⟩ := r.turn_head huri size left (by omega)
  obtain ⟨hne, hint⟩ := hread _ List.mem_cons_self
  have hanswers : (ReadResult.data (r.head ++ left)).answers (size - 0) = true := by
    simp only [ReadResult.answers, Bool.and_eq_true, decide_eq_true_eq]
    exact ⟨⟨hne, by rw [List.length_append]; omega⟩, hint⟩
  have hloop : (HttpSession.requestHead (httpParser uri) size).recvHead {} []
      (((r.head ++ left) :: pieces).map ReadResult.data ++ later) =
        some (.ret (x, left) (pieces.map ReadResult.data ++ later)) := by
    rw [List.map_cons, List.cons_append, HeadLoop.recvHead]
    simp only [HttpSession.requestHead, List.length_nil, hanswers]
    rw [List.nil_append]
    simp only [HttpSession.requestHead] at hturn
    rw [hturn]
    rfl
  have hrest := recvBody_pieces later hbody (hread.suffix (List.suffix_cons _ pieces))
    r.length_body_lt
  have hpart : r.bytes.length - (r.head ++ left).length = r.body.length - left.length := by
    rw [WireRequest.bytes, List.length_append, List.length_append]
    omega
  rw [HttpSession.recvRequest, hloop, Option.bind_some, Recv.bind_ret]
  dsimp only
  rw [hdata, r.length, hrest, hpart]
  split <;> rfl

/-! ## Runs of calls -/

/-- How requests arrive: every byte of them, and each head in one read that fits into the buffer. -/
structure Arrives (size : Nat) (rs : List (WireRequest uri)) (pieces : List Bytes) : Prop where
  bytes : pieces.flatten = wire rs
  readable : Readable pieces
  heads : ∀ r rs', (r :: rs') <:+ rs → ∀ b, b <:+ pieces →
    (r.body ++ wire rs').length < b.flatten.length → (wire (r :: rs')).length ≤ b.flatten.length
  fits : ∀ r rs', (r :: rs') <:+ rs → ∀ d b, (d :: b) <:+ pieces →
    (d :: b).flatten = wire (r :: rs') → d.length ≤ size

/-- Each request ends where a read ends, and the result of `readFixSize` for what the first read has
left of its body is not taken for an error. -/
structure EndsWithReads (rs : List (WireRequest uri)) (pieces : List Bytes) : Prop where
  ends : ∀ rs', rs' <:+ rs → ∃ b, b <:+ pieces ∧ b.flatten = wire rs'
  counts : ∀ r rs', (r :: rs') <:+ rs → ∀ d b, (d :: b) <:+ pieces →
    (d :: b).flatten = wire (r :: rs') → Counts (r.bytes.length - d.length)

/-- Successive calls return the requests in order, and each takes the bytes of its request. -/
def Served (size : Nat) : List (WireRequest uri) → List Bytes → Prop
  | [], _ => True
  | r :: rs, pieces =>
    ∃ k, HttpSession.recvRequest (httpParser uri) size (pieces.map ReadResult.data) =
        some (.ret r.request ((pieces.drop k).map ReadResult.data)) ∧
      (pieces.take k).flatten = r.bytes ∧ Served size rs (pieces.drop k)

variable {size : Nat} {r : WireRequest uri} {rs : List (WireRequest uri)} {pieces later : List Bytes}

theorem Arrives.tail (h : Arrives size (r :: rs) pieces) (hlater : later <:+ pieces)
    (hbytes : later.flatten = wire rs) : Arrives size rs later where
  bytes := hbytes
  readable := h.readable.suffix hlater
  heads r' rs' hrs b hb := h.heads r' rs' (hrs.trans (List.suffix_cons r rs)) b (hb.trans hlater)
  fits r' rs' hrs d b hb := h.fits r' rs' (hrs.trans (List.suffix_cons r rs)) d b (hb.trans hlater)

/-- The first read has the head. -/
theorem Arrives.first (h : Arrives size (r :: rs) pieces) :
    ∃ d b, pieces = d :: b ∧ r.head.length ≤ d.length ∧ d.length ≤ size := by
  have hpos := List.length_pos_of_ne_nil r.head_ne_nil
  have hlength := congrArg List.length h.bytes
  rw [wire_cons, WireRequest.bytes, List.append_assoc, List.length_append] at hlength
  cases pieces with
  | nil =>
    rw [List.flatten_nil, List.length_nil] at hlength
    omega
  | cons d b =>
    have hd := List.length_pos_of_ne_nil (h.readable d List.mem_cons_self).1
    have hhead := h.heads r rs (List.suffix_refl _) b (List.suffix_cons d b)
    simp only [wire_cons, WireRequest.bytes, List.length_append] at hhead
    simp only [List.flatten_cons, List.length_append] at hlength
    refine ⟨d, b, rfl, by omega, ?_⟩
    exact h.fits r rs (List.suffix_refl _) d b (List.suffix_refl _) h.bytes

/-- All requests in one read. -/
theorem Arrives.pipelined (hne : wire rs ≠ []) (hsize : (wire rs).length ≤ size)
    (hint : (wire rs).length < 2 ^ 31) : Arrives size rs [wire rs] where
  bytes := List.flatten_singleton
  readable d hd := by
    rw [List.mem_singleton.mp hd]
    exact ⟨hne, hint⟩
  heads r rs' hrs b hb hlt := by
    rcases List.suffix_cons_iff.mp hb with rfl | hb
    · obtain ⟨front, rfl⟩ := hrs
      rw [List.flatten_singleton]
      simp only [wire, List.map_append, List.flatten_append, List.length_append]
      exact Nat.le_add_left ..
    · rw [List.suffix_nil.mp hb] at hlt
      exact absurd hlt (Nat.not_lt_zero _)
  fits r rs' hrs d b hb _ := by
    rcases List.suffix_cons_iff.mp hb with heq | hb
    · cases heq
      exact hsize
    · cases List.suffix_nil.mp hb

/-- Each request in a read of its own. -/
theorem Arrives.separate (hfits : ∀ r ∈ rs, r.bytes.length ≤ size ∧ r.bytes.length < 2 ^ 31) :
    Arrives size rs (rs.map WireRequest.bytes) where
  bytes := rfl
  readable d hd := by
    obtain ⟨r, hr, rfl⟩ := List.mem_map.mp hd
    exact ⟨by simp [WireRequest.bytes, r.head_ne_nil], (hfits r hr).2⟩
  heads r rs' hrs b hb hlt := by
    obtain ⟨rs'', hsuffix, rfl⟩ := List.suffix_map_iff.mp hb
    change _ < (wire rs'').length at hlt
    change _ ≤ (wire rs'').length
    -- of two suffixes one is a suffix of the other
    rcases List.suffix_or_suffix_of_suffix hrs hsuffix with hmore | hless
    · obtain ⟨front, rfl⟩ := hmore
      simp only [wire, List.map_append, List.flatten_append, List.length_append]
      exact Nat.le_add_left ..
    · rcases List.suffix_cons_iff.mp hless with rfl | hless
      · exact Nat.le_refl _
      · obtain ⟨front, rfl⟩ := hless
        simp only [wire, List.map_append, List.flatten_append, List.length_append] at hlt
        omega
  fits r rs' hrs d b hb _ := by
    obtain ⟨r', hr', rfl⟩ := List.mem_map.mp (hb.subset List.mem_cons_self)
    exact (hfits r' hr').1

/-- What the first call does with the reads up to the end of the first request. -/
theorem Arrives.recvRequest (huri : RequestUri uri) (h : Arrives size (r :: rs) pieces)
    {used : List Bytes} (hpieces : pieces = used ++ later) (hused : used.flatten = r.bytes) :
    ∃ d b, pieces = d :: b ∧
      HttpSession.recvRequest (httpParser uri) size (pieces.map ReadResult.data) =
        some (if Counts (r.bytes.length - d.length) then
          .ret r.request (later.map ReadResult.data) else .null true) := by
  obtain ⟨d, b, hcons, hhead, hsize⟩ := h.first
  have hpos := List.length_pos_of_ne_nil r.head_ne_nil
  cases used with
  | nil =>
    have hlength := congrArg List.length hused
    rw [List.flatten_nil, WireRequest.bytes, List.length_nil, List.length_append] at hlength
    omega
  | cons d' us =>
    obtain ⟨rfl, rfl⟩ : d' = d ∧ us ++ later = b := by simpa [hcons] using hpieces.symm
    refine ⟨d', us ++ later, hcons, ?_⟩
    have hread : Readable (d' :: us) := fun e he =>
      h.readable e (hpieces ▸ List.mem_append_left later he)
    have hcall := recvRequest_pieces huri r (later.map ReadResult.data) hread hused hhead
      hsize
    rw [← List.map_append, ← hpieces] at hcall
    exact hcall

theorem EndsWithReads.tail (hread : Readable pieces) (h : EndsWithReads (r :: rs) pieces)
    (hlater : later <:+ pieces) (hbytes : later.flatten = wire rs) : EndsWithReads rs later where
  ends rs' hrs := by
    obtain ⟨b, hb, hflat⟩ := h.ends rs' (hrs.trans (List.suffix_cons r rs))
    refine ⟨b, suffix_of_flatten_length hread.ne_nil hb hlater ?_, hflat⟩
    obtain ⟨front, rfl⟩ := hrs
    rw [hflat, hbytes, wire, wire, List.map_append, List.flatten_append, List.length_append]
    exact Nat.le_add_left ..
  counts r' rs' hrs d b hb :=
    h.counts r' rs' (hrs.trans (List.suffix_cons r rs)) d b (hb.trans hlater)

theorem EndsWithReads.cons (hread : Readable pieces) (h : EndsWithReads rs later)
    (hlater : later <:+ pieces) (hbytes : later.flatten = wire rs)
    (hwire : pieces.flatten = wire (r :: rs))
    (hcounts : ∀ d b, pieces = d :: b → Counts (r.bytes.length - d.length)) :
    EndsWithReads (r :: rs) pieces where
  ends rs' hrs := by
    rcases List.suffix_cons_iff.mp hrs with rfl | hrs
    · exact ⟨pieces, List.suffix_refl _, hwire⟩
    · obtain ⟨b, hb, hflat⟩ := h.ends rs' hrs
      exact ⟨b, hb.trans hlater, hflat⟩
  counts r' rs' hrs d b hb hflat := by
    rcases List.suffix_cons_iff.mp hrs with heq | hrs
    · cases heq
      apply hcounts d b
      exact (eq_of_flatten_length hread.ne_nil hb (List.suffix_refl _) (by rw [hflat, hwire])).symm
    · apply h.counts r' rs' hrs d b ?_ hflat
      apply suffix_of_flatten_length hread.ne_nil hb hlater
      obtain ⟨front, rfl⟩ := hrs
      rw [hflat, hbytes]
      simp only [wire, List.map_append, List.flatten_append, List.length_append]
      exact Nat.le_add_left ..

/-- Calls of `recvRequest` return the requests one after the other, without losing a byte, if and only
if every request ends where a read ends and no body is refused. -/
theorem served_iff (huri : RequestUri uri) (h : Arrives size rs pieces) :
    Served size rs pieces ↔ EndsWithReads rs pieces := by
  induction rs generalizing pieces with
  | nil =>
    refine ⟨fun _ => ⟨?_, ?_⟩, fun _ => trivial⟩
    · intro rs' hrs
      rw [List.suffix_nil.mp hrs]
      exact ⟨[], List.nil_suffix, rfl⟩
    · intro r rs' hrs
      cases List.suffix_nil.mp hrs
  | cons r rs ih =>
    constructor
    · rintro ⟨k, hrecv, hbytes, hrest⟩
      -- the reads behind the request are the bytes of the next ones
      have hlater : (pieces.drop k).flatten = wire rs := by
        have hall := h.bytes
        rw [← List.take_append_drop k pieces, List.flatten_append, hbytes, wire_cons] at hall
        exact List.append_cancel_left hall
      have hsuffix : pieces.drop k <:+ pieces := List.drop_suffix k pieces
      have hends := (ih (h.tail hsuffix hlater)).mp hrest
      refine hends.cons h.readable hsuffix hlater h.bytes fun d b hcons => ?_
      obtain ⟨d', b', hcons', hcall⟩ :=
        h.recvRequest huri (List.take_append_drop k pieces).symm hbytes
      obtain ⟨rfl, rfl⟩ := List.cons.inj (hcons.symm.trans hcons')
      rw [hcall] at hrecv
      by_contra hcounts
      rw [if_neg hcounts] at hrecv
      cases hrecv
    · intro hends
      obtain ⟨later, hsuffix, hlater⟩ := hends.ends rs (List.suffix_cons r rs)
      obtain ⟨used, hpieces, hused⟩ := pieces_before h.bytes hsuffix hlater
      obtain ⟨d, b, hcons, hcall⟩ := h.recvRequest huri hpieces hused
      have hcounts := hends.counts r rs (List.suffix_refl _) d b (hcons ▸ List.suffix_refl _)
        (hcons ▸ h.bytes)
      have hdrop : pieces.drop used.length = later := by rw [hpieces, List.drop_left]
      refine ⟨used.length, ?_, ?_, ?_⟩
      · rw [hcall, if_pos hcounts, hdrop]
      · rw [hpieces, List.take_left, hused]
      · rw [hdrop]
        exact (ih (h.tail hsuffix hlater)).mpr (hends.tail h.readable hsuffix hlater)

end Requests

/-! ## Two requests -/

def getUri : Nat → UInt8 → List RequestAction × Nat
  | 1, b => if b = 71 then ([.mark], 2) else ([], 0)
  | 2, b => if b = 69 then ([], 175) else ([], 0)
  | 175, b => if b = 84 then ([], 176) else ([], 0)
  | 176, b => if b = 32 then ([.requestMethod], 3) else ([], 0)
  | 3, b => if b = 47 then ([.mark], 33) else ([], 0)
  | 33, b => if b = 32 then ([.requestPath, .requestUri], 4) else ([], 0)
  | _, _ => ([], 0)

theorem getUri_space : RequestUri getUri where
  space cs b h := by
    unfold getUri at h
    split at h <;> (try split_ifs at h) <;> simp_all

def getHead : Bytes :=
  ascii ['G', 'E', 'T', ' ', '/', ' ', 'H', 'T', 'T', 'P', '/', '1', '.', '1', '\r', '\n', '\r', '\n']

def getRequest : WireRequest getUri where
  head := getHead
  body := []
  parser := { mark := 6, fieldStart := 16 }
  accepted := by decide +kernel
  clean := by decide +kernel
  parsed := by decide +kernel
  valid := rfl
  version := ⟨getHead.take 6, getHead.drop 6, rfl, by decide⟩
  length := by decide +kernel

theorem served_iff_get : EndsWithReads [getRequest, getRequest] [getHead, getHead] ∧
    Served 4096 [getRequest, getRequest] [getHead, getHead] := by
  have harrives : Arrives 4096 [getRequest, getRequest] [getHead, getHead] := by
    refine @Arrives.separate getUri 4096 [getRequest, getRequest] fun r hr => ?_
    simp only [List.mem_cons, List.not_mem_nil, or_false, or_self] at hr
    rw [hr]
    decide +kernel
  have hserved : Served 4096 [getRequest, getRequest] [getHead, getHead] :=
    ⟨1, by decide +kernel, by decide, 1, by decide +kernel, by decide, trivial⟩
  exact ⟨(served_iff getUri_space harrives).mp hserved, hserved⟩

/-- The second of two requests that one read has brought is lost. -/
theorem second_request_lost :
    Arrives 4096 [getRequest, getRequest] [getHead ++ getHead] ∧
      HttpSession.recvRequest (httpParser getUri) 4096 [.data (getHead ++ getHead)] =
        some (.ret getRequest.request []) ∧
      ¬ Served 4096 [getRequest, getRequest] [getHead ++ getHead] := by
  refine ⟨Arrives.pipelined (by decide +kernel) (by decide +kernel) (by decide +kernel),
    by decide +kernel, ?_⟩
  rintro ⟨k, -, hbytes, -⟩
  have hlength := congrArg List.length hbytes
  cases k with
  | zero => revert hlength; decide
  | succ k =>
    rw [List.take_succ_cons, List.take_nil] at hlength
    revert hlength
    decide

end Azure
