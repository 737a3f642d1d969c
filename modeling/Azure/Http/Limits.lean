import Azure.Http.KeepAlive

/-!
# The limit on request bodies

`recvRequest` makes room for as many bytes as the length in the header says, whatever the limit of the
configuration is.  Besides the memory that is asked for it can fail on a query that two reads bring, and
on reads of the body that fail.
-/

namespace Azure

open Reasoning

/-! ## Queries in two buffers -/

namespace RequestAction

/-- Where the query begins after an action at position `p`; `none` when a query ends that does not begin
in front of it. -/
def queryStart (p : Nat) (start : Option Nat) : RequestAction → Option (Option Nat)
  | startQuery => some (some p)
  | queryString => start.bind fun q => if q ≤ p then some start else none
  | _ => some start

end RequestAction

/-- What the transitions of the method and the URI have to be trusted for: they have nothing to do with
the fields, and do not end the head.  What leads out of the last state does not count: no scan gets there. -/
structure RequestLine (uri : Nat → UInt8 → List RequestAction × Nat) : Prop where
  value : ∀ s b, s < 348 → .writeValue ∉ (uri s b).1
  state : ∀ s b, s < 348 → (uri s b).2 ≠ 15 ∧ (uri s b).2 ≠ 16 ∧ (uri s b).2 < 348

/-! ## Turns -/

section

variable {P : Type} {L : HeadLoop P} {parser : P} {left : Bytes} {reads : List ReadResult}
  {t : HeadLoop.Turn P}

theorem HeadLoop.unfinished_of_turn {data : Bytes} {parser' : P} {left' : Bytes}
    (h : L.turn parser data = .more parser' left') : L.isFinished parser' = false := by
  unfold HeadLoop.turn at h
  cases hexecute : L.execute parser data with
  | none => simp [hexecute] at h
  | some r =>
    rw [hexecute] at h
    dsimp only at h
    split_ifs at h with herror hfull hfinished
    obtain ⟨rfl, -⟩ : r.2 = parser' ∧ data.drop r.1 = left' := by simpa using h
    exact Bool.eq_false_iff.mpr hfinished

/-- A loop takes no turn with a parser that has finished. -/
theorem HeadLoop.Turns.unfinished (ht : L.Turns parser left reads t) (h : L.isFinished parser = false) :
    L.isFinished t.parser = false := by
  obtain ⟨bytes, rest, used, -, hrun⟩ := ht
  apply hrun.invariant (fun t => L.isFinished t.parser = false) h
  rintro u bytes v - ⟨left', hturn, -, -⟩
  exact HeadLoop.unfinished_of_turn hturn

end

namespace HttpRequestParser

variable {uri : Nat → UInt8 → List RequestAction × Nat} {buffer : Bytes} {p s : Nat}
  {x x' : HttpRequestParser}

/-- The positions lie in front of the byte that is taken, in a value those of its name as well. -/
structure Placed (p s : Nat) (x : HttpRequestParser) : Prop where
  mark : x.mark ≤ p
  fieldStart : x.fieldStart ≤ p
  field : s = 15 ∨ s = 16 → x.fieldStart + x.fieldLen ≤ p

def positionsAfter (p : Nat) (a : RequestAction) (x : Positions) : Positions :=
  match a with
  | .mark | .startValue => { x with mark := p }
  | .startField => { x with fieldStart := p }
  | .writeField => { x with fieldLen := tokenLen x.fieldStart p }
  | .startQuery => { x with queryStart := some p }
  | _ => x

def Follows (start : Option (Option Nat)) (y : Positions) (r : Option HttpRequestParser) : Prop :=
  match r with
  | none => start = none
  | some x' => start = some x'.queryStart ∧ x'.positions = y

def Apart (acts : List RequestAction) : Prop :=
  .writeValue ∈ acts → .startField ∉ acts ∧ .writeField ∉ acts

/-- A value is stored in the states behind a colon only, and these are entered by storing the length of
the name; the last state is entered by breaking off. -/
theorem httpNext_fields (huri : RequestLine uri) {s : Nat} (hs : s < 348) (b : UInt8) :
    (.writeValue ∈ (httpNext uri s b).1 → (s = 15 ∨ s = 16) ∧ .startField ∉ (httpNext uri s b).1 ∧
      .writeField ∉ (httpNext uri s b).1) ∧
    ((httpNext uri s b).2 = 15 ∨ (httpNext uri s b).2 = 16 → (httpNext uri s b).1 = [.writeField] ∨
      (s = 15 ∨ s = 16) ∧ .startField ∉ (httpNext uri s b).1 ∧ .writeField ∉ (httpNext uri s b).1) ∧
    ((httpNext uri s b).1.any (httpParser uri).breaks = false → (httpNext uri s b).2 < 348) := by
  unfold httpNext
  split
  case h_16 =>
    obtain ⟨hgap, hvalue, hlast⟩ := huri.state _ b hs
    exact ⟨fun h => absurd h (huri.value _ _ hs), fun h => absurd h (not_or.mpr ⟨hgap, hvalue⟩),
      fun _ => hlast⟩
  all_goals
    split_ifs
    all_goals simp [httpParser]

theorem positionsAfter_le (acts : List RequestAction) {y : Positions} (hmark : y.mark ≤ p)
    (hstart : y.fieldStart ≤ p) :
    (acts.foldl (fun y a => positionsAfter p a y) y).mark ≤ p ∧
      (acts.foldl (fun y a => positionsAfter p a y) y).fieldStart ≤ p := by
  induction acts generalizing y with
  | nil => exact ⟨hmark, hstart⟩
  | cons a acts ih =>
    rw [List.foldl_cons]
    apply ih
    · cases a <;> first | exact Nat.le_refl p | exact hmark
    · cases a <;> first | exact Nat.le_refl p | exact hstart

theorem positionsAfter_field {acts : List RequestAction} {y : Positions} (hstart : .startField ∉ acts)
    (hname : .writeField ∉ acts) :
    (acts.foldl (fun y a => positionsAfter p a y) y).fieldStart = y.fieldStart ∧
      (acts.foldl (fun y a => positionsAfter p a y) y).fieldLen = y.fieldLen := by
  induction acts generalizing y with
  | nil => exact ⟨rfl, rfl⟩
  | cons a acts ih =>
    rw [List.mem_cons, not_or] at hstart hname
    rw [List.foldl_cons]
    obtain ⟨hfirst, hlen⟩ := ih (y := positionsAfter p a y) hstart.2 hname.2
    rw [hfirst, hlen]
    cases a with
    | startField => exact absurd rfl hstart.1
    | writeField => exact absurd rfl hname.1
    | _ => exact ⟨rfl, rfl⟩

/-- The positions stay in front of the byte that is taken. -/
theorem Placed.step (huri : RequestLine uri) (hs : s < 348) {b : UInt8} (h : Placed p s x)
    (hx : x'.positions = (httpNext uri s b).1.foldl (fun y a => positionsAfter p a y) x.positions) :
    Placed (p + 1) (httpNext uri s b).2 x' := by
  obtain ⟨-, hstate, -⟩ := httpNext_fields huri hs b
  obtain ⟨hmark, hstart⟩ := positionsAfter_le (httpNext uri s b).1 (y := x.positions) h.mark
    h.fieldStart
  rw [← hx] at hmark hstart
  refine ⟨Nat.le_succ_of_le hmark, Nat.le_succ_of_le hstart, fun ht => ?_⟩
  have hfirst := congrArg Positions.fieldStart hx
  have hlen := congrArg Positions.fieldLen hx
  show x'.positions.fieldStart + x'.positions.fieldLen ≤ p + 1
  rw [hfirst, hlen]
  rcases hstate ht with hname | ⟨hs, hnot, hnot'⟩
  · have hle : x.fieldStart ≤ p := h.fieldStart
    -- the name ends here: its length is what has been scanned
    rw [hname]
    show x.fieldStart + tokenLen x.fieldStart p ≤ p + 1
    rw [tokenLen, if_pos hle]
    omega
  -- in a value the name stays where it is
  · obtain ⟨hsame, hsame'⟩ := positionsAfter_field (p := p) (y := x.positions) hnot hnot'
    rw [hsame, hsame']
    exact Nat.le_succ_of_le (h.field hs)

end HttpRequestParser

/-! ## Bodies with what they are stored in -/

namespace HttpSession

/-- The bytes of the results in a body, with the calls made for the part from `base` on.  The place of a
call is a pointer; `none` when a byte would be outside of the body. -/
def storeBody (base : Nat) (body : Bytes) : List StreamCall → List ReadResult → Option Bytes
  | c :: calls, r :: reads =>
    let place := (base + c.offset.getD 0) % 2 ^ 64
    if r.bytes = [] then storeBody base body calls reads
    else if place + r.bytes.length ≤ body.length then
      storeBody base (overwrite body place r.bytes) calls reads
    else none
  | _, _ => some body

/-- The rest of a body, with the bytes that have come with the head in front of it. -/
def readBody (length : Nat) (left : Bytes) (reads : List ReadResult) : Option (Recv Bytes) :=
  let t := Stream.readFixSize (UInt64.ofNat (length - left.length)) (reads.map ReadResult.result)
  let answered := (t.calls.zip reads).all fun p => p.2.answers p.1.requested
  if !answered then none
  else
    match t.ret with
    | none => some .wait
    | some r =>
      if r ≤ 0 then some (.null true)
      else
        match storeBody left.length (left ++ List.replicate (length - left.length) 0) t.calls reads with
        -- the bytes in front of the body are overwritten
        | none => some .thrown
        | some body => some (.ret body (reads.drop t.calls.length))

/-- A body of `length` bytes and how many bytes it makes room for; `resizes` says for which lengths
`resize` succeeds. -/
def recvBodyAlloc (resizes : Nat → Bool) (length : Int) (left : Bytes) (reads : List ReadResult) :
    Option (Nat × Recv Bytes) :=
  if length ≤ 0 then some (0, .ret [] reads)
  else if !resizes length.toNat then some (0, .thrown)
  else if length ≤ left.length then some (length.toNat, .ret (left.take length.toNat) reads)
  else (readBody length.toNat left reads).map fun r => (length.toNat, r)

/-- `recvRequest`, and how many bytes its body makes room for. -/
def recvRequestAlloc (resizes : Nat → Bool) (M : Scanner Nat RequestAction) (size : Nat)
    (reads : List ReadResult) : Option (Nat × Recv HttpRequest) :=
  ((requestHead M size).recvHead {} [] reads).bind fun r =>
    match r with
    | .wait => some (0, .wait)
    | .null closed => some (0, .null closed)
    | .thrown => some (0, .thrown)
    | .ret (parser, left) reads =>
      (recvBodyAlloc resizes parser.data.headers.contentLength.toInt64.toInt left reads).map fun b =>
        (b.1, b.2.map (finish parser.data))

/-! ## Transfers with reads that fail -/

section Transfers

variable {n o k base : Nat} {body : Bytes} {reads : List ReadResult}

/-- Where a transfer that is at `o` stands behind `k` calls, as a `size_t`. -/
def progress (o : Nat) (reads : List ReadResult) (k : Nat) : Nat :=
  (o + ((reads.take k).map fun r => sizeOfInt r.result).sum) % 2 ^ 64

structure Completes (o n : Nat) (reads : List ReadResult) (k : Nat) : Prop where
  calls : k ≤ reads.length
  through : progress o reads k = n
  before : ∀ i < k, progress o reads i ≠ n
  stops : ∀ r ∈ reads.take k, sizeOfInt r.result ≠ 0

theorem sizeOfInt_lt (n : Int) : sizeOfInt n < 2 ^ 64 := by
  unfold sizeOfInt
  have := Int.emod_lt_of_pos n (show (0 : Int) < 2 ^ 64 by decide)
  omega

def transfer (n o : Nat) (reads : List ReadResult) : Transfer :=
  Stream.fixSize some n o ((n + (2 ^ 64 - o)) % 2 ^ 64) (reads.map ReadResult.result)

theorem transfer_done (hn : n < 2 ^ 64) (reads : List ReadResult) :
    transfer n n reads = { ret := some (intOfSize n) } := by
  have hleft : (n + (2 ^ 64 - n)) % 2 ^ 64 = 0 := by omega
  rw [transfer, hleft]
  cases reads <;> rfl

theorem transfer_cons (hn : n < 2 ^ 64) (ho : o < 2 ^ 64) (hne : o ≠ n) (r : ReadResult) :
    transfer n o (r :: reads) =
      let call : StreamCall := { offset := some o, requested := (n + (2 ^ 64 - o)) % 2 ^ 64 }
      if sizeOfInt r.result = 0 then { ret := some 0, calls := [call] }
      else
        let rest := transfer n ((o + sizeOfInt r.result) % 2 ^ 64) reads
        { rest with calls := call :: rest.calls } := by
  have hleft : (n + (2 ^ 64 - o)) % 2 ^ 64 ≠ 0 := by omega
  have hlen := sizeOfInt_lt r.result
  rw [transfer, List.map_cons, Stream.fixSize, if_neg hleft]
  dsimp only
  by_cases hzero : sizeOfInt r.result = 0
  · rw [if_pos (Nat.le_of_eq hzero), if_pos hzero, hzero]
    rfl
  · have hless : ((n + (2 ^ 64 - o)) % 2 ^ 64 + (2 ^ 64 - sizeOfInt r.result)) % 2 ^ 64 =
        (n + (2 ^ 64 - (o + sizeOfInt r.result) % 2 ^ 64)) % 2 ^ 64 := by
      omega
    rw [if_neg (by omega), if_neg hzero, hless]
    rfl

theorem transfer_zero (hn : n < 2 ^ 64) (reads : List ReadResult) :
    Stream.readFixSize (UInt64.ofNat n) (reads.map ReadResult.result) = transfer n 0 reads := by
  have hleft : (n + (2 ^ 64 - 0)) % 2 ^ 64 = n := by omega
  have hnat : (UInt64.ofNat n).toNat = n := UInt64.toNat_ofNat_of_lt hn
  rw [Stream.readFixSize, hnat, transfer, hleft]

/-- As long as no `read` fails the bytes are stored behind those that came with the head. -/
theorem storeBody_eq_store {left buffer : Bytes} (ho : o ≤ n) (hn : left.length + n < 2 ^ 64)
    (hbuffer : buffer.length = n) (hreads : ∀ r ∈ reads, r ≠ .fail (-1))
    (hanswers : ((transfer n o reads).calls.zip reads).all
      (fun p => p.2.answers p.1.requested) = true) :
    storeBody left.length (left ++ buffer) (transfer n o reads).calls reads =
      (SocketStream.store buffer (transfer n o reads).calls reads).map (left ++ ·) := by
  induction reads generalizing o buffer with
  | nil => cases (transfer n o []).calls <;> rfl
  | cons r reads ih =>
    by_cases hdone : o = n
    · subst hdone
      rw [transfer_done (by omega)]
      rfl
    have hlater : ∀ r ∈ reads, r ≠ .fail (-1) := fun q hq => hreads q (List.mem_cons_of_mem r hq)
    rw [transfer_cons (by omega) (by omega) hdone] at hanswers ⊢
    dsimp only at hanswers ⊢
    have hplace : (left.length + o) % 2 ^ 64 = left.length + o := Nat.mod_eq_of_lt (by omega)
    have hfirst : r.answers (n - o) = true := by
      have hleft : (n + (2 ^ 64 - o)) % 2 ^ 64 = n - o := by omega
      rw [← hleft]
      split_ifs at hanswers <;>
        exact (Bool.and_eq_true_iff.mp ((List.all_cons ..).symm.trans hanswers)).1
    cases r with
    | fail m =>
      have hm : m = 0 ∨ m = -1 := by simpa [ReadResult.answers] using hfirst
      -- a result of 0 ends the transfer, and -1 is excluded
      have hzero : m = 0 := hm.resolve_right fun h => hreads _ List.mem_cons_self (h ▸ rfl)
      subst hzero
      have hstops : sizeOfInt (ReadResult.fail 0).result = 0 := rfl
      have hnothing : (ReadResult.fail 0).bytes = [] := rfl
      have hinside : o + 0 ≤ buffer.length := by omega
      rw [if_pos hstops, storeBody, if_pos hnothing, SocketStream.store, Option.getD_some, hnothing,
        List.length_nil, if_pos hinside, overwrite_nil]
      cases reads <;> rfl
    | data bytes =>
      simp only [ReadResult.answers, Bool.and_eq_true, decide_eq_true_eq] at hfirst
      obtain ⟨⟨hne, hle⟩, hint⟩ := hfirst
      have hlen : sizeOfInt (bytes.length : Int) = bytes.length :=
        Stream.sizeOfInt_of_nonneg (Int.natCast_nonneg _) (by omega)
      have hpos := List.length_pos_of_ne_nil hne
      -- nothing wraps: the bytes fit into what is left
      have hnext : (o + bytes.length) % 2 ^ 64 = o + bytes.length := Nat.mod_eq_of_lt (by omega)
      rw [ReadResult.result, hlen, if_neg (by omega), hnext] at hanswers ⊢
      rw [List.zip_cons_cons, List.all_cons, Bool.and_eq_true] at hanswers
      have hinside : o + bytes.length ≤ buffer.length := by omega
      have hinside' : left.length + o + bytes.length ≤ (left ++ buffer).length := by
        rw [List.length_append]
        omega
      rw [storeBody, SocketStream.store, Option.getD_some, hplace, ReadResult.bytes, if_neg hne,
        if_pos hinside, if_pos hinside', overwrite_append_right]
      exact ih (by omega) (by rw [length_overwrite hinside, hbuffer]) hlater hanswers.2

end Transfers

/-! ## Rooms for bodies -/

section Rooms

variable {resizes : Nat → Bool} {length : Int} {left body : Bytes} {reads : List ReadResult}
  {max a : Nat} {r : Recv Bytes}

/-- As long as no `read` fails, and there is room, a body is what `recvBody` says. -/
theorem recvBodyAlloc_eq_recvBody (left : Bytes) (hlength : length < 2 ^ 64)
    (hreads : ∀ r ∈ reads, r ≠ .fail (-1)) :
    (recvBodyAlloc (fun _ => true) length left reads).map Prod.snd = recvBody length left reads := by
  rw [recvBodyAlloc, recvBody]
  split_ifs with hnothing hroom hwhole
  · rfl
  · cases hroom
  · cases hroom
  · rfl
  · rw [Option.map_map]
    have hshort : (length - left.length).toNat = length.toNat - left.length := by omega
    have hlen : left.length + (length.toNat - left.length) < 2 ^ 64 := by omega
    have hstore := storeBody_eq_store (o := 0) (Nat.zero_le _) hlen
      (List.length_replicate (n := length.toNat - left.length) (a := (0 : UInt8))) hreads
    have hn : length.toNat - left.length < 2 ^ 64 := by omega
    have hnat : (UInt64.ofNat (length.toNat - left.length)).toNat = length.toNat - left.length :=
      UInt64.toNat_ofNat_of_lt hn
    rw [readBody, SocketStream.readFixSize, hshort, transfer_zero hn, hnat]
    cases hanswers : ((transfer (length.toNat - left.length) 0 reads).calls.zip reads).all
        fun p => p.2.answers p.1.requested with
    | false => rfl
    | true =>
      rw [hstore hanswers]
      cases (transfer (length.toNat - left.length) 0 reads).ret with
      | none => rfl
      | some v =>
        dsimp only
        rw [Bool.not_true, if_neg Bool.false_ne_true, if_neg Bool.false_ne_true]
        split_ifs with hv
        · rfl
        · cases SocketStream.store (List.replicate (length.toNat - left.length) 0)
            (transfer (length.toNat - left.length) 0 reads).calls reads <;> rfl

theorem recvRequestAlloc_eq_recvRequest (M : Scanner Nat RequestAction) (size : Nat)
    (hreads : ∀ r ∈ reads, r ≠ .fail (-1)) :
    (recvRequestAlloc (fun _ => true) M size reads).map Prod.snd = recvRequest M size reads := by
  rw [recvRequestAlloc, recvRequest]
  cases hhead : (requestHead M size).recvHead {} [] reads with
  | none => rfl
  | some r =>
    rw [Option.bind_some, Option.bind_some]
    cases r with
    | wait => rfl
    | null closed => rfl
    | thrown => rfl
    | ret head rest =>
      obtain ⟨parser, left⟩ := head
      obtain ⟨used, rfl⟩ := HeadLoop.reads_of_ret hhead
      have hrest : ∀ r ∈ rest, r ≠ .fail (-1) := fun r hr => hreads r (List.mem_append_right _ hr)
      have hlt := Int64.toInt_lt parser.data.headers.contentLength.toInt64
      have hlength : parser.data.headers.contentLength.toInt64.toInt < 2 ^ 64 := by omega
      have hbody := recvBodyAlloc_eq_recvBody left hlength hrest
      rw [Recv.bind_ret]
      dsimp only
      rw [← hbody, Option.map_map, Option.map_map]
      rfl

end Rooms

/-! ## Requests within the limit -/

end HttpSession

end Azure
