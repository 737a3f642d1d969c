import Azure.Http.Parser
import Azure.Reasoning.Overwrite
import Azure.Reasoning.Runs
import Azure.Stream.Transfer

/-!
# Receiving messages (`http_session.cpp`, `http_connection.cpp`)

What a socket delivers is a list: what each call of `read` comes to, one after the other.  A call that
receives a message takes as much of the list as it needs.
-/

namespace Azure

open Reasoning

/-- What a call of `read` comes to: some bytes, or a result that is not positive. -/
inductive ReadResult where
  | data (bytes : Bytes)
  | fail (r : Int)
  deriving DecidableEq, Repr

namespace ReadResult

def result : ReadResult → Int
  | data bytes => bytes.length
  | fail r => r

def bytes : ReadResult → Bytes
  | data bytes => bytes
  | fail _ => []

/-- What a `read` of `n` bytes can come to; the result is an `int`. -/
def answers (r : ReadResult) (n : Nat) : Bool :=
  match r with
  | data bytes => bytes ≠ [] && bytes.length ≤ n && bytes.length < 2 ^ 31
  | fail r => r = 0 || r = -1

end ReadResult

/-- What a call that receives something comes to: it waits for more, it returns a null pointer, an
exception leaves it, or it returns with the rest of what the socket delivers. -/
inductive Recv (α : Type) where
  | wait
  | null (closed : Bool)
  | thrown
  | ret (a : α) (reads : List ReadResult)
  deriving DecidableEq, Repr

namespace Recv

variable {α β : Type}

def bind (r : Recv α) (f : α → List ReadResult → Option (Recv β)) : Option (Recv β) :=
  match r with
  | wait => some wait
  | null closed => some (null closed)
  | thrown => some thrown
  | ret a reads => f a reads

def map (f : α → β) : Recv α → Recv β
  | wait => wait
  | null closed => null closed
  | thrown => thrown
  | ret a reads => ret (f a) reads

@[simp] theorem bind_ret (a : α) (reads : List ReadResult)
    (f : α → List ReadResult → Option (Recv β)) : (ret a reads).bind f = f a reads := rfl

@[simp] theorem map_ret (f : α → β) (a : α) (reads : List ReadResult) :
    (ret a reads).map f = ret (f a) reads := rfl

end Recv

namespace SocketStream

/-- The bytes of the results stored at the offsets of their calls; `none` when a byte would be
outside of the buffer. -/
def store (buffer : Bytes) : List StreamCall → List ReadResult → Option Bytes
  | c :: calls, r :: reads =>
    if (c.offset.getD 0) + r.bytes.length ≤ buffer.length then
      store (overwrite buffer (c.offset.getD 0) r.bytes) calls reads
    else none
  | _, _ => some buffer

/-- `readFixSize(void*, size_t)` into a buffer of this length, with the test of its result. -/
def readFixSize (length : UInt64) (reads : List ReadResult) : Option (Recv Bytes) :=
  let t := Stream.readFixSize length (reads.map ReadResult.result)
  let answered := (t.calls.zip reads).all fun p => p.2.answers p.1.requested
  if !answered then none
  else
    match t.ret with
    | none => some .wait
    | some r =>
      if r ≤ 0 then some (.null true)
      else
        match store (List.replicate length.toNat 0) t.calls reads with
        | none => some .thrown
        | some buffer => some (.ret buffer (reads.drop t.calls.length))

end SocketStream

/-! ## Heads -/

inductive HeadTurn (P : Type) where
  | thrown
  | null
  | finished (parser : P) (left : Bytes)
  | more (parser : P) (left : Bytes)

structure HeadLoop (P : Type) where
  execute : P → Bytes → Option (Nat × P)
  hasError : P → Bool
  isFinished : P → Bool
  /-- of the buffer -/
  size : Nat

namespace HeadLoop

variable {P : Type} (L : HeadLoop P)

def turn (parser : P) (data : Bytes) : HeadTurn P :=
  match L.execute parser data with
  | none => .thrown
  | some (nparse, parser) =>
    if L.hasError parser then .null
    else
      let left := data.drop nparse
      if left.length = L.size then .null
      else if L.isFinished parser then .finished parser left
      else .more parser left

/-- The loop that begins with a `read`; `left` are the first `offset` bytes of the buffer.  `none` when
a result is not one of the `read` it is for. -/
def recvHead (parser : P) (left : Bytes) : List ReadResult → Option (Recv (P × Bytes))
  | [] => some .wait
  | r :: reads =>
    if !r.answers (L.size - left.length) then none
    else
      match r with
      | .fail _ => some (.null true)
      | .data bytes =>
        match L.turn parser (left ++ bytes) with
        | .thrown => some .thrown
        | .null => some (.null true)
        | .finished parser left => some (.ret (parser, left) reads)
        | .more parser left => recvHead parser left reads

/-! ### The turns of a loop -/

/-- The begin of a turn: `execute` is called with the parser and the data in the buffer. -/
structure Turn (P : Type) where
  parser : P
  data : Bytes
  reads : List ReadResult

def resume (t : Turn P) : Option (Recv (P × Bytes)) :=
  match L.turn t.parser t.data with
  | .thrown => some .thrown
  | .null => some (.null true)
  | .finished parser left => some (.ret (parser, left) t.reads)
  | .more parser left => L.recvHead parser left t.reads

/-- From one turn to the next one, with what `read` brings in between. -/
def Next (t : Turn P) (bytes : Bytes) (t' : Turn P) : Prop :=
  ∃ left, L.turn t.parser t.data = .more t'.parser left ∧ t.reads = .data bytes :: t'.reads ∧
    t'.data = left ++ bytes

/-- The turns that a loop that begins with a `read` comes to. -/
def Turns (parser : P) (left : Bytes) (reads : List ReadResult) (t : Turn P) : Prop :=
  ∃ bytes rest used, reads = .data bytes :: rest ∧
    Run L.Next { parser, data := left ++ bytes, reads := rest } used t

variable {L} {parser : P} {left : Bytes} {reads : List ReadResult} {t t' : Turn P}
  {r : Recv (P × Bytes)} {used : List Bytes}

theorem turn_eq_thrown_iff {data : Bytes} :
    L.turn parser data = .thrown ↔ L.execute parser data = none := by
  unfold turn
  cases L.execute parser data with
  | none => exact iff_of_true rfl rfl
  | some r =>
    refine iff_of_false (fun h => ?_) (Option.some_ne_none _)
    dsimp only at h
    split_ifs at h

/-- What a turn leaves in the buffer is the end of its data, and does not fill the buffer. -/
theorem left_of_turn {data : Bytes} {parser' : P} {left' : Bytes}
    (h : L.turn parser data = .more parser' left' ∨ L.turn parser data = .finished parser' left') :
    ∃ n, L.execute parser data = some (n, parser') ∧ left' = data.drop n ∧ left'.length ≠ L.size := by
  unfold turn at h
  cases hexecute : L.execute parser data with
  | none => simp [hexecute] at h
  | some r =>
    rw [hexecute] at h
    dsimp only at h
    split_ifs at h with herror hfull hfinished
    · simp at h
    · simp at h
    · obtain ⟨rfl, rfl⟩ : r.2 = parser' ∧ data.drop r.1 = left' := by simpa using h
      exact ⟨r.1, rfl, rfl, hfull⟩
    · obtain ⟨rfl, rfl⟩ : r.2 = parser' ∧ data.drop r.1 = left' := by simpa using h
      exact ⟨r.1, rfl, rfl, hfull⟩

theorem left_lt_of_turn {data : Bytes} {parser' : P} {left' : Bytes}
    (h : L.turn parser data = .more parser' left' ∨ L.turn parser data = .finished parser' left')
    (hdata : data.length ≤ L.size) : left'.length < L.size := by
  obtain ⟨n, -, hdrop, hfull⟩ := left_of_turn h
  rw [hdrop, List.length_drop] at hfull ⊢
  omega

theorem finished_of_turn {data : Bytes} {parser' : P} {left' : Bytes}
    (h : L.turn parser data = .finished parser' left') :
    L.hasError parser' = false ∧ L.isFinished parser' = true := by
  unfold turn at h
  cases hexecute : L.execute parser data with
  | none => simp [hexecute] at h
  | some r =>
    rw [hexecute] at h
    dsimp only at h
    split_ifs at h with herror hfull hfinished
    obtain ⟨rfl, -⟩ : r.2 = parser' ∧ data.drop r.1 = left' := by simpa using h
    exact ⟨Bool.eq_false_iff.mpr herror, hfinished⟩

/-- What a `read` that brings some bytes comes to. -/
theorem recvHead_data {bytes : Bytes} (h : L.recvHead parser left (.data bytes :: reads) = some r) :
    (left ++ bytes).length ≤ max left.length L.size ∧
      L.resume { parser, data := left ++ bytes, reads } = some r := by
  rw [recvHead] at h
  split at h
  · cases h
  · rename_i hanswers
    rw [Bool.not_eq_true', Bool.not_eq_false] at hanswers
    simp only [ReadResult.answers, Bool.and_eq_true, decide_eq_true_eq] at hanswers
    refine ⟨?_, ?_⟩
    · rw [List.length_append]
      omega
    · rw [resume]
      cases hturn : L.turn parser (left ++ bytes) with
      | thrown | null | finished | more =>
        rw [hturn] at h
        exact h

theorem recvHead_fail {n : Int} (h : L.recvHead parser left (.fail n :: reads) = some r) :
    r = .null true := by
  rw [recvHead] at h
  split at h <;> cases h
  rfl

theorem resume_next {bytes : Bytes} (hnext : L.Next t bytes t') (h : L.resume t = some r) :
    t'.data.length ≤ max t.data.length L.size ∧ L.resume t' = some r := by
  obtain ⟨left, hturn, hreads, hdata⟩ := hnext
  obtain ⟨n, -, hleft, -⟩ := left_of_turn (Or.inl hturn)
  rw [resume, hturn, hreads] at h
  obtain ⟨hle, hrest⟩ := recvHead_data h
  rw [← hdata] at hle hrest
  refine ⟨?_, hrest⟩
  have hshort : left.length ≤ t.data.length := by
    rw [hleft, List.length_drop]
    omega
  omega

/-- From every turn that the loop comes to it ends in the same way. -/
theorem resume_run (hrun : Run L.Next t used t') (h : L.resume t = some r) :
    t'.data.length ≤ max t.data.length L.size ∧ L.resume t' = some r := by
  apply hrun.invariant (fun t' => t'.data.length ≤ max t.data.length L.size ∧ L.resume t' = some r)
    ⟨by omega, h⟩
  rintro u bytes v ⟨hle, hu⟩ hnext
  obtain ⟨hle', hv⟩ := resume_next hnext hu
  exact ⟨by omega, hv⟩

theorem reads_of_run (hrun : Run L.Next t used t') : t.reads = used.map .data ++ t'.reads := by
  apply hrun.history_invariant
    (fun (used : List Bytes) t' => t.reads = used.map ReadResult.data ++ t'.reads) rfl
  rintro used u bytes v hu ⟨left, -, hreads, -⟩
  rw [hu, hreads, List.map_append, List.append_assoc]
  rfl

theorem Turns.next {bytes : Bytes} {parser' : P} {left' : Bytes}
    (h : L.turn parser (left ++ bytes) = .more parser' left') (ht : L.Turns parser' left' reads t) :
    L.Turns parser left (.data bytes :: reads) t := by
  obtain ⟨bytes', rest, used, rfl, hrun⟩ := ht
  exact ⟨bytes, _, bytes' :: used, rfl, (Run.single ⟨left', h, rfl, rfl⟩).append hrun⟩

def Ends (t : Turn P) (r : Recv (P × Bytes)) : Prop :=
  L.turn t.parser t.data = .thrown ∧ r = .thrown ∨
    ∃ parser left, L.turn t.parser t.data = .finished parser left ∧ r = .ret (parser, left) t.reads

/-- A loop returns null, or waits for more, or ends in a turn that it comes to. -/
theorem recvHead_last (h : L.recvHead parser left reads = some r) :
    r = .null true ∨ (r = .wait ∧ ∃ used : List Bytes, reads = used.map .data) ∨
      ∃ t, L.Turns parser left reads t ∧ L.Ends t r := by
  induction reads generalizing parser left with
  | nil =>
    cases h
    exact Or.inr (Or.inl ⟨rfl, [], rfl⟩)
  | cons read reads ih =>
    cases read with
    | fail n => exact Or.inl (recvHead_fail h)
    | data bytes =>
      obtain ⟨-, hend⟩ := recvHead_data h
      have hfirst : L.Turns parser left (.data bytes :: reads) ⟨parser, left ++ bytes, reads⟩ :=
        ⟨bytes, reads, [], rfl, .nil _⟩
      rw [resume] at hend
      dsimp only at hend
      cases hturn : L.turn parser (left ++ bytes) with
      | thrown =>
        rw [hturn] at hend
        exact Or.inr (Or.inr ⟨_, hfirst, Or.inl ⟨hturn, (Option.some.inj hend).symm⟩⟩)
      | null =>
        rw [hturn] at hend
        exact Or.inl (Option.some.inj hend).symm
      | finished =>
        rw [hturn] at hend
        exact Or.inr (Or.inr ⟨_, hfirst, Or.inr ⟨_, _, hturn, (Option.some.inj hend).symm⟩⟩)
      | more parser' left' =>
        rw [hturn] at hend
        rcases ih hend with hnull | ⟨hwait, used, hused⟩ | ⟨t, ht, hlast⟩
        · exact Or.inl hnull
        · exact Or.inr (Or.inl ⟨hwait, bytes :: used, by rw [hused, List.map_cons]⟩)
        · exact Or.inr (Or.inr ⟨t, ht.next hturn, hlast⟩)

/-- The same from a turn on. -/
theorem resume_last (h : L.resume t = some r) :
    r = .null true ∨ (r = .wait ∧ ∃ used : List Bytes, t.reads = used.map .data) ∨
      ∃ used t', Run L.Next t used t' ∧ L.Ends t' r := by
  rw [resume] at h
  cases hturn : L.turn t.parser t.data with
  | thrown =>
    rw [hturn] at h
    exact Or.inr (Or.inr ⟨[], t, .nil t, Or.inl ⟨hturn, (Option.some.inj h).symm⟩⟩)
  | null =>
    rw [hturn] at h
    exact Or.inl (Option.some.inj h).symm
  | finished =>
    rw [hturn] at h
    exact Or.inr (Or.inr ⟨[], t, .nil t, Or.inr ⟨_, _, hturn, (Option.some.inj h).symm⟩⟩)
  | more parser left =>
    rw [hturn] at h
    rcases recvHead_last h with hnull | hwait | ⟨t', ⟨bytes, rest, used, hreads, hrun⟩, hlast⟩
    · exact Or.inl hnull
    · exact Or.inr (Or.inl hwait)
    · refine Or.inr (Or.inr ⟨bytes :: used, t', ?_, hlast⟩)
      exact (Run.single ⟨left, hturn, hreads, rfl⟩).append hrun

theorem Turns.resume (ht : L.Turns parser left reads t) (h : L.recvHead parser left reads = some r)
    (hleft : left.length ≤ L.size) : t.data.length ≤ L.size ∧ L.resume t = some r := by
  obtain ⟨bytes, rest, used, rfl, hrun⟩ := ht
  obtain ⟨hle, hrest⟩ := recvHead_data h
  obtain ⟨hle', ht⟩ := resume_run hrun hrest
  dsimp only at hle'
  exact ⟨by omega, ht⟩

theorem Turns.taken (ht : L.Turns parser left reads t) :
    ∃ used : List Bytes, reads = used.map .data ++ t.reads := by
  obtain ⟨bytes, rest, used, rfl, hrun⟩ := ht
  exact ⟨bytes :: used, congrArg (List.cons (.data bytes)) (reads_of_run hrun)⟩

/-- What a loop returns is that of a turn that it comes to. -/
theorem recvHead_ret {q : P × Bytes} {rest : List ReadResult}
    (h : L.recvHead parser left reads = some (.ret q rest)) :
    ∃ t, L.Turns parser left reads t ∧ L.turn t.parser t.data = .finished q.1 q.2 ∧ t.reads = rest := by
  rcases recvHead_last h with hnull | ⟨hwait, -⟩ | ⟨t, ht, ⟨-, hthrown⟩ | ⟨_, _, hturn, hret⟩⟩
  · cases hnull
  · cases hwait
  · cases hthrown
  · cases hret
    exact ⟨t, ht, hturn, rfl⟩

theorem reads_of_ret {q : P × Bytes} {rest : List ReadResult}
    (h : L.recvHead parser left reads = some (.ret q rest)) :
    ∃ used : List Bytes, reads = used.map .data ++ rest := by
  obtain ⟨t, ht, -, rfl⟩ := recvHead_ret h
  exact ht.taken

end HeadLoop

def recvBody (length : Int) (left : Bytes) (reads : List ReadResult) : Option (Recv Bytes) :=
  if length ≤ 0 then some (.ret [] reads)
  else if length ≤ left.length then some (.ret (left.take length.toNat) reads)
  else
    (SocketStream.readFixSize (UInt64.ofNat (length - left.length).toNat) reads).map
      (Recv.map fun bytes => left ++ bytes)

/-! ## Requests -/

namespace HttpSession

def requestHead (M : Scanner Nat RequestAction) (size : Nat) : HeadLoop HttpRequestParser where
  execute := HttpRequestParser.execute M
  hasError := HttpRequestParser.hasError M
  isFinished := HttpRequestParser.isFinished M
  size := size

def finish (data : HttpRequest) (body : Bytes) : HttpRequest :=
  let keepAlive :=
    (data.headers.find (ascii ['C', 'o', 'n', 'n', 'e', 'c', 't', 'i', 'o', 'n'])).getD []
  { data with
    body
    close := data.close &&
      !strcaseeq keepAlive (ascii ['k', 'e', 'e', 'p', '-', 'a', 'l', 'i', 'v', 'e']) }

def recvRequest (M : Scanner Nat RequestAction) (size : Nat) (reads : List ReadResult) :
    Option (Recv HttpRequest) :=
  ((requestHead M size).recvHead {} [] reads).bind fun r => r.bind fun (parser, left) reads =>
    (recvBody parser.data.headers.contentLength.toInt64.toInt left reads).map
      (Recv.map (finish parser.data))

end HttpSession

/-! ## Responses -/

namespace HttpConnection

/-- The loop for the head, and with `chunk` the one for the size line of a chunk. -/
def responseHead (M : Scanner Nat ResponseAction) (size : Nat) (chunk : Bool) :
    HeadLoop HttpResponseParser where
  execute := HttpResponseParser.execute M chunk
  hasError := HttpResponseParser.hasError M
  isFinished := HttpResponseParser.isFinished M
  size := size

/-- The loop for a size line: the first turn does not read when some bytes are there. -/
def recvChunkHead (M : Scanner Nat ResponseAction) (size : Nat) (parser : HttpResponseParser)
    (left : Bytes) (reads : List ReadResult) : Option (Recv (HttpResponseParser × Bytes)) :=
  let L := responseHead M size true
  if left = [] then L.recvHead parser [] reads
  else
    match L.turn parser left with
    | .thrown => some .thrown
    | .null => some (.null true)
    | .finished parser left => some (.ret (parser, left) reads)
    | .more parser left => L.recvHead parser left reads

def recvRest (size : Nat) (left : Int) (body : Bytes) : List ReadResult → Option (Recv Bytes)
  | [] => some (if left ≤ 0 then .ret body [] else .wait)
  | r :: reads =>
    if left ≤ 0 then some (.ret body (r :: reads))
    else if !r.answers (min left.toNat size) then none
    else
      match r with
      | .fail _ => some (.null true)
      | .data bytes => recvRest size (left - bytes.length) (body ++ bytes) reads

/-- What the loop for the rest of a chunk comes to, with the pieces that it has read. -/
theorem recvRest_outcome {size : Nat} {left : Int} {body : Bytes} {reads : List ReadResult}
    {r : Recv Bytes} (h : recvRest size left body reads = some r) :
    ∃ (used : List Bytes) (rest : List ReadResult), reads = used.map .data ++ rest ∧
      (r = .ret (body ++ used.flatten) rest ∧ (used.flatten.length : Int) = max left 0 ∨
        r = .wait ∧ rest = [] ∨ ∃ n, r = .null true ∧ rest.head? = some (.fail n)) := by
  induction reads generalizing left body with
  | nil =>
    refine ⟨[], [], rfl, ?_⟩
    rw [recvRest] at h
    split_ifs at h with hdone
    · cases h
      refine .inl ⟨by rw [List.flatten_nil, List.append_nil], ?_⟩
      exact (Int.max_eq_right hdone).symm
    · cases h
      exact .inr (.inl ⟨rfl, rfl⟩)
  | cons read reads ih =>
    cases read with
    | fail n =>
      rw [recvRest] at h
      split_ifs at h with hdone
      · cases h
        refine ⟨[], .fail n :: reads, rfl, .inl ⟨by rw [List.flatten_nil, List.append_nil], ?_⟩⟩
        exact (Int.max_eq_right hdone).symm
      · cases h
        exact ⟨[], .fail n :: reads, rfl, .inr (.inr ⟨n, rfl, rfl⟩)⟩
    | data bytes =>
      rw [recvRest] at h
      split_ifs at h with hdone hanswers
      · cases h
        refine ⟨[], .data bytes :: reads, rfl, .inl ⟨by rw [List.flatten_nil, List.append_nil], ?_⟩⟩
        exact (Int.max_eq_right hdone).symm
      · obtain ⟨used, rest, hreads, hcases⟩ := ih h
        refine ⟨bytes :: used, rest, by rw [hreads, List.map_cons, List.cons_append], ?_⟩
        rcases hcases with ⟨hr, hlen⟩ | hother
        · -- a read never brings more than what is asked for
          have hle : bytes.length ≤ left.toNat := by
            rw [Bool.not_eq_true', Bool.not_eq_false] at hanswers
            simp only [ReadResult.answers, Bool.and_eq_true, decide_eq_true_eq] at hanswers
            exact Nat.le_trans hanswers.1.2 (Nat.min_le_left ..)
          refine .inl ⟨by rw [hr, List.flatten_cons, List.append_assoc], ?_⟩
          rw [List.flatten_cons, List.length_append]
          omega
        · exact .inr hother

def recvChunkData (size : Nat) (contentLen : Int) (left body : Bytes) (reads : List ReadResult) :
    Option (Recv (Bytes × Bytes)) :=
  -- the sum is an `int`
  if 2 ^ 31 ≤ contentLen + 2 then some .thrown
  else if contentLen + 2 ≤ left.length then
    -- `append` throws for a negative length
    if contentLen < 0 then some .thrown
    else
      some (.ret (body ++ left.take contentLen.toNat, left.drop (contentLen.toNat + 2)) reads)
  else
    (recvRest size (contentLen - left.length + 2) (body ++ left) reads).bind fun r =>
      r.bind fun body reads =>
        -- `resize` throws for a negative length
        some (if body.length < 2 then .thrown
          else .ret (body.take (body.length - 2), []) reads)

/-- The loop over the chunks, each of which takes at least one byte. -/
def recvChunks (M : Scanner Nat ResponseAction) (size : Nat) :
    Nat → HttpResponseParser → Bytes → Bytes → List ReadResult →
      Option (Recv (HttpResponseParser × Bytes))
  | 0, _, _, _, _ => none
  | n + 1, parser, left, body, reads =>
    (recvChunkHead M size parser left reads).bind fun r => r.bind fun (parser, left) reads =>
      (recvChunkData size parser.contentLen left body reads).bind fun r =>
        r.bind fun (body, left) reads =>
          if parser.chunksDone then some (.ret (parser, body) reads)
          else recvChunks M size n parser left body reads

def available (reads : List ReadResult) : Nat := (reads.map fun r => r.bytes.length).sum

def recvResponse (M : Scanner Nat ResponseAction) (size : Nat) (reads : List ReadResult) :
    Option (Recv HttpResponse) :=
  ((responseHead M size false).recvHead {} [] reads).bind fun r => r.bind fun (parser, left) reads =>
    if parser.chunked then
      (recvChunks M size (left.length + available reads + 1) parser left [] reads).map
        (Recv.map fun (parser, body) => { parser.data with body })
    else
      (recvBody parser.data.headers.contentLength.toInt64.toInt left reads).map
        (Recv.map fun body => { parser.data with body })

end HttpConnection

end Azure
