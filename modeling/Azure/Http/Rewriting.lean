import Azure.Http.ChunkSizes

/-!
# Heads that the body rewrites

The callbacks of a size line are those of the head, and set the same response.
-/

namespace Azure

open Reasoning

theorem foldl_headers (es : List (Bytes × Bytes)) (data : HttpResponse) :
    (es.map fun e => HeadWrite.header e.1 e.2).foldl HeadWrite.apply data =
      { data with headers := es.foldl (fun m e => m.set e.1 e.2) data.headers } := by
  induction es generalizing data with
  | nil => rfl
  | cons e es ih => exact ih _

/-- A size line that says nothing new: its extensions are headers that are there already, with the same
values; and a status line in its place says what the head has said. -/
def SaysNothing (M : Scanner Nat ResponseAction) (head : HttpResponse) (data : Bytes) : Prop :=
  if data.head? = some 72 then
    ∀ writes, lineWrites M data = some writes → writes.foldl HeadWrite.apply head = head
  else (extensionsOf data).foldl (fun m e => m.set e.1 e.2) head.headers = head.headers

theorem saysNothing_iff (fields : Nat → UInt8 → List ResponseAction × Nat) (head : HttpResponse)
    (data : Bytes) :
    SaysNothing (httpclientParser fields) head data ↔
      ∀ writes, lineWrites (httpclientParser fields) data = some writes →
        writes.foldl HeadWrite.apply head = head := by
  rw [SaysNothing]
  split_ifs with hstatus
  · rfl
  · rw [lineWrites_eq fields hstatus]
    constructor
    · rintro hsame writes hwrites
      cases hwrites
      rw [foldl_headers, hsame]
    · intro hall
      have hsame := hall _ rfl
      rw [foldl_headers] at hsame
      exact congrArg HttpResponse.headers hsame

namespace HttpConnection

section Heads

variable {fields : Nat → UInt8 → List ResponseAction × Nat} {M : Scanner Nat ResponseAction} {size : Nat}
  {s s' init : Receiving} {t : HeadLoop.Turn HttpResponseParser} {head : HttpResponse}

def Leaves (M : Scanner Nat ResponseAction) (head : HttpResponse)
    (t : HeadLoop.Turn HttpResponseParser) : Prop :=
  ∀ k y, t.parser.execute M true t.data = some (k, y) → y.data = head

theorem leaves_iff (hdata : t.parser.data = head) :
    Leaves M head t ↔
      ∀ writes, lineWrites M t.data = some writes → writes.foldl HeadWrite.apply head = head := by
  have hwrites := HttpResponseParser.execute_writes M t.parser t.data
  rw [Leaves]
  revert hwrites
  cases t.parser.execute M true t.data with
  | none =>
    intro hwrites
    cases hnone : lineWrites M t.data with
    | none => exact iff_of_true (fun k y h => by cases h) fun writes h => by cases h
    | some writes =>
      rw [hnone] at hwrites
      cases hwrites
  | some r =>
    intro hwrites
    cases hsome : lineWrites M t.data with
    | none =>
      rw [hsome] at hwrites
      cases hwrites
    | some writes =>
      rw [hsome] at hwrites
      cases hwrites with
      | some hr =>
        rw [hdata] at hr
        constructor
        · intro hall writes' h
          cases h
          rw [← hr]
          exact hall r.1 r.2 rfl
        · intro hall k y h
          cases h
          rw [hr]
          exact hall writes rfl

/-- As long as the turns leave the response alone, it is the one of the head. -/
theorem data_of_turn (hs : s.parser.data = head)
    (hkeep : ∀ t, LineTurn M size s t → t.parser.data = head → Leaves M head t)
    (ht : LineTurn M size s t) : t.parser.data = head := by
  apply ht.invariant (P := fun t => t.parser.data = head)
  · exact fun bytes rest hreads => hs
  · exact hs
  · rintro u bytes v hu hdata ⟨left, hturn, -, -⟩
    obtain ⟨k, hexecute, -⟩ := HeadLoop.left_of_turn (Or.inl hturn)
    exact hkeep u hu hdata k v.parser hexecute

theorem data_of_ret {parser : HttpResponseParser} {left : Bytes} {reads : List ReadResult}
    (hs : s.parser.data = head)
    (hkeep : ∀ t, LineTurn M size s t → t.parser.data = head → Leaves M head t)
    (h : chunkHead M size s = some (.ret (parser, left) reads)) : parser.data = head := by
  obtain ⟨t, ht, hturn, -⟩ := chunkHead_ret h
  obtain ⟨k, hexecute, -⟩ := HeadLoop.left_of_turn (Or.inr hturn)
  exact hkeep t ht (data_of_turn hs hkeep ht) k parser hexecute

/-- What the head has set is what the turns over the size lines find. -/
theorem data_of_run (hinit : init.parser.data = head)
    (hkeep : ∀ hist s, Run (ChunkStep M size) init hist s → ∀ t, LineTurn M size s t →
      t.parser.data = head → Leaves M head t)
    {hist : List Int} (hrun : Run (ChunkStep M size) init hist s) : s.parser.data = head := by
  have hboth := hrun.history_invariant
    (fun hist s => Run (ChunkStep M size) init hist s ∧ s.parser.data = head) ⟨.nil init, hinit⟩
    (fun hist u contentLen v ⟨hu, hdata⟩ hstep => by
      obtain ⟨left, reads, hhead, -⟩ := id hstep
      exact ⟨.snoc hu hstep, data_of_ret hdata (hkeep hist u hu) hhead⟩)
  exact hboth.2

/-- The parser that is returned is that of the last size line. -/
theorem chunks_ret {n : Nat} {parser : HttpResponseParser} {body : Bytes} {rest : List ReadResult}
    (h : chunks M size n s = some (.ret (parser, body) rest)) :
    ∃ hist s' left reads, Run (ChunkStep M size) s hist s' ∧
      chunkHead M size s' = some (.ret (parser, left) reads) := by
  induction n generalizing s with
  | zero => cases h
  | succ n ih =>
    rcases chunks_succ h with ⟨-, hnot⟩ | ⟨parser', left, reads, d, hhead, hd, hcases⟩
    · exact absurd rfl (hnot _ _)
    · rcases hcases with ⟨-, hr⟩ | ⟨_, -, hr⟩ | ⟨-, hr⟩ | ⟨s', rfl, rfl, ⟨-, hr⟩ | ⟨hdone, hrest⟩⟩
      · cases hr
      · cases hr
      · cases hr
      · cases hr
        exact ⟨[], s, left, reads, .nil s, hhead⟩
      · obtain ⟨hist, s'', left', reads', hrun, hlast⟩ := ih hrest
        exact ⟨_, s'', left', reads', (Run.single ⟨left, reads, hhead, rfl, hdone, hd⟩).append hrun, hlast⟩

/-- Nothing behind the head changes what it has set: no turn over a size line does, and the response that
is returned has the same status, version, reason and headers. -/
structure HeadKept (M : Scanner Nat ResponseAction) (size : Nat) (init : Receiving)
    (r : Recv HttpResponse) : Prop where
  turns : ∀ hist s, Run (ChunkStep M size) init hist s → ∀ t, LineTurn M size s t →
    Leaves M init.parser.data t
  returned : ∀ response rest, r = .ret response rest →
    response = { init.parser.data with body := response.body }

/-- The head is kept if and only if no size line says anything new. -/
theorem headKept_iff {parser : HttpResponseParser} {left : Bytes} {reads rest : List ReadResult}
    {r : Recv HttpResponse}
    (hhead : (responseHead (httpclientParser fields) size false).recvHead {} [] reads =
      some (.ret (parser, left) rest))
    (hchunked : parser.chunked = true)
    (h : recvResponse (httpclientParser fields) size reads = some r) :
    HeadKept (httpclientParser fields) size { parser, left, reads := rest } r ↔
      ∀ hist s, Run (ChunkStep (httpclientParser fields) size) { parser, left, reads := rest } hist s →
        ∀ t, LineTurn (httpclientParser fields) size s t →
          SaysNothing (httpclientParser fields) parser.data t.data := by
  rw [recvResponse, hhead, Option.bind_some, Recv.bind_ret] at h
  dsimp only at h
  rw [if_pos hchunked] at h
  obtain ⟨q, hq, rfl⟩ := Option.map_eq_some_iff.mp h
  constructor
  · intro hkept hist s hrun t ht
    -- up to this turn the data are those of the head
    have hs : s.parser.data = parser.data :=
      data_of_run rfl (fun hist s hrun t ht _ => hkept.turns hist s hrun t ht) hrun
    have hdata := data_of_turn hs (fun t ht _ => hkept.turns hist s hrun t ht) ht
    exact (saysNothing_iff fields _ _).mpr ((leaves_iff hdata).mp (hkept.turns hist s hrun t ht))
  · intro hnew
    -- a turn that says nothing keeps them, and so does a run of such turns
    have hkeep : ∀ hist s, Run (ChunkStep (httpclientParser fields) size)
        { parser, left, reads := rest } hist s → ∀ t, LineTurn (httpclientParser fields) size s t →
        t.parser.data = parser.data → Leaves (httpclientParser fields) parser.data t :=
      fun hist s hrun t ht hdata =>
        (leaves_iff hdata).mpr ((saysNothing_iff fields _ _).mp (hnew hist s hrun t ht))
    refine ⟨fun hist s hrun t ht => ?_, fun response rest' hr => ?_⟩
    · exact hkeep hist s hrun t ht (data_of_turn (data_of_run rfl hkeep hrun) (hkeep hist s hrun) ht)
    · cases q with
      | wait | null | thrown => cases hr
      | ret q rest'' =>
        obtain ⟨last, body⟩ := q
        -- the response is made of the data that the last turn has left
        obtain ⟨hist, s, left', reads', hrun, hlast⟩ :=
          chunks_ret (s := { parser, left, reads := rest }) hq
        have hdata := data_of_ret (data_of_run rfl hkeep hrun) (hkeep hist s hrun) hlast
        cases hr
        rw [← hdata]

end Heads

/-- Neither of the two size lines of `hiResponse` has an extension. -/
theorem saysNothing_hi {hist : List Int} {s : Receiving} {t : HeadLoop.Turn HttpResponseParser}
    (hrun : Run (ChunkStep (httpclientParser chunkedFields) 4096) firstLine hist s)
    (ht : LineTurn (httpclientParser chunkedFields) 4096 s t) :
    SaysNothing (httpclientParser chunkedFields) chunkedParser.data t.data := by
  have hnothing : SaysNothing (httpclientParser chunkedFields) chunkedParser.data firstLine.left ∧
      SaysNothing (httpclientParser chunkedFields) chunkedParser.data lastLine.left := by
    constructor <;> exact (if_neg (by decide)).mpr (by decide +kernel)
  rcases chunk_of_run_hi hrun with rfl | rfl
  · rw [ht.of_left (List.cons_ne_nil _ _) rfl]
    exact hnothing.1
  · rw [ht.of_left (List.cons_ne_nil _ _) rfl]
    exact hnothing.2

theorem headKept_iff_hi :
    recvResponse (httpclientParser chunkedFields) 4096 [.data hiResponse] =
        some (.ret { chunkedParser.data with body := ascii ['h', 'i'] } []) ∧
      (∀ hist s, Run (ChunkStep (httpclientParser chunkedFields) 4096) firstLine hist s →
        ∀ t, LineTurn (httpclientParser chunkedFields) 4096 s t →
          SaysNothing (httpclientParser chunkedFields) chunkedParser.data t.data) ∧
      HeadKept (httpclientParser chunkedFields) 4096 firstLine
        (.ret { chunkedParser.data with body := ascii ['h', 'i'] } []) := by
  have hhead : (responseHead (httpclientParser chunkedFields) 4096 false).recvHead {} []
      [.data hiResponse] = some (.ret (firstLine.parser, firstLine.left) firstLine.reads) := by decide +kernel
  have h : recvResponse (httpclientParser chunkedFields) 4096 [.data hiResponse] =
      some (.ret { chunkedParser.data with body := ascii ['h', 'i'] } []) := by decide +kernel
  have hnothing := fun hist s hrun t ht => @saysNothing_hi hist s t hrun ht
  exact ⟨h, hnothing, (headKept_iff hhead rfl h).mpr hnothing⟩

def extendedResponse : Bytes := chunkedHead ++ ascii "5;foo=bar\r\nhello\r\n0\r\n\r\n".toList

/-- The extension is among the headers of the response. -/
theorem extension_stored :
    (responseHead (httpclientParser chunkedFields) 4096 false).recvHead {} [] [.data extendedResponse] =
        some (.ret (chunkedParser, extendedResponse.drop chunkedHead.length) []) ∧
      chunkedParser.chunked = true ∧
      ∃ response, recvResponse (httpclientParser chunkedFields) 4096 [.data extendedResponse] =
          some (.ret response []) ∧
        response.headers = (ascii "foo".toList, ascii "bar".toList) :: chunkedParser.data.headers ∧
        ¬ HeadKept (httpclientParser chunkedFields) 4096
          { parser := chunkedParser, left := extendedResponse.drop chunkedHead.length, reads := [] }
          (.ret response []) := by
  refine ⟨by decide +kernel, rfl, { chunkedParser.data with
    body := ascii "hello".toList
    headers := (ascii "foo".toList, ascii "bar".toList) :: chunkedParser.data.headers },
    by decide +kernel, rfl, fun hkept => ?_⟩
  have hsame := congrArg HttpResponse.headers (hkept.returned _ _ rfl)
  exact absurd hsame (List.cons_ne_self _ _)

end HttpConnection

end Azure
