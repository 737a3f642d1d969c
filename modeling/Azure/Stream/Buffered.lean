import Azure.ByteArray.Buffers
import Azure.Stream.Transfer

/-!
# Streams of byte arrays (`socket_stream.cpp`, `stream.cpp`)

`read(ByteArray::ptr, size_t)` lets the socket fill the windows of a byte array and moves its position
behind what has come, `write(ByteArray::ptr, size_t)` sends what stands behind the position.  The loops
over them store and send what one `write` and one `read` of the byte array would.
-/

namespace Azure

open Reasoning

namespace SocketStream

/-- What a call of `read` finds: a socket that is not connected, or one whose `recv` fills the windows with
some bytes or has a result that is not positive. -/
inductive Incoming where
  | unconnected
  | data (bytes : List UInt8)
  | fail (rt : Int)
  deriving DecidableEq, Repr

def readBa (garbage : Garbage) (length : Nat) (socket : Incoming) : ByteArray.Call Int := fun ba =>
  match socket with
  | .unconnected => some (.ok (-1), ba)
  | .fail rt => do
    let (_, ba) ← ba.getWriteBuffers garbage length
    some (.ok rt, ba)
  | .data bytes => do
    let ((_, iovs), ba) ← ba.getWriteBuffers garbage length
    let ns ← scatter ba.nodes iovs bytes
    let ba := ba.withNodes ns
    let rt := bytes.length
    if rt > 0 then ((ByteArray.setPosition (ba.position + rt)).map fun _ => (rt : Int)) ba
    else some (.ok 0, ba)

/-- `write(ba, length)` with the result of `send`, unless the socket is not connected, and the bytes it has
taken.  The length becomes a `uint32_t`; without a window there is no `iovs[0]`. -/
def writeBa (length : Nat) (socket : Option Int) : ByteArray.Call (Int × List UInt8) := fun ba =>
  match socket with
  | none => some (.ok (-1, []), ba)
  | some rt => do
    let (_, iovs) ← ba.getReadBuffers (UInt32.ofNat length)
    if iovs = [] then none
    else do
      let bytes ← gather ba.nodes iovs
      if rt > 0 then
        ((ByteArray.setPosition (ba.position + rt.toNat)).map fun _ => (rt, bytes.take rt.toNat)) ba
      else some (.ok (rt, []), ba)

/-- The loop of `readFixSize(ba, length)`; it has no result while the last call has none. -/
def readLoop (length : Nat) : Nat → List (Garbage × Incoming) → ByteArray.Call (Option Int)
  | left, [] => fun ba => some (.ok (if left = 0 then some (intOfSize length) else none), ba)
  | left, (garbage, socket) :: sockets => fun ba =>
    if left = 0 then some (.ok (some (intOfSize length)), ba)
    else
      (readBa garbage left socket).bind (fun rt =>
        let len := sizeOfInt rt
        if len ≤ 0 then fun ba => some (.ok (some (intOfSize len)), ba)
        else readLoop length ((left + (2 ^ 64 - len)) % 2 ^ 64) sockets) ba

def writeLoop (length : Nat) : Nat → List (Option Int) → ByteArray.Call (Option Int × List UInt8)
  | left, [] => fun ba => some (.ok (if left = 0 then some (intOfSize length) else none, []), ba)
  | left, socket :: sockets => fun ba =>
    if left = 0 then some (.ok (some (intOfSize length), []), ba)
    else
      (writeBa left socket).bind (fun (rt, sent) =>
        let len := sizeOfInt rt
        if len ≤ 0 then fun ba => some (.ok (some (intOfSize len), sent), ba)
        else
          (writeLoop length ((left + (2 ^ 64 - len)) % 2 ^ 64) sockets).map fun (ret, more) =>
            (ret, sent ++ more)) ba

def readFixSizeBa (length : UInt64) : List (Garbage × Incoming) → ByteArray.Call (Option Int) :=
  readLoop length.toNat length.toNat

def writeFixSizeBa (length : UInt64) : List (Option Int) → ByteArray.Call (Option Int × List UInt8) :=
  writeLoop length.toNat length.toNat

end SocketStream

/-! ## What is stored -/

/-- Room for `n` bytes, and these stored at the position, which stands behind them then. -/
def Flat.Filled (n : Nat) (f : Flat) (data : List UInt8) (f' : Flat) : Prop :=
  ∃ g, Flat.Grown n f g ∧ f' = {
    bytes := overwrite g.bytes f.position data
    position := f.position + data.length
    size := max f.size (f.position + data.length) }

theorem Flat.Filled.append {n : Nat} {f g h : Flat} {data more : List UInt8}
    (hle : data.length + more.length ≤ n) (hfirst : Flat.Filled n f data g)
    (hmore : Flat.Filled (n - data.length) g more h) : Flat.Filled n f (data ++ more) h := by
  obtain ⟨f', ⟨junk, hf', hroom, hgrown⟩, rfl⟩ := hfirst
  obtain ⟨g', ⟨junk', hg', -, hsame⟩, rfl⟩ := hmore
  have hlen : (overwrite f'.bytes f.position data).length = f'.bytes.length :=
    length_overwrite (by omega)
  dsimp only at hsame hg'
  -- there has been room for all from the first call on
  have hjunk : junk' = [] := hsame (by omega)
  subst hjunk
  refine ⟨f', ⟨junk, hf', hroom, hgrown⟩, ?_⟩
  rw [hg', List.append_nil]
  dsimp only
  rw [overwrite_overwrite (by omega), List.length_append, Nat.max_assoc,
    Nat.max_eq_right (Nat.le_add_right _ more.length), Nat.add_assoc]

namespace ByteArray

structure Kept (b b' : ByteArray) : Prop where
  chained : Chained b'
  basesize : b'.basesize = b.basesize
  endian : b'.endian = b.endian

theorem Kept.trans {b c d : ByteArray} (h : Kept b c) (h' : Kept c d) : Kept b d where
  chained := h'.chained
  basesize := h'.basesize.trans h.basesize
  endian := h'.endian.trans h.endian

theorem Call.map_ok {α β : Type} {c : Call α} {b b' : ByteArray} {a : α} (f : α → β)
    (h : c b = some (.ok a, b')) : c.map f b = some (.ok (f a), b') := by
  rw [Call.map, h]
  rfl

theorem Call.bind_ok {α β : Type} {c : Call α} {b b' : ByteArray} {a : α} (f : α → Call β)
    (h : c b = some (.ok a, b')) : c.bind f b = f a b' := by
  rw [Call.bind, h]

/-- The bytes of the nodes do not count for the cursor. -/
theorem Chained.withNodes {b : ByteArray} (h : Chained b) {ns : List Node}
    (huniform : Uniform b.basesize ns) (hcount : ns.length = b.nodes.length) :
    Chained (b.withNodes ns) := by
  have hnodes : (b.withNodes ns).nodes = ns := List.take_append_drop _ _
  have hbefore : b.before.length ≤ ns.length := by
    rw [hcount, length_nodes]
    omega
  refine ⟨h.base_pos, ?_, ?_, ?_, h.position_le, h.size_le, ?_⟩
  · rw [hnodes]
    exact huniform
  · rw [hnodes, hcount]
    exact h.nonempty
  · rw [hnodes, hcount]
    exact h.capacity_eq
  · show (ns.take b.before.length).length = b.position / b.basesize
    rw [List.length_take_of_le hbefore, h.cursor]

theorem setPosition_kept {b : ByteArray} (h : Chained b) {v : Nat} (hv : v ≤ b.capacity) :
    ∃ b', b.setPosition v = some (.ok (), b') ∧ Kept b b' ∧
      b'.flat = { b.flat with position := v, size := max b.size v } := by
  have hlen : b.flat.bytes.length = b.capacity := h.length_content
  obtain ⟨r, b', hcall, hchained, hkept, hstep⟩ := setPosition_spec h v
  unfold Flat.Step at hstep
  dsimp only at hstep
  rw [if_neg (by omega)] at hstep
  refine ⟨b', ?_, ⟨hchained, hkept.1, hkept.2⟩, hstep.2⟩
  obtain ⟨⟨res, c⟩, hset, hreply⟩ := Option.map_eq_some_iff.mp hcall
  rw [hstep.1] at hreply
  cases res with
  | ok u =>
    cases hreply
    exact hset
  | error what => cases hreply

end ByteArray

namespace SocketStream

/-! ## Calls of the stream -/

open Azure.ByteArray

/-- `getWriteBuffers` has room for what it promises, and a `recv` that fills some of it stores the bytes. -/
theorem readBa_data {b : ByteArray} (h : Chained b) (garbage : Garbage) {length : Nat}
    (hsmall : length < 2 ^ 53) {bytes : List UInt8} (hpos : 1 ≤ bytes.length)
    (hle : bytes.length ≤ length) :
    ∃ b', readBa garbage length (.data bytes) b = some (.ok (bytes.length : Int), b') ∧ Kept b b' ∧
      Flat.Filled length b.flat bytes b'.flat := by
  obtain ⟨c, hadd, hc, hkept, hgrown⟩ := addCapacity_spec h garbage length (by omega) hsmall
  obtain ⟨iov, hbuffers, -⟩ := getWriteBuffers_of_grown (by omega) hadd hc hkept.1 hgrown
  obtain ⟨-, -, -, -, hcovers, hwindows⟩ := getWriteBuffers_some h (by omega) hbuffers
  have hflat := hgrown
  obtain ⟨junk, hcflat, hroom, -⟩ := hflat
  have hposition : c.position = b.position := congrArg Flat.position hcflat
  have hsize : c.size = b.size := congrArg Flat.size hcflat
  have hlen := hc.length_content
  have hroom' : b.position + length ≤ c.capacity := by
    rw [← hlen]
    exact hroom
  rw [← hkept.1] at hcovers
  obtain ⟨ns, hscatter, huniform, hcount, hcontent⟩ :=
    hcovers.scatter_eq hc.uniform hwindows (by rw [← hc.capacity_eq]; exact hroom') hle
  have hwith := hc.withNodes huniform hcount
  have hnodes : (c.withNodes ns).nodes = ns := List.take_append_drop _ _
  obtain ⟨b', hset, hb', hflat'⟩ := setPosition_kept hwith
    (show c.position + bytes.length ≤ c.capacity by omega)
  refine ⟨b', ?_, ⟨hb'.chained, hb'.basesize.trans hkept.1, hb'.endian.trans hkept.2⟩, c.flat, hgrown, ?_⟩
  · simp only [readBa, hbuffers, Option.bind_eq_bind, Option.bind_some, hscatter]
    rw [if_pos (show bytes.length > 0 from hpos)]
    exact Call.map_ok _ hset
  · rw [hflat']
    show Flat.mk (content (c.withNodes ns).nodes) (c.position + bytes.length)
      (max c.size (c.position + bytes.length)) = _
    rw [hnodes, hcontent, hposition, hsize]
    rfl

/-- Also a `recv` without bytes has found windows for them. -/
theorem readBa_fail {b : ByteArray} (h : Chained b) (garbage : Garbage) {length : Nat}
    (hpos : 1 ≤ length) (hsmall : length < 2 ^ 53) (rt : Int) :
    ∃ b', readBa garbage length (.fail rt) b = some (.ok rt, b') ∧ Kept b b' ∧
      Flat.Filled length b.flat [] b'.flat := by
  obtain ⟨c, hadd, hc, hkept, hgrown⟩ := addCapacity_spec h garbage length hpos hsmall
  obtain ⟨iov, hbuffers, -⟩ := getWriteBuffers_of_grown hpos hadd hc hkept.1 hgrown
  have hsize := h.position_le
  refine ⟨c, ?_, ⟨hc, hkept.1, hkept.2⟩, c.flat, hgrown, ?_⟩
  · simp only [readBa, hbuffers, Option.bind_eq_bind, Option.bind_some]
  · obtain ⟨junk, hflat, -, -⟩ := hgrown
    rw [hflat, overwrite_nil]
    show Flat.mk _ b.position b.size = Flat.mk _ (b.position + 0) (max b.size (b.position + 0))
    rw [Nat.add_zero, Nat.max_eq_left hsize]

/-! ## Loops -/

def incoming (pieces : List (Garbage × List UInt8)) : List (Garbage × Incoming) :=
  pieces.map fun p => (p.1, .data p.2)

/-- Numbers of bytes that `send` can take in one call. -/
def Counted (sizes : List Nat) : Prop := ∀ k ∈ sizes, 1 ≤ k ∧ k < 2 ^ 31

end SocketStream

end Azure
