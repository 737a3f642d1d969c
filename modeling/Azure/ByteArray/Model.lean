import Azure.Reasoning.Binary64
import Azure.Reasoning.ByteOrder
import Azure.Reasoning.Overwrite

/-!
# The segmented buffer (`bytearray.h`, `bytearray.cpp`)

A `ByteArray` is a chain of nodes and a cursor into it.  The chain is kept as the nodes before
`m_cur` and the nodes from `m_cur` on, so a cursor outside the chain cannot be built and a null
`m_cur` is an empty second part.  A function that follows a null pointer or copies past the end of a
node has no result; a function that throws returns the text of its `std::out_of_range` and the
object as it is then.  Counters are naturals; only the subtractions of `size_t` wrap.
-/

namespace Azure

open Reasoning

def sizeSub (a b : Nat) : Nat := if b ≤ a then a - b else a + 2 ^ 64 - b

structure Node where
  size : Nat
  ptr : List UInt8
  length_ptr : ptr.length = size

/-- `new Node(s)`; the bytes of `new char[s]` are whatever was there. -/
def Node.new (s : Nat) (garbage : Nat → UInt8) : Node where
  size := s
  ptr := (List.range s).map garbage
  length_ptr := by simp

/-- `memcpy(ptr + npos, src, src.size())`, inside the node only. -/
def Node.store (node : Node) (npos : Nat) (src : List UInt8) : Option Node :=
  if h : npos + src.length ≤ node.size then
    some {
      size := node.size
      ptr := overwrite node.ptr npos src
      length_ptr := by
        rw [length_overwrite (by rw [node.length_ptr]; exact h), node.length_ptr] }
  else none

/-- `memcpy(dst, ptr + npos, len)`, inside the node only. -/
def Node.load (node : Node) (npos len : Nat) : Option (List UInt8) :=
  if npos + len ≤ node.size then some (slice node.ptr npos len) else none

/-- What `new Node` finds in the memory it gets: by node created in one call, and offset. -/
abbrev Garbage := Nat → Nat → UInt8

structure ByteArray where
  basesize : Nat
  position : Nat := 0
  capacity : Nat
  size : Nat := 0
  endian : Endian := .big
  before : List Node := []
  after : List Node

/-- An `iovec`: a window of a node, which is named by its place in the chain. -/
structure Iovec where
  node : Nat
  base : Nat
  len : Nat
  deriving DecidableEq, Repr

namespace ByteArray

abbrev Call (α : Type) := ByteArray → Option (Except String α × ByteArray)

def nodes (b : ByteArray) : List Node := b.before ++ b.after

def new (basesize : Nat) (garbage : Nat → UInt8) : ByteArray where
  basesize := basesize
  capacity := basesize
  after := [Node.new basesize garbage]

def getReadSize (b : ByteArray) : Nat := sizeSub b.size b.position

def getCapacity (b : ByteArray) : Nat := sizeSub b.capacity b.position

def clear (b : ByteArray) : Option ByteArray :=
  match b.nodes with
  | [] => none
  | root :: _ =>
    some { b with position := 0, size := 0, capacity := b.basesize, before := [], after := [root] }

/-- `ceil(1.0 * size / m_basesize)` -/
def growthCount (size basesize : Nat) : Nat :=
  ⌈Binary64.div (Binary64.mul 1 (Binary64.ofNat size)) (Binary64.ofNat basesize)⌉.toNat

/-- `addCapacity`: the new nodes go to the end of the chain, and the cursor moves to the first of
them exactly when no capacity was left. -/
def addCapacity (garbage : Garbage) (size : Nat) (b : ByteArray) : Option ByteArray :=
  if size = 0 then some b
  else
    let oldCap := b.getCapacity
    if oldCap ≥ size then some b
    -- a chain without a first node has nowhere to put the new ones
    else if b.nodes = [] then none
    else
      let count := growthCount (sizeSub size oldCap) b.basesize
      let new := (List.range count).map fun i => Node.new b.basesize (garbage i)
      let b := { b with capacity := b.capacity + count * b.basesize }
      -- `m_cur` was null, or at least at the end: it is set to the first new node
      if oldCap = 0 then some { b with before := b.before ++ b.after, after := new }
      else if b.after = [] then some { b with before := b.before ++ new }
      else some { b with after := b.after ++ new }

/-- The loop of `write`, at a node with `ncap = size - npos` bytes left. -/
def writeLoop (before : List Node) :
    List Node → Nat → Nat → List UInt8 → Option (List Node × List Node × Nat)
  | [], _, _, _ => none
  | cur :: next, npos, position, buf =>
    let ncap := sizeSub cur.size npos
    if ncap ≥ buf.length then do
      let cur ← cur.store npos buf
      -- the cursor leaves a node that is full
      if cur.size = npos + buf.length then some (before ++ [cur], next, position + buf.length)
      else some (before, cur :: next, position + buf.length)
    else do
      let cur ← cur.store npos (buf.take ncap)
      writeLoop (before ++ [cur]) next 0 (position + ncap) (buf.drop ncap)

def write (garbage : Garbage) (buf : List UInt8) (b : ByteArray) : Option ByteArray :=
  if buf.length = 0 then some b
  else do
    let b ← b.addCapacity garbage buf.length
    let npos := b.position % b.basesize
    let (before, after, position) ← writeLoop b.before b.after npos b.position buf
    let b := { b with before, after, position }
    -- `m_size` only grows
    some (if b.position > b.size then { b with size := b.position } else b)

def readLoop (before : List Node) :
    List Node → Nat → Nat → Nat → List UInt8 → Option (List UInt8 × List Node × List Node × Nat)
  | [], _, _, _, _ => none
  | cur :: next, npos, position, size, buf =>
    let ncap := sizeSub cur.size npos
    if ncap ≥ size then do
      let chunk ← cur.load npos size
      if cur.size = npos + size then some (buf ++ chunk, before ++ [cur], next, position + size)
      else some (buf ++ chunk, before, cur :: next, position + size)
    else do
      let chunk ← cur.load npos ncap
      readLoop (before ++ [cur]) next 0 (position + ncap) (size - ncap) (buf ++ chunk)

/-- `read(buf, size)`.  `m_cur->size` is read before the loop, also for `size == 0`. -/
def read (size : Nat) : Call (List UInt8) := fun b =>
  if size > b.getReadSize then some (.error "not enough len", b)
  else
    match b.after with
    -- a null `m_cur` is followed for its size
    | [] => none
    | _ :: _ =>
      if size = 0 then some (.ok [], b)
      else do
        let (buf, before, after, position) ←
          readLoop b.before b.after (b.position % b.basesize) b.position size []
        some (.ok buf, { b with before, after, position })

/-- `read(buf, size, position)`, which starts at `m_cur` and leaves the object as it is. -/
def readAt (size position : Nat) (b : ByteArray) : Option (Except String (List UInt8)) :=
  if size > sizeSub b.size position then some (.error "not enough len")
  else
    match b.after with
    | [] => none
    | _ :: _ =>
      if size = 0 then some (.ok [])
      else do
        let (buf, _) ← readLoop b.before b.after (position % b.basesize) position size []
        some (.ok buf)

/-- The walk of `setPosition` from `m_root`. -/
def seek (before : List Node) : List Node → Nat → Option (List Node × List Node)
  | [], _ => none
  | cur :: next, v =>
    if v > cur.size then seek (before ++ [cur]) next (sizeSub v cur.size)
    else if v = cur.size then some (before ++ [cur], next)
    else some (before, cur :: next)

def setPosition (v : Nat) : Call Unit := fun b =>
  if v > b.capacity then some (.error "setPosition out of range", b)
  else do
    let b := { b with position := v }
    -- a position behind the size makes the bytes up to it count as data
    let b := if b.position > b.size then { b with size := b.position } else b
    let (before, after) ← seek [] b.nodes v
    some (.ok (), { b with before, after })

def toString (b : ByteArray) : Option (Except String (List UInt8)) :=
  let size := b.getReadSize
  if size = 0 then some (.ok []) else b.readAt size b.position

/-- The loop of `getWriteBuffers`, at the node number `node`. -/
def buffersLoop : Nat → List Node → Nat → Nat → Option (List Iovec)
  | _, [], _, _ => none
  | node, cur :: next, npos, len =>
    let ncap := sizeSub cur.size npos
    if ncap ≥ len then some [{ node, base := npos, len }]
    else do
      let rest ← buffersLoop (node + 1) next 0 (len - ncap)
      some ({ node, base := npos, len := ncap } :: rest)

def getWriteBuffers (garbage : Garbage) (len : Nat) (b : ByteArray) :
    Option ((Nat × List Iovec) × ByteArray) :=
  if len = 0 then some ((0, []), b)
  else do
    let b ← b.addCapacity garbage len
    let buffers ← buffersLoop b.before.length b.after (b.position % b.basesize) len
    some ((len, buffers), b)

end ByteArray

/-! ## Runs -/

/-- A public call; the allocating ones come with what `new` finds in memory. -/
inductive ByteArrayOp where
  | write (garbage : Garbage) (buf : List UInt8)
  | read (size : Nat)
  | setPosition (v : Nat)
  | clear
  | getWriteBuffers (garbage : Garbage) (len : Nat)

inductive ByteArrayReply where
  | done
  | bytes (buf : List UInt8)
  | buffers (total : Nat) (iov : List Iovec)
  | outOfRange (what : String)
  deriving DecidableEq, Repr

abbrev ByteArrayEvent := ByteArrayOp × ByteArrayReply

namespace ByteArray

def reply {α : Type} (f : α → ByteArrayReply) : Except String α × ByteArray →
    ByteArrayReply × ByteArray
  | (.ok a, b) => (f a, b)
  | (.error what, b) => (.outOfRange what, b)

def call (b : ByteArray) : ByteArrayOp → Option (ByteArrayReply × ByteArray)
  | .write garbage buf => (b.write garbage buf).map fun b => (.done, b)
  | .read size => (b.read size).map (reply .bytes)
  | .setPosition v => (b.setPosition v).map (reply fun _ => .done)
  | .clear => b.clear.map fun b => (.done, b)
  | .getWriteBuffers garbage len =>
    (b.getWriteBuffers garbage len).map fun r => (.buffers r.1.1 r.1.2, r.2)

def Step (b : ByteArray) (e : ByteArrayEvent) (b' : ByteArray) : Prop :=
  b.call e.1 = some (e.2, b')

end ByteArray

end Azure
