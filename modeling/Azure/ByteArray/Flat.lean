import Azure.ByteArray.Model
import Azure.Reasoning.Runs

/-!
# The flat buffer

What a `ByteArray` is for: one byte sequence as long as the capacity, a position and a size.  Bytes
that no call has written are arbitrary, and so is how much the sequence grows when it has to.
-/

namespace Azure

open Reasoning

structure Flat where
  bytes : List UInt8
  position : Nat
  size : Nat

namespace Flat

def toString (f : Flat) : List UInt8 := slice f.bytes f.position (f.size - f.position)

/-- The sequence has room for `n` bytes from the position on, and grew only if it had to. -/
def Grown (n : Nat) (f g : Flat) : Prop :=
  ∃ junk, g = { f with bytes := f.bytes ++ junk } ∧
    f.position + n ≤ g.bytes.length ∧ (f.position + n ≤ f.bytes.length → junk = [])

/-- The windows follow one another from `start` on for `n` bytes, each inside its node. -/
def Covers (basesize : Nat) : Nat → List Iovec → Nat → Prop
  | _, [], n => n = 0
  | start, v :: vs, n =>
    v.node * basesize + v.base = start ∧ v.base + v.len ≤ basesize ∧ v.len ≤ n ∧
      Covers basesize (start + v.len) vs (n - v.len)

def Step (basesize : Nat) (f : Flat) (e : ByteArrayEvent) (f' : Flat) : Prop :=
  match e with
  | (.write _ buf, r) =>
    r = .done ∧ ∃ g, Grown buf.length f g ∧
      f' = {
        bytes := overwrite g.bytes f.position buf
        position := f.position + buf.length
        size := max f.size (f.position + buf.length) }
  | (.read n, r) =>
    if n > f.size - f.position then r = .outOfRange "not enough len" ∧ f' = f
    else r = .bytes (slice f.bytes f.position n) ∧ f' = { f with position := f.position + n }
  | (.setPosition v, r) =>
    if v > f.bytes.length then r = .outOfRange "setPosition out of range" ∧ f' = f
    else r = .done ∧ f' = { f with position := v, size := max f.size v }
  | (.clear, r) =>
    r = .done ∧ f' = { bytes := f.bytes.take basesize, position := 0, size := 0 }
  | (.getWriteBuffers _ n, r) =>
    ∃ iov, r = .buffers n iov ∧ Covers basesize f.position iov n ∧ Grown n f f'

end Flat

namespace ByteArray

def content (ns : List Node) : List UInt8 := ns.flatMap Node.ptr

def flat (b : ByteArray) : Flat where
  bytes := content b.nodes
  position := b.position
  size := b.size

end ByteArray

end Azure
