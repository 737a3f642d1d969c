import Azure.ByteArray.Refinement
import Mathlib.Data.BitVec

/-!
# The numeric codec (`bytearray.cpp`)

The typed writers and readers.  A number is its bit pattern: signed arithmetic wraps, and `float`
and `double` are the words `memcpy` makes of them.  `host` is `AZURE_BYTE_ORDER`.
-/

namespace Azure

open Reasoning

namespace ByteArray

/-! ## Calls in sequence -/

def Call.map {α β : Type} (f : α → β) (c : Call α) : Call β := fun b =>
  (c b).map fun r => (r.1.map f, r.2)

def Call.bind {α β : Type} (c : Call α) (f : α → Call β) : Call β := fun b =>
  match c b with
  | none => none
  | some (.error what, b) => some (.error what, b)
  | some (.ok a, b) => f a b

/-! ## Fixed width -/

def setIsLittleEndian (val : Bool) (b : ByteArray) : ByteArray :=
  { b with endian := if val then .little else .big }

/-- The body of the `writeF*` of more than one byte. -/
def writeF (host : Endian) (n : Nat) (garbage : Garbage) (value : Nat) (b : ByteArray) :
    Option ByteArray :=
  let value := if b.endian ≠ host then byteswap n value else value
  b.write garbage (memory host n value)

/-- The macro `XX` of the `readF*` of more than one byte, which tests for big endian. -/
def readF (host : Endian) (n : Nat) : Call Nat :=
  (read n).bind fun buf b =>
    let v := ofMemory host buf
    some (.ok (if b.endian = .big then byteswap n v else v), b)

def writeFint8 (host : Endian) (garbage : Garbage) (value : BitVec 8) : ByteArray → Option ByteArray :=
  write garbage (memory host 1 value.toNat)

def writeFuint8 (host : Endian) (garbage : Garbage) (value : BitVec 8) : ByteArray → Option ByteArray :=
  write garbage (memory host 1 value.toNat)

def writeFint16 (host : Endian) (garbage : Garbage) (value : BitVec 16) :=
  writeF host 2 garbage value.toNat

def writeFuint16 (host : Endian) (garbage : Garbage) (value : BitVec 16) :=
  writeF host 2 garbage value.toNat

def writeFint32 (host : Endian) (garbage : Garbage) (value : BitVec 32) :=
  writeF host 4 garbage value.toNat

def writeFuint32 (host : Endian) (garbage : Garbage) (value : BitVec 32) :=
  writeF host 4 garbage value.toNat

def writeFint64 (host : Endian) (garbage : Garbage) (value : BitVec 64) :=
  writeF host 8 garbage value.toNat

def writeFuint64 (host : Endian) (garbage : Garbage) (value : BitVec 64) :=
  writeF host 8 garbage value.toNat

def readFint8 (host : Endian) : Call (BitVec 8) :=
  (read 1).map fun buf => BitVec.ofNat 8 (ofMemory host buf)

def readFuint8 (host : Endian) : Call (BitVec 8) :=
  (read 1).map fun buf => BitVec.ofNat 8 (ofMemory host buf)

def readFint16 (host : Endian) : Call (BitVec 16) := (readF host 2).map (BitVec.ofNat 16)

def readFuint16 (host : Endian) : Call (BitVec 16) := (readF host 2).map (BitVec.ofNat 16)

def readFint32 (host : Endian) : Call (BitVec 32) := (readF host 4).map (BitVec.ofNat 32)

def readFuint32 (host : Endian) : Call (BitVec 32) := (readF host 4).map (BitVec.ofNat 32)

def readFint64 (host : Endian) : Call (BitVec 64) := (readF host 8).map (BitVec.ofNat 64)

def readFuint64 (host : Endian) : Call (BitVec 64) := (readF host 8).map (BitVec.ofNat 64)

/-! ## Zigzag and varints -/

def encodeZigzag {w : Nat} (v : BitVec w) : BitVec w := if v.msb then (-v) * 2 - 1 else v * 2

def decodeZigzag {w : Nat} (v : BitVec w) : BitVec w := (v >>> 1) ^^^ -(v &&& 1)

def encodeZigzag32 (v : BitVec 32) : BitVec 32 := encodeZigzag v

def encodeZigzag64 (v : BitVec 64) : BitVec 64 := encodeZigzag v

def decodeZigzag32 (v : BitVec 32) : BitVec 32 := decodeZigzag v

def decodeZigzag64 (v : BitVec 64) : BitVec 64 := decodeZigzag v

/-- The bytes the loop of `writeUint32` and `writeUint64` puts into `tmp`; no result when `tmp` has
no room for the next one. -/
def varintBytes {w : Nat} : Nat → BitVec w → Option (List UInt8)
  | 0, _ => none
  | room + 1, value =>
    if value.toNat ≥ 0x80 then
      (varintBytes room (value >>> 7)).map
        (UInt8.ofNat ((value.toNat &&& 0x7f) ||| 0x80) :: ·)
    else some [UInt8.ofNat value.toNat]

/-- The loop of `readUint32` and `readUint64`; `turns` bounds the turns still to come. -/
def readVarint {w : Nat} (host : Endian) : Nat → Nat → BitVec w → Call (BitVec w)
  | 0, _, result => fun b => some (.ok result, b)
  | turns + 1, i, result =>
    if i < w then
      (readFuint8 host).bind fun byte =>
        if byte.toNat < 0x80 then fun b => some (.ok (result ||| (byte.setWidth w <<< i)), b)
        else readVarint host turns (i + 7) (result ||| ((byte &&& 0x7f).setWidth w <<< i))
    else fun b => some (.ok result, b)

def writeUint32 (garbage : Garbage) (value : BitVec 32) (b : ByteArray) : Option ByteArray := do
  b.write garbage (← varintBytes 5 value)

def writeInt32 (garbage : Garbage) (value : BitVec 32) : ByteArray → Option ByteArray :=
  writeUint32 garbage (encodeZigzag32 value)

def writeUint64 (garbage : Garbage) (value : BitVec 64) (b : ByteArray) : Option ByteArray := do
  b.write garbage (← varintBytes 10 value)

def writeInt64 (garbage : Garbage) (value : BitVec 64) : ByteArray → Option ByteArray :=
  writeUint64 garbage (encodeZigzag64 value)

/-- `for(int i = 0; i < 32; i += 7)` takes at most five turns. -/
def readUint32 (host : Endian) : Call (BitVec 32) := readVarint host 5 0 0

def readInt32 (host : Endian) : Call (BitVec 32) := (readUint32 host).map decodeZigzag32

/-- `for(int i = 0; i < 64; i += 7)` takes at most ten turns. -/
def readUint64 (host : Endian) : Call (BitVec 64) := readVarint host 10 0 0

def readInt64 (host : Endian) : Call (BitVec 64) := (readUint64 host).map decodeZigzag64

def writeFloat (host : Endian) (garbage : Garbage) (value : BitVec 32) :=
  writeFint32 host garbage value

def writeDouble (host : Endian) (garbage : Garbage) (value : BitVec 64) :=
  writeFint64 host garbage value

def readFloat (host : Endian) : Call (BitVec 32) := readFuint32 host

def readDouble (host : Endian) : Call (BitVec 64) := readFuint64 host

/-! ## Sequences of values -/

inductive Kind where
  | fint8 | fuint8 | fint16 | fuint16 | fint32 | fuint32 | fint64 | fuint64
  | int32 | uint32 | int64 | uint64 | float | double
  deriving DecidableEq, Repr

def Kind.width : Kind → Nat
  | .fint8 | .fuint8 => 8
  | .fint16 | .fuint16 => 16
  | .fint32 | .fuint32 | .int32 | .uint32 | .float => 32
  | .fint64 | .fuint64 | .int64 | .uint64 | .double => 64

abbrev Value := (k : Kind) × BitVec k.width

def writeValue (host : Endian) (garbage : Garbage) : Value → ByteArray → Option ByteArray
  | ⟨.fint8, v⟩ => writeFint8 host garbage v
  | ⟨.fuint8, v⟩ => writeFuint8 host garbage v
  | ⟨.fint16, v⟩ => writeFint16 host garbage v
  | ⟨.fuint16, v⟩ => writeFuint16 host garbage v
  | ⟨.fint32, v⟩ => writeFint32 host garbage v
  | ⟨.fuint32, v⟩ => writeFuint32 host garbage v
  | ⟨.fint64, v⟩ => writeFint64 host garbage v
  | ⟨.fuint64, v⟩ => writeFuint64 host garbage v
  | ⟨.int32, v⟩ => writeInt32 garbage v
  | ⟨.uint32, v⟩ => writeUint32 garbage v
  | ⟨.int64, v⟩ => writeInt64 garbage v
  | ⟨.uint64, v⟩ => writeUint64 garbage v
  | ⟨.float, v⟩ => writeFloat host garbage v
  | ⟨.double, v⟩ => writeDouble host garbage v

def readValue (host : Endian) : (k : Kind) → Call (BitVec k.width)
  | .fint8 => readFint8 host
  | .fuint8 => readFuint8 host
  | .fint16 => readFint16 host
  | .fuint16 => readFuint16 host
  | .fint32 => readFint32 host
  | .fuint32 => readFuint32 host
  | .fint64 => readFint64 host
  | .fuint64 => readFuint64 host
  | .int32 => readInt32 host
  | .uint32 => readUint32 host
  | .int64 => readInt64 host
  | .uint64 => readUint64 host
  | .float => readFloat host
  | .double => readDouble host

def writeAll (host : Endian) : List (Garbage × Value) → ByteArray → Option ByteArray
  | [], b => some b
  | (garbage, v) :: vs, b => do writeAll host vs (← writeValue host garbage v b)

def readAll (host : Endian) : List Kind → Call (List Value)
  | [] => fun b => some (.ok [], b)
  | k :: ks => (readValue host k).bind fun v => (readAll host ks).map (⟨k, v⟩ :: ·)

end ByteArray

end Azure
