import Azure.Reasoning.WordBits
import Mathlib.Data.UInt

/-!
# IP addresses (`address.h`, `address.cpp`)

The socket addresses that `IPv4Address` and `IPv6Address` hold, with their words in network byte order,
and the functions that derive the addresses of a subnet from them.  A result of `none` is undefined
behaviour: a shift past the width of its type, signed overflow, or an index outside an array.
-/

namespace Azure

open Reasoning (Endian swapWord)

/-! ## Byte order (`endian_.h`) -/

def byteswapOnLittleEndian (host : Endian) (t : UInt32) : UInt32 :=
  match host with
  | .big => t
  | .little => ⟨swapWord 4 t.toBitVec⟩

def byteswapOnLittleEndian16 (host : Endian) (t : UInt16) : UInt16 :=
  match host with
  | .big => t
  | .little => ⟨swapWord 2 t.toBitVec⟩

theorem swap_swap16 (host : Endian) (t : UInt16) :
    byteswapOnLittleEndian16 host (byteswapOnLittleEndian16 host t) = t := by
  cases host with
  | little => exact UInt16.toBitVec_inj.mp (Reasoning.swapWord_swapWord (n := 2) t.toBitVec)
  | big => rfl

/-! ## Masks -/

/-- `CreateMask<T>(bits)` for a `T` of `size` bytes, as the `int` it is computed in:
`(1 << (sizeof(T) * 8 - bits)) - 1`.  The shift amount is a `size_t`, but 1 is an `int`, and shifting
it into the sign bit gives the least `int`.  `wraps` tells whether the compiler lets `int` wrap. -/
def createMask (wraps : Bool) (size : UInt64) (bits : UInt32) : Option Int :=
  let count := size * 8 - bits.toUInt64
  if 32 ≤ count then none
  else if count = 31 then
    if wraps then some (2 ^ 31 - 1) else none
  else some (2 ^ count.toNat - 1)

/-! ## IPv4 -/

def afInet : UInt16 := 2

/-- `m_addr` of an `IPv4Address`, a `sockaddr_in`; the port and the address are in network order. -/
structure IPv4Address where
  sinFamily : UInt16
  sinPort : UInt16
  sAddr : UInt32
  deriving DecidableEq, Repr

namespace IPv4Address

def create (host : Endian) (address : UInt32) (port : UInt16) : IPv4Address :=
  { sinFamily := afInet
    sinPort := byteswapOnLittleEndian16 host port
    sAddr := byteswapOnLittleEndian host address }

def getPort (host : Endian) (a : IPv4Address) : UInt16 :=
  byteswapOnLittleEndian16 host a.sinPort

section
variable (host : Endian) (wraps : Bool) (a : IPv4Address) (prefixLen : UInt32)

/-- The inner `none` is `nullptr`. -/
def broadcastAddress : Option (Option IPv4Address) :=
  if 32 < prefixLen then some none
  else (createMask wraps 4 prefixLen).map fun mask =>
    some { a with sAddr := a.sAddr ||| byteswapOnLittleEndian host (UInt32.ofInt mask) }

def networkAddress : Option (Option IPv4Address) :=
  if 32 < prefixLen then some none
  else (createMask wraps 4 prefixLen).map fun mask =>
    some { a with sAddr := a.sAddr &&& ~~~byteswapOnLittleEndian host (UInt32.ofInt mask) }

-- nothing is asked of the length here
def subnetMask : Option (Option IPv4Address) :=
  (createMask wraps 4 prefixLen).map fun mask =>
    some { sinFamily := afInet
           sinPort := 0
           sAddr := ~~~byteswapOnLittleEndian host (UInt32.ofInt mask) }

end

end IPv4Address

/-! ## IPv6 -/

def afInet6 : UInt16 := 10

/-- `m_addr` of an `IPv6Address`, a `sockaddr_in6` -/
structure IPv6Address where
  sin6Family : UInt16
  sin6Port : UInt16
  sin6Flowinfo : UInt32
  s6Addr : Vector UInt8 16
  sin6ScopeId : UInt32
  deriving DecidableEq, Repr

namespace IPv6Address

/-- The address of an `IPv6Address` that is cleared but for its family. -/
def cleared : IPv6Address :=
  { sin6Family := afInet6
    sin6Port := 0
    sin6Flowinfo := 0
    s6Addr := Vector.replicate 16 0
    sin6ScopeId := 0 }

def getPort (host : Endian) (a : IPv6Address) : UInt16 :=
  byteswapOnLittleEndian16 host a.sin6Port

/-- `for(i = first; i < first + count; ++i) s6_addr[i] = 0xff;` -/
def fill (bytes : Vector UInt8 16) (first : Nat) : Nat → Vector UInt8 16
  | 0 => bytes
  | count + 1 => fill (bytes.setIfInBounds first 0xff) (first + 1) count

section
variable (wraps : Bool) (a : IPv6Address) (prefixLen : UInt32)

/-- `s6_addr[prefix_len / 8]` is combined with `CreateMask<uint8_t>(prefix_len % 8)`. -/
def combineAt (f : UInt8 → UInt8 → UInt8) (bytes : Vector UInt8 16) : Option (Vector UInt8 16) :=
  let k := (prefixLen / 8).toNat
  if hk : k < 16 then
    (createMask wraps 1 (prefixLen % 8)).map fun mask =>
      bytes.set k (f bytes[k] (UInt8.ofInt mask))
  else none

def broadcastAddress : Option IPv6Address :=
  (combineAt wraps prefixLen (fun b mask => b ||| mask) a.s6Addr).map fun bytes =>
    { a with
      s6Addr := fill bytes ((prefixLen / 8).toNat + 1) (16 - ((prefixLen / 8).toNat + 1)) }

-- the mask is not inverted, and the bytes behind it are kept
def networkAddress : Option IPv6Address :=
  (combineAt wraps prefixLen (fun b mask => b &&& mask) a.s6Addr).map fun bytes =>
    { a with s6Addr := bytes }

def subnetMask : Option IPv6Address :=
  (combineAt wraps prefixLen (fun _ mask => ~~~mask) cleared.s6Addr).map fun bytes =>
    { cleared with s6Addr := fill bytes 0 (prefixLen / 8).toNat }

end

end IPv6Address

end Azure
