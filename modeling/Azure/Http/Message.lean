import Mathlib.Algebra.Ring.Int.Defs
import Mathlib.Algebra.Ring.Nat
import Mathlib.Data.List.Basic
import Mathlib.Tactic.Common

/-!
# Messages (`http.h`, `http.cpp`)

Strings are lists of bytes.  The header map is ordered by `strcasecmp`, so that a header has one value
however its name is spelled.
-/

namespace Azure

/-- A `std::string`, or what lies behind a `const char*` up to the end of its buffer. -/
abbrev Bytes := List UInt8

def ascii (s : List Char) : Bytes := s.map fun c => c.toNat.toUInt8

/-! ## The C library -/

def cStr (s : Bytes) : Bytes := s.takeWhile (· ≠ 0)

def tolower (b : UInt8) : UInt8 := if 65 ≤ b ∧ b ≤ 90 then b + 32 else b

def isspace (b : UInt8) : Bool := b = 32 ∨ 9 ≤ b ∧ b ≤ 13

def isdigit (b : UInt8) : Bool := 48 ≤ b ∧ b ≤ 57

/-- `strcasecmp(lhs, rhs) == 0` -/
def strcaseeq (lhs rhs : Bytes) : Bool := (cStr lhs).map tolower = (cStr rhs).map tolower

/-- `strncmp(lhs, rhs, n) == 0`; a buffer that ends is followed by a NUL. -/
def strneq : Bytes → Bytes → Nat → Bool
  | _, _, 0 => true
  | lhs, rhs, n + 1 =>
    let a := lhs.headD 0
    let b := rhs.headD 0
    a = b && (a = 0 || strneq lhs.tail rhs.tail n)

def digitOf (b : UInt8) : Option Nat :=
  if 48 ≤ b ∧ b ≤ 57 then some (b.toNat - 48)
  else if 65 ≤ b ∧ b ≤ 90 then some (b.toNat - 55)
  else if 97 ≤ b ∧ b ≤ 122 then some (b.toNat - 87)
  else none

def leadingDigits (base acc : Nat) : Bytes → Nat
  | [] => acc
  | b :: bs =>
    match digitOf b with
    | some d => if d < base then leadingDigits base (acc * base + d) bs else acc
    | none => acc

/-- The prefix that `strtol` skips for base 16. -/
def skipHexPrefix (s : Bytes) : Bytes :=
  match s with
  | z :: x :: d :: rest =>
    if z = 48 ∧ (x = 120 ∨ x = 88) ∧ (digitOf d).any (· < 16) then d :: rest else s
  | _ => s

/-- `strtol(s, NULL, base)` with a `long` of 64 bits. -/
def strtol (base : Nat) (s : Bytes) : Int :=
  let s := s.dropWhile isspace
  let negative := s.head? = some 45
  let s := if s.head? = some 45 ∨ s.head? = some 43 then s.tail else s
  let n : Int := leadingDigits base 0 (if base = 16 then skipHexPrefix s else s)
  -- the value is cut at the ends of `long`
  if negative then max (-n) (-2 ^ 63) else min n (2 ^ 63 - 1)

def intOfLong (n : Int) : Int := n.bmod (2 ^ 32)

def atoi (s : Bytes) : Int := intOfLong (strtol 10 s)

/-- What a string of digits only stands for, if it fits in a `uint64_t`. -/
def unsignedOf (s : Bytes) : Option UInt64 :=
  if s ≠ [] ∧ s.all isdigit ∧ leadingDigits 10 0 s < 2 ^ 64 then
    some (UInt64.ofNat (leadingDigits 10 0 s))
  else none

/-- `boost::lexical_cast<uint64_t>`: a sign is allowed, and a minus wraps. -/
def lexicalCast (s : Bytes) : Option UInt64 :=
  if s.head? = some 45 then (unsignedOf s.tail).map fun n => 0 - n
  else if s.head? = some 43 then unsignedOf s.tail
  else unsignedOf s

/-! ## Headers -/

def caseInsensitiveLess (lhs rhs : Bytes) : Bool :=
  (cStr lhs).map tolower < (cStr rhs).map tolower

/-- `std::map<std::string, std::string, CaseInsensitiveLess>`, in order. -/
abbrev HeaderMap := List (Bytes × Bytes)

namespace HeaderMap

/-- `m_headers[key] = val`: an equivalent key stays as it is. -/
def set (key val : Bytes) : HeaderMap → HeaderMap
  | [] => [(key, val)]
  | (k, v) :: rest =>
    if caseInsensitiveLess k key then (k, v) :: set key val rest
    else if caseInsensitiveLess key k then (key, val) :: (k, v) :: rest
    else (k, val) :: rest

def find (key : Bytes) (m : HeaderMap) : Option Bytes :=
  (List.find? (fun e => !caseInsensitiveLess e.1 key && !caseInsensitiveLess key e.1) m).map Prod.snd

def erase (key : Bytes) (m : HeaderMap) : HeaderMap :=
  m.filter fun e => caseInsensitiveLess e.1 key || caseInsensitiveLess key e.1

/-- `getHeaderAs<uint64_t>("content-length", 0)` -/
def contentLength (m : HeaderMap) : UInt64 :=
  ((m.find (ascii ['c', 'o', 'n', 't', 'e', 'n', 't', '-', 'l', 'e', 'n', 'g', 't', 'h'])).bind
    lexicalCast).getD 0

end HeaderMap

/-! ## Methods -/

inductive HttpMethod where
  | delete | get | head | post | put
  | connect | options | trace
  | copy | lock | mkcol | move | propfind | proppatch | search | unlock | bind | rebind | unbind
  | acl
  | report | mkactivity | checkout | merge
  | msearch | notify | subscribe | unsubscribe
  | patch | purge
  | mkcalendar
  | link | unlink
  | source
  /-- `HTTP_INVALID_METHOD` -/
  | invalid
  deriving DecidableEq, Repr

namespace HttpMethod

/-- `HTTP_METHOD_MAP`, with the strings. -/
def map : List (HttpMethod × Bytes) := [
  (delete, ascii ['D', 'E', 'L', 'E', 'T', 'E']),
  (get, ascii ['G', 'E', 'T']),
  (head, ascii ['H', 'E', 'A', 'D']),
  (post, ascii ['P', 'O', 'S', 'T']),
  (put, ascii ['P', 'U', 'T']),
  (connect, ascii ['C', 'O', 'N', 'N', 'E', 'C', 'T']),
  (options, ascii ['O', 'P', 'T', 'I', 'O', 'N', 'S']),
  (trace, ascii ['T', 'R', 'A', 'C', 'E']),
  (copy, ascii ['C', 'O', 'P', 'Y']),
  (lock, ascii ['L', 'O', 'C', 'K']),
  (mkcol, ascii ['M', 'K', 'C', 'O', 'L']),
  (move, ascii ['M', 'O', 'V', 'E']),
  (propfind, ascii ['P', 'R', 'O', 'P', 'F', 'I', 'N', 'D']),
  (proppatch, ascii ['P', 'R', 'O', 'P', 'P', 'A', 'T', 'C', 'H']),
  (search, ascii ['S', 'E', 'A', 'R', 'C', 'H']),
  (unlock, ascii ['U', 'N', 'L', 'O', 'C', 'K']),
  (bind, ascii ['B', 'I', 'N', 'D']),
  (rebind, ascii ['R', 'E', 'B', 'I', 'N', 'D']),
  (unbind, ascii ['U', 'N', 'B', 'I', 'N', 'D']),
  (acl, ascii ['A', 'C', 'L']),
  (report, ascii ['R', 'E', 'P', 'O', 'R', 'T']),
  (mkactivity, ascii ['M', 'K', 'A', 'C', 'T', 'I', 'V', 'I', 'T', 'Y']),
  (checkout, ascii ['C', 'H', 'E', 'C', 'K', 'O', 'U', 'T']),
  (merge, ascii ['M', 'E', 'R', 'G', 'E']),
  (msearch, ascii ['M', '-', 'S', 'E', 'A', 'R', 'C', 'H']),
  (notify, ascii ['N', 'O', 'T', 'I', 'F', 'Y']),
  (subscribe, ascii ['S', 'U', 'B', 'S', 'C', 'R', 'I', 'B', 'E']),
  (unsubscribe, ascii ['U', 'N', 'S', 'U', 'B', 'S', 'C', 'R', 'I', 'B', 'E']),
  (patch, ascii ['P', 'A', 'T', 'C', 'H']),
  (purge, ascii ['P', 'U', 'R', 'G', 'E']),
  (mkcalendar, ascii ['M', 'K', 'C', 'A', 'L', 'E', 'N', 'D', 'A', 'R']),
  (link, ascii ['L', 'I', 'N', 'K']),
  (unlink, ascii ['U', 'N', 'L', 'I', 'N', 'K']),
  (source, ascii ['S', 'O', 'U', 'R', 'C', 'E'])]

/-- `CharsToHttpMethod`; `none` is `HTTP_INVALID_METHOD`. -/
def ofChars (m : Bytes) : Option HttpMethod :=
  (map.find? fun e => e.2.isPrefixOf m).map Prod.fst

end HttpMethod

/-! ## Requests and responses -/

structure HttpRequest where
  method : HttpMethod := .get
  version : UInt8 := 0x11
  close : Bool := true
  path : Bytes := ascii ['/']
  query : Bytes := []
  fragment : Bytes := []
  body : Bytes := []
  headers : HeaderMap := []
  params : HeaderMap := []
  cookies : HeaderMap := []
  deriving DecidableEq, Repr

structure HttpResponse where
  status : Int := 200
  version : UInt8 := 0x11
  close : Bool := true
  body : Bytes := []
  reason : Bytes := []
  headers : HeaderMap := []
  deriving DecidableEq, Repr

end Azure
