import Azure.Http.Message
import Azure.Reasoning.Scanner

/-!
# Parsers (`http_parser.cpp`, `http11_parser.rl`, `httpclient_parser.rl`)

The two machines are scanners.  The table of the request machine is spelled out from the version on,
that of the response machine up to the reason phrase; the transitions of the method and the URI, and
those of the headers of a response, are parameters.  Each call of `execute` scans one buffer, and sets
the positions it has stored to the start of the buffer before it does.
-/

namespace Azure

open Reasoning

/-- `LEN(AT, FPC)`: a `size_t` wraps below zero. -/
def tokenLen (at_ fpc : Nat) : Nat := if at_ ≤ fpc then fpc - at_ else fpc + 2 ^ 64 - at_

/-- `std::string(buffer + at, length)`; it throws for a length that no string has. -/
def tokenString (buffer : Bytes) (at_ len : Nat) : Option Bytes :=
  if at_ + len ≤ buffer.length then some ((buffer.drop at_).take len) else none

def http11 : Bytes := ascii ['H', 'T', 'T', 'P', '/', '1', '.', '1']
def http10 : Bytes := ascii ['H', 'T', 'T', 'P', '/', '1', '.', '0']

/-- `on_request_version` and `on_response_version`; `none` is an invalid version. -/
def versionOf (at_ : Bytes) (len : Nat) : Option UInt8 :=
  if strneq at_ http11 len then some 0x11
  else if strneq at_ http10 len then some 0x10
  else none

/-! ## Requests -/

/-- The actions of `http11_parser.rl`. -/
inductive RequestAction where
  | mark
  | startField
  | writeField
  | startValue
  | writeValue
  | requestMethod
  | requestUri
  | fragment
  | startQuery
  | queryString
  | httpVersion
  | requestPath
  | done
  | xml
  | json
  deriving DecidableEq, Repr

/-- `http_parser` and `HttpRequestParser`; `http_parser_init` leaves `query_start` as it is. -/
structure HttpRequestParser where
  cs : Nat := 1
  mark : Nat := 0
  fieldStart : Nat := 0
  fieldLen : Nat := 0
  queryStart : Option Nat := none
  data : HttpRequest := {}
  error : Int := 0
  deriving DecidableEq, Repr

namespace HttpRequestParser

/-- An action at the position `fpc` of the buffer, with the callback it calls. -/
def act (buffer : Bytes) (fpc : Nat) (a : RequestAction) (x : HttpRequestParser) :
    Option HttpRequestParser :=
  match a with
  | .mark | .startValue => some { x with mark := fpc }
  | .startField => some { x with fieldStart := fpc }
  | .writeField => some { x with fieldLen := tokenLen x.fieldStart fpc }
  | .writeValue =>
    if x.fieldLen = 0 then some x
    else
      (tokenString buffer x.fieldStart x.fieldLen).bind fun field =>
        (tokenString buffer x.mark (tokenLen x.mark fpc)).map fun value =>
          { x with data := { x.data with headers := x.data.headers.set field value } }
  | .requestMethod =>
    match HttpMethod.ofChars (buffer.drop x.mark) with
    | none => some { x with error := 1000 }
    | some m => some { x with data := { x.data with method := m } }
  | .fragment =>
    (tokenString buffer x.mark (tokenLen x.mark fpc)).map fun v =>
      { x with data := { x.data with fragment := v } }
  | .startQuery => some { x with queryStart := some fpc }
  | .queryString =>
    x.queryStart.bind fun start =>
      (tokenString buffer start (tokenLen start fpc)).map fun v =>
        { x with data := { x.data with query := v } }
  | .httpVersion =>
    match versionOf (buffer.drop x.mark) (tokenLen x.mark fpc) with
    | none => some { x with error := 1001 }
    | some v => some { x with data := { x.data with version := v } }
  | .requestPath =>
    (tokenString buffer x.mark (tokenLen x.mark fpc)).map fun v =>
      { x with data := { x.data with path := v } }
  -- `on_request_uri` and `on_request_header_done` do nothing
  | .requestUri | .done | .xml | .json => some x

/-- `execute`, with the number of bytes it has taken; `none` when an exception leaves it. -/
def execute (M : Scanner Nat RequestAction) (x : HttpRequestParser) (data : Bytes) :
    Option (Nat × HttpRequestParser) :=
  if data = [] then some (0, x)
  else
    (M.scan (act data) 0 x.cs { x with mark := 0, fieldLen := 0, fieldStart := 0 } data).map
      fun r => (r.1, { r.2.2 with cs := r.2.1 })

def hasError (M : Scanner Nat RequestAction) (x : HttpRequestParser) : Bool :=
  x.error ≠ 0 || M.isError x.cs

def isFinished (M : Scanner Nat RequestAction) (x : HttpRequestParser) : Bool :=
  M.isError x.cs || M.isFinished x.cs

end HttpRequestParser

/-- The bytes that can stand in the name of a field: what is left of `ascii` without tabs and
`HTTP_separator`. -/
def isfield (b : UInt8) : Bool :=
  1 ≤ b ∧ b ≤ 8 ∨ 10 ≤ b ∧ b ≤ 31 ∨ b = 33 ∨ 35 ≤ b ∧ b ≤ 39 ∨ 42 ≤ b ∧ b ≤ 43 ∨
    45 ≤ b ∧ b ≤ 46 ∨ 48 ≤ b ∧ b ≤ 57 ∨ 65 ≤ b ∧ b ≤ 90 ∨ 94 ≤ b ∧ b ≤ 122 ∨ b = 124 ∨ b = 126

/-- The transitions of `http11_parser.rl.cc`, spelled out from the version on; those of the method and
the URI are `uri`. -/
def httpNext (uri : Nat → UInt8 → List RequestAction × Nat) :
    Nat → UInt8 → List RequestAction × Nat
  -- `HTTP/1.`, a digit and the line end
  | 4, b => if b = 72 then ([.mark], 5) else ([], 0)
  | 5, b => if b = 84 then ([], 6) else ([], 0)
  | 6, b => if b = 84 then ([], 7) else ([], 0)
  | 7, b => if b = 80 then ([], 8) else ([], 0)
  | 8, b => if b = 47 then ([], 9) else ([], 0)
  | 9, b => if b = 49 then ([], 10) else ([], 0)
  | 10, b => if b = 46 then ([], 11) else ([], 0)
  | 11, b => if 48 ≤ b ∧ b ≤ 49 then ([], 12) else ([], 0)
  | 12, b =>
    if b = 10 then ([.httpVersion], 13)
    else if b = 13 then ([.httpVersion], 17)
    else ([], 0)
  -- the start of a line: a field, or the empty line
  | 13, b =>
    if b = 10 then ([.startField, .done], 348)
    else if b = 13 then ([.startField], 18)
    else if isfield b then ([.startField], 14)
    else ([], 0)
  | 14, b =>
    if b = 58 then ([.writeField], 15)
    else if isfield b then ([], 14)
    else ([], 0)
  -- behind the colon, then in the value
  | 15, b =>
    if b = 0 ∨ b = 127 then ([], 0)
    else if b = 9 ∨ b = 32 then ([.startValue], 15)
    else if b = 10 then ([.startValue, .writeValue], 13)
    else if b = 13 then ([.startValue, .writeValue], 17)
    else ([.startValue], 16)
  | 16, b =>
    if b = 0 ∨ b = 127 then ([], 0)
    else if b = 10 then ([.writeValue], 13)
    else if b = 13 then ([.writeValue], 17)
    else ([], 16)
  | 17, b => if b = 10 then ([], 13) else ([], 0)
  | 18, b =>
    if b = 10 then ([.done], 348)
    else if b = 58 then ([.writeField], 15)
    else if isfield b then ([], 14)
    else ([], 0)
  | cs, b => uri cs b

/-- `http11_parser.rl.cc` -/
def httpParser (uri : Nat → UInt8 → List RequestAction × Nat) : Scanner Nat RequestAction where
  start := 1
  next := httpNext uri
  isError := (· = 0)
  isFinished := (348 ≤ ·)
  breaks := (· = .done)

/-! ## Responses -/

/-- The actions of `httpclient_parser.rl`. -/
inductive ResponseAction where
  | mark
  | startField
  | writeField
  | startValue
  | writeContentLen
  | writeConnectionClose
  | writeValue
  | reasonPhrase
  | statusCode
  | httpVersion
  | chunkSize
  | transChunked
  | done
  deriving DecidableEq, Repr

/-- `httpclient_parser` and `HttpResponseParser`. -/
structure HttpResponseParser where
  cs : Nat := 1
  contentLen : Int := -1
  chunked : Bool := false
  chunksDone : Bool := false
  mark : Nat := 0
  fieldStart : Nat := 0
  fieldLen : Nat := 0
  data : HttpResponse := {}
  error : Int := 0
  deriving DecidableEq, Repr

namespace HttpResponseParser

/-- An action at the position `fpc` of the buffer, with the callback it calls. -/
def act (buffer : Bytes) (fpc : Nat) (a : ResponseAction) (x : HttpResponseParser) :
    Option HttpResponseParser :=
  match a with
  | .mark | .startValue => some { x with mark := fpc }
  | .startField => some { x with fieldStart := fpc }
  | .writeField => some { x with fieldLen := tokenLen x.fieldStart fpc }
  | .writeContentLen =>
    some { x with contentLen := intOfLong (strtol 10 (buffer.drop x.mark)) }
  | .writeValue =>
    if x.fieldLen = 0 then some x
    else
      (tokenString buffer x.fieldStart x.fieldLen).bind fun field =>
        (tokenString buffer x.mark (tokenLen x.mark fpc)).map fun value =>
          { x with data := { x.data with headers := x.data.headers.set field value } }
  | .reasonPhrase =>
    (tokenString buffer x.mark (tokenLen x.mark fpc)).map fun v =>
      { x with data := { x.data with reason := v } }
  | .statusCode =>
    some { x with data := { x.data with status := atoi (buffer.drop x.mark) } }
  | .httpVersion =>
    match versionOf (buffer.drop x.mark) (tokenLen x.mark fpc) with
    | none => some { x with error := 1001 }
    | some v => some { x with data := { x.data with version := v } }
  | .chunkSize =>
    let contentLen := intOfLong (strtol 16 (buffer.drop x.mark))
    some { x with chunked := true, contentLen, chunksDone := decide (contentLen ≤ 0) }
  | .transChunked => some { x with chunked := true }
  -- nobody looks at `close`, and `on_response_header_done` does nothing
  | .writeConnectionClose | .done => some x

def init (x : HttpResponseParser) : HttpResponseParser :=
  { x with
    cs := 1, contentLen := -1, chunked := false, chunksDone := false, mark := 0, fieldLen := 0
    fieldStart := 0 }

/-- `execute`, with the number of bytes it has taken; `none` when an exception leaves it. -/
def execute (M : Scanner Nat ResponseAction) (chunk : Bool) (x : HttpResponseParser)
    (data : Bytes) : Option (Nat × HttpResponseParser) :=
  let x := if chunk then x.init else x
  (M.scan (act data) 0 x.cs { x with mark := 0, fieldLen := 0, fieldStart := 0 } data).map
    fun r => (r.1, { r.2.2 with cs := r.2.1 })

def hasError (M : Scanner Nat ResponseAction) (x : HttpResponseParser) : Bool :=
  x.error ≠ 0 || M.isError x.cs

def isFinished (M : Scanner Nat ResponseAction) (x : HttpResponseParser) : Bool :=
  M.isError x.cs || M.isFinished x.cs

end HttpResponseParser

def isxdigit (b : UInt8) : Bool := 48 ≤ b ∧ b ≤ 57 ∨ 65 ≤ b ∧ b ≤ 70 ∨ 97 ≤ b ∧ b ≤ 102

/-- `token = (ascii -- (CTL | tspecials))` -/
def istoken (b : UInt8) : Bool :=
  b = 33 ∨ b = 124 ∨ b = 126 ∨ 35 ≤ b ∧ b ≤ 39 ∨ 42 ≤ b ∧ b ≤ 43 ∨ 45 ≤ b ∧ b ≤ 46 ∨
    48 ≤ b ∧ b ≤ 57 ∨ 65 ≤ b ∧ b ≤ 90 ∨ 94 ≤ b ∧ b ≤ 122

/-- The transitions of `httpclient_parser.rl.cc`, spelled out up to the reason phrase; those of the
headers are `fields`. -/
def httpclientNext (fields : Nat → UInt8 → List ResponseAction × Nat) :
    Nat → UInt8 → List ResponseAction × Nat
  | 1, b => if b = 72 then ([.mark], 8) else if isxdigit b then ([.mark], 2) else ([], 0)
  -- the size of a chunk, and its extensions
  | 2, b =>
    if b = 10 then ([.chunkSize, .done], 120)
    else if b = 13 then ([.chunkSize], 3)
    else if b = 59 then ([.chunkSize], 4)
    else if isxdigit b then ([], 2)
    else ([], 0)
  | 3, b => if b = 10 then ([.done], 120) else ([], 0)
  | 4, b => if istoken b then ([.startField], 5) else ([], 0)
  | 5, b =>
    if b = 10 then ([.writeField, .startValue, .writeValue, .done], 120)
    else if b = 13 then ([.writeField, .startValue, .writeValue], 3)
    else if b = 59 then ([.writeField, .startValue, .writeValue], 4)
    else if b = 61 then ([.writeField, .startValue], 6)
    else if istoken b then ([], 5)
    else ([], 0)
  | 6, b => if istoken b then ([.startValue], 7) else ([], 0)
  | 7, b =>
    if b = 10 then ([.writeValue, .done], 120)
    else if b = 13 then ([.writeValue], 3)
    else if b = 59 then ([.writeValue], 4)
    else if istoken b then ([], 7)
    else ([], 0)
  -- `HTTP/`, the version and the status
  | 8, b => if b = 84 then ([], 9) else ([], 0)
  | 9, b => if b = 84 then ([], 10) else ([], 0)
  | 10, b => if b = 80 then ([], 11) else ([], 0)
  | 11, b => if b = 47 then ([], 12) else ([], 0)
  | 12, b => if isdigit b then ([], 13) else ([], 0)
  | 13, b => if b = 46 then ([], 14) else if isdigit b then ([], 13) else ([], 0)
  | 14, b => if isdigit b then ([], 15) else ([], 0)
  | 15, b => if b = 32 then ([.httpVersion], 16) else if isdigit b then ([], 15) else ([], 0)
  | 16, b => if isdigit b then ([.mark], 17) else ([], 0)
  | 17, b => if b = 32 then ([.statusCode], 18) else if isdigit b then ([], 17) else ([], 0)
  | 18, b => if b = 10 then ([], 0) else ([.mark], 19)
  | 19, b =>
    if b = 10 then ([.reasonPhrase], 20)
    else if b = 13 then ([.reasonPhrase], 24)
    else ([], 19)
  | 120, _ => ([], 0)
  | cs, b => fields cs b

/-- `httpclient_parser.rl.cc` -/
def httpclientParser (fields : Nat → UInt8 → List ResponseAction × Nat) :
    Scanner Nat ResponseAction where
  start := 1
  next := httpclientNext fields
  isError := (· = 0)
  isFinished := (· = 120)
  breaks := (· = .done)

end Azure
