import Azure.Http.Dump
import Azure.Http.Tokens
import Azure.Reasoning.Passes

/-!
# The headers of a response

The transitions of `httpclient_parser.rl.cc` behind the status line.  Three names are watched for,
whatever the case of their letters: behind `Connection` for the value `close`, behind
`Transfer-Encoding` for `chunked` and behind `Content-Length` for digits.  A value that is watched for
may also stand on the lines below, which the machine then takes for the value and for a name at the same
time.
-/

namespace Azure

open Reasoning

namespace HttpResponseParser

def connectionWord : Bytes := ascii "connection".toList
def closeWord : Bytes := ascii "close".toList
def transferWord : Bytes := ascii "transfer-encoding".toList
def chunkedWord : Bytes := ascii "chunked".toList
def lengthWord : Bytes := ascii "content-length".toList

def isblank (b : UInt8) : Bool := b = 9 ∨ 11 ≤ b ∧ b ≤ 12 ∨ b = 32

/-- Within a name; `go` is behind the byte `i` of a word that is watched for. -/
def nameNext (word : Bytes) (i go behind : Nat) (b : UInt8) : List ResponseAction × Nat :=
  if b = 58 then ([.writeField], behind)
  else if word[i]? = some (tolower b) then ([], go)
  else if istoken b then ([], 21)
  else ([], 0)

def startNext (self lf cr : Nat) (first : UInt8 → Bool) (go : Nat) (b : UInt8) :
    List ResponseAction × Nat :=
  if isblank b then ([.startValue], self)
  else if b = 10 then ([.startValue, .writeValue], lf)
  else if b = 13 then ([.startValue, .writeValue], cr)
  else if first b then ([.startValue], go)
  else ([.startValue], 23)

/-- Within a value; `go` is behind the byte `i` of a word that is watched for. -/
def valueNext (word : Bytes) (i go : Nat) (b : UInt8) : List ResponseAction × Nat :=
  if b = 10 then ([.writeValue], 20)
  else if b = 13 then ([.writeValue], 24)
  else if word[i]? = some (tolower b) then ([], go)
  else ([], 23)

def lineNext (acts : List ResponseAction) (b : UInt8) : List ResponseAction × Nat :=
  if b = 10 then (acts ++ [.done], 120)
  else if b = 13 then (acts, 3)
  else if tolower b = 99 then (acts ++ [.startField], 25)
  else if tolower b = 116 then (acts ++ [.startField], 44)
  else if istoken b then (acts ++ [.startField], 21)
  else ([], 0)

def belowNext (self lf cr : Nat) (lfActs crActs : List ResponseAction) (first : UInt8 → Bool)
    (acts : List ResponseAction) (go : Nat) (b : UInt8) : List ResponseAction × Nat :=
  if isblank b then ([], self)
  else if b = 10 then (lfActs, lf)
  else if b = 13 then (crActs, cr)
  else if first b then (acts, go)
  else ([], 0)

/-- On the line below a name whose line has no value, where another name may begin. -/
def nameBelowNext (self final cr : Nat) (first : UInt8 → Bool) (acts : List ResponseAction) (go : Nat)
    (b : UInt8) : List ResponseAction × Nat :=
  if isblank b then ([], self)
  else if b = 10 then ([.done], final)
  else if b = 13 then ([], cr)
  else if first b then (acts, go)
  else if tolower b = 99 then ([.startField], 25)
  else if tolower b = 116 then ([.startField], 44)
  else if istoken b then ([.startField], 21)
  else ([], 0)

def wordNext (word : Bytes) (i go : Nat) (b : UInt8) : List ResponseAction × Nat :=
  if word[i]? = some (tolower b) then ([], go) else ([], 0)

def endNext (lfActs : List ResponseAction) (lf : Nat) (crActs : List ResponseAction) (cr : Nat)
    (other : UInt8 → List ResponseAction × Nat) (b : UInt8) : List ResponseAction × Nat :=
  if b = 10 then (lfActs, lf) else if b = 13 then (crActs, cr) else other b

def isC (b : UInt8) : Bool := tolower b = 99

/-- The transitions of `httpclient_parser.rl.cc` behind the status line. -/
def fieldsNext : Nat → UInt8 → List ResponseAction × Nat
  | 20, b => lineNext [] b
  | 21, b => nameNext [] 0 0 22 b
  | 22, b => startNext 22 20 24 (fun _ => false) 0 b
  | 23, b => valueNext [] 0 0 b
  | 24, b => if b = 10 then ([], 20) else ([], 0)
  -- `Connection`, or `Content-Length` from the fourth letter on
  | 27, b => if tolower b = 116 then ([], 101) else nameNext connectionWord 3 28 22 b
  | 34, b => nameNext [] 0 0 35 b
  | 35, b => startNext 35 36 95 isC 96 b
  | 36, b => nameBelowNext 37 122 89 isC [.startField] 90 b
  | 37, b => belowNext 37 37 37 [] [] isC [] 38 b
  | 42, b => endNext [] 43 [] 88 (fun _ => ([], 0)) b
  | 43, b => lineNext [.writeConnectionClose] b
  | 88, b => if b = 10 then ([], 43) else ([], 0)
  | 89, b => belowNext 37 122 37 [.done] [] isC [] 38 b
  | 90, b => if tolower b = 111 then ([], 26) else nameNext closeWord 1 91 22 b
  | 94, b => endNext [] 43 [] 88 (nameNext [] 0 0 22) b
  | 95, b => belowNext 37 36 37 [] [] isC [] 38 b
  | 100, b => endNext [.writeValue] 43 [.writeValue] 88 (valueNext [] 0 0) b
  | 122, b => belowNext 37 37 37 [] [] isC [] 38 b
  -- `Transfer-Encoding`
  | 60, b => nameNext [] 0 0 61 b
  | 61, b => startNext 61 62 80 isC 81 b
  | 62, b => nameBelowNext 63 121 72 isC [.startValue, .startField] 73 b
  | 63, b => belowNext 63 63 63 [] [] isC [.startValue] 64 b
  | 70, b => endNext [.writeValue, .transChunked] 20 [.writeValue] 71 (fun _ => ([], 0)) b
  | 71, b => if b = 10 then ([.transChunked], 20) else ([], 0)
  | 72, b => belowNext 63 121 63 [.done] [] isC [.startValue] 64 b
  | 73, b => if tolower b = 111 then ([], 26) else nameNext chunkedWord 1 74 22 b
  | 79, b => endNext [.writeValue, .transChunked] 20 [.writeValue] 71 (nameNext [] 0 0 22) b
  | 80, b => belowNext 63 62 63 [] [] isC [.startValue] 64 b
  | 87, b => endNext [.writeValue, .transChunked] 20 [.writeValue] 71 (valueNext [] 0 0) b
  | 121, b => belowNext 63 63 63 [] [] isC [.startValue] 64 b
  -- `Content-Length`
  | 111, b => nameNext [] 0 0 112 b
  | 112, b => startNext 112 113 118 isdigit 119 b
  | 113, b => nameBelowNext 114 123 116 isdigit [.startValue, .startField] 117 b
  | 114, b => belowNext 114 114 114 [] [] isdigit [.startValue] 115 b
  | 115, b =>
    if isdigit b then ([], 115)
    else endNext [.writeContentLen, .writeValue] 20 [.writeContentLen, .writeValue] 24
      (fun _ => ([], 0)) b
  | 116, b => belowNext 114 123 114 [.done] [] isdigit [.startValue] 115 b
  | 117, b =>
    if isdigit b then ([], 117)
    else endNext [.writeContentLen, .writeValue] 20 [.writeContentLen, .writeValue] 24
      (nameNext [] 0 0 22) b
  | 118, b => belowNext 114 113 114 [] [] isdigit [.startValue] 115 b
  | 119, b =>
    if isdigit b then ([], 119)
    else endNext [.writeContentLen, .writeValue] 20 [.writeContentLen, .writeValue] 24
      (valueNext [] 0 0) b
  | 123, b => belowNext 114 114 114 [] [] isdigit [.startValue] 115 b
  -- the other letters of the words
  | cs, b =>
    if 25 ≤ cs ∧ cs ≤ 33 then nameNext connectionWord (cs - 24) (cs + 1) 22 b
    else if 38 ≤ cs ∧ cs ≤ 41 then wordNext closeWord (cs - 37) (cs + 1) b
    else if 44 ≤ cs ∧ cs ≤ 59 then nameNext transferWord (cs - 43) (cs + 1) 22 b
    else if 64 ≤ cs ∧ cs ≤ 69 then wordNext chunkedWord (cs - 63) (cs + 1) b
    else if 74 ≤ cs ∧ cs ≤ 78 then nameNext chunkedWord (cs - 72) (cs + 1) 22 b
    else if 81 ≤ cs ∧ cs ≤ 86 then valueNext chunkedWord (cs - 80) (cs + 1) b
    else if 91 ≤ cs ∧ cs ≤ 93 then nameNext closeWord (cs - 89) (cs + 1) 22 b
    else if 96 ≤ cs ∧ cs ≤ 99 then valueNext closeWord (cs - 95) (cs + 1) b
    else if 101 ≤ cs ∧ cs ≤ 110 then nameNext lengthWord (cs - 97) (cs + 1) 22 b
    else ([], 0)

end HttpResponseParser

end Azure
