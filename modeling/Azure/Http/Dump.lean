import Azure.Http.Receive

/-!
# Messages as text (`dump` of `http.h`, `http.cpp`)

A message is written as lines, each with its line end, and then the body.  The length of the body is
one more line.
-/

namespace Azure

/-- What `os << n` writes for an unsigned number. -/
def decimal (n : Nat) : Bytes := ascii (Nat.toDigits 10 n)

def crlf : Bytes := [13, 10]

def HttpMethod.toString (m : HttpMethod) : Bytes :=
  ((map.find? fun e => e.1 = m).map Prod.snd).getD (ascii "<unknown>".toList)

/-- `HTTP_STATUS_MAP`, with the messages. -/
def statusMap : List (Int × Bytes) := [
  (100, ascii "Continue".toList),
  (101, ascii "Switching Protocols".toList),
  (102, ascii "Processing".toList),
  (200, ascii "OK".toList),
  (201, ascii "Created".toList),
  (202, ascii "Accepted".toList),
  (203, ascii "Non-Authoritative Information".toList),
  (204, ascii "No Content".toList),
  (205, ascii "Reset Content".toList),
  (206, ascii "Partial Content".toList),
  (207, ascii "Multi-Status".toList),
  (208, ascii "Already Reported".toList),
  (226, ascii "IM Used".toList),
  (300, ascii "Multiple Choices".toList),
  (301, ascii "Moved Permanently".toList),
  (302, ascii "Found".toList),
  (303, ascii "See Other".toList),
  (304, ascii "Not Modified".toList),
  (305, ascii "Use Proxy".toList),
  (307, ascii "Temporary Redirect".toList),
  (308, ascii "Permanent Redirect".toList),
  (400, ascii "Bad Request".toList),
  (401, ascii "Unauthorized".toList),
  (402, ascii "Payment Required".toList),
  (403, ascii "Forbidden".toList),
  (404, ascii "Not Found".toList),
  (405, ascii "Method Not Allowed".toList),
  (406, ascii "Not Acceptable".toList),
  (407, ascii "Proxy Authentication Required".toList),
  (408, ascii "Request Timeout".toList),
  (409, ascii "Conflict".toList),
  (410, ascii "Gone".toList),
  (411, ascii "Length Required".toList),
  (412, ascii "Precondition Failed".toList),
  (413, ascii "Payload Too Large".toList),
  (414, ascii "URI Too Long".toList),
  (415, ascii "Unsupported Media Type".toList),
  (416, ascii "Range Not Satisfiable".toList),
  (417, ascii "Expectation Failed".toList),
  (421, ascii "Misdirected Request".toList),
  (422, ascii "Unprocessable Entity".toList),
  (423, ascii "Locked".toList),
  (424, ascii "Failed Dependency".toList),
  (426, ascii "Upgrade Required".toList),
  (428, ascii "Precondition Required".toList),
  (429, ascii "Too Many Requests".toList),
  (431, ascii "Request Header Fields Too Large".toList),
  (451, ascii "Unavailable For Legal Reasons".toList),
  (500, ascii "Internal Server Error".toList),
  (501, ascii "Not Implemented".toList),
  (502, ascii "Bad Gateway".toList),
  (503, ascii "Service Unavailable".toList),
  (504, ascii "Gateway Timeout".toList),
  (505, ascii "HTTP Version Not Supported".toList),
  (506, ascii "Variant Also Negotiates".toList),
  (507, ascii "Insufficient Storage".toList),
  (508, ascii "Loop Detected".toList),
  (510, ascii "Not Extended".toList),
  (511, ascii "Network Authentication Required".toList)]

def statusToString (s : Int) : Bytes := (statusMap.lookup s).getD (ascii "<unknown>".toList)

/-- `os << i.first << ": " << i.second` -/
def headerLine (e : Bytes × Bytes) : Bytes := e.1 ++ ascii ": ".toList ++ e.2

namespace HeaderMap

def lines (m : HeaderMap) : List Bytes :=
  (List.filter (fun e => !strcaseeq e.1 (ascii "connection".toList)) m).map headerLine

end HeaderMap

def connectionLine (close : Bool) : Bytes :=
  ascii "connection: ".toList ++ ascii (if close then "close" else "keep-alive").toList

/-- The end of both `dump`s: the lines so far, the length of a body that is not empty, the empty line
and the body. -/
def dumpLines (lines : List Bytes) (body : Bytes) : Bytes :=
  let head := lines.flatMap fun l => l ++ crlf
  if body ≠ [] then
    head ++ ascii "content-length: ".toList ++ decimal body.length ++ crlf ++ crlf ++ body
  else head ++ crlf

def versionText (version : UInt8) : Bytes :=
  ascii "HTTP/".toList ++ decimal (version >>> 4).toNat ++ ascii ['.'] ++
    decimal (version &&& 0x0f).toNat

namespace HttpRequest

def startLine (req : HttpRequest) : Bytes :=
  req.method.toString ++ ascii [' '] ++ req.path ++
    (if req.query = [] then [] else ascii ['?']) ++ req.query ++
    (if req.fragment = [] then [] else ascii ['#']) ++ req.fragment ++ ascii [' '] ++
    versionText req.version

def lines (req : HttpRequest) : List Bytes :=
  [req.startLine, connectionLine req.close] ++ req.headers.lines

def dump (req : HttpRequest) : Bytes := dumpLines req.lines req.body

end HttpRequest

namespace HttpResponse

def statusLine (rsp : HttpResponse) : Bytes :=
  versionText rsp.version ++ ascii [' '] ++ decimal (rsp.status % 2 ^ 32).toNat ++ ascii [' '] ++
    (if rsp.reason = [] then statusToString rsp.status else rsp.reason)

def lines (rsp : HttpResponse) : List Bytes :=
  [rsp.statusLine] ++ rsp.headers.lines ++ [connectionLine rsp.close]

def dump (rsp : HttpResponse) : Bytes := dumpLines rsp.lines rsp.body

end HttpResponse

/-! ## Numbers -/

theorem digitOf_of_isdigit {b : UInt8} (hb : isdigit b = true) :
    digitOf b = some (b.toNat - 48) ∧ b.toNat - 48 < 10 := by
  unfold isdigit at hb
  have hdigit := of_decide_eq_true hb
  constructor
  · exact if_pos hdigit
  · have hle := UInt8.le_iff_toNat_le.mp hdigit.2
    simp only [UInt8.reduceToNat] at hle
    omega

theorem leadingDigits_eq_foldl (acc : Nat) {digits : Bytes} (h : digits.all isdigit = true) :
    leadingDigits 10 acc digits = digits.foldl (fun n b => n * 10 + (b.toNat - 48)) acc := by
  induction digits generalizing acc with
  | nil => rfl
  | cons b digits ih =>
    rw [List.all_cons, Bool.and_eq_true] at h
    obtain ⟨hdigit, hlt⟩ := digitOf_of_isdigit h.1
    rw [leadingDigits, hdigit, List.foldl_cons]
    dsimp only
    rw [if_pos hlt, ih _ h.2]

theorem digit_of_mem_decimal {n : Nat} {b : UInt8} (h : b ∈ decimal n) : 48 ≤ b ∧ b ≤ 57 := by
  rcases List.mem_map.mp h with ⟨c, hc, rfl⟩
  have hdigit := Nat.isDigit_of_mem_toDigits (by decide) (by decide) hc
  simp only [Char.isDigit, Bool.and_eq_true, decide_eq_true_eq] at hdigit
  have hlow : 48 ≤ c.toNat := hdigit.1
  have hhigh : c.toNat ≤ 57 := hdigit.2
  have hnat : (c.toNat.toUInt8).toNat = c.toNat := by
    rw [Nat.toUInt8, UInt8.toNat_ofNat']
    omega
  constructor
  · rw [UInt8.le_iff_toNat_le, hnat]
    exact hlow
  · rw [UInt8.le_iff_toNat_le, hnat]
    exact hhigh

theorem decimal_all (n : Nat) : (decimal n).all isdigit = true := by
  rw [List.all_eq_true]
  exact fun b hb => decide_eq_true (digit_of_mem_decimal hb)

theorem decimal_ne_nil (n : Nat) : decimal n ≠ [] := by
  intro hnil
  exact Nat.toDigits_ne_nil (List.map_eq_nil_iff.mp hnil)

theorem foldl_decimal (n : Nat) : (decimal n).foldl (fun n b => n * 10 + (b.toNat - 48)) 0 = n := by
  have hfold : ∀ (cs : List Char) (acc : Nat), (∀ c ∈ cs, c.isDigit = true) →
      (ascii cs).foldl (fun n b => n * 10 + (b.toNat - 48)) acc = Nat.ofDigitChars 10 cs acc := by
    intro cs
    induction cs with
    | nil => exact fun acc _ => rfl
    | cons c cs ih =>
      intro acc hcs
      have hc := hcs c List.mem_cons_self
      simp only [Char.isDigit, Bool.and_eq_true, decide_eq_true_eq] at hc
      have hhigh : c.toNat ≤ 57 := hc.2
      have hnat : (c.toNat.toUInt8).toNat = c.toNat := by
        rw [Nat.toUInt8, UInt8.toNat_ofNat']
        omega
      rw [Nat.ofDigitChars_cons, ← ih _ fun d hd => hcs d (List.mem_cons_of_mem c hd), ascii,
        List.map_cons, List.foldl_cons, hnat, Nat.mul_comm]
      rfl
  rw [decimal, hfold _ 0 fun c hc => Nat.isDigit_of_mem_toDigits (by decide) (by decide) hc]
  exact Nat.ofDigitChars_ten_toDigits

theorem leadingDigits_decimal (n : Nat) : leadingDigits 10 0 (decimal n) = n := by
  rw [leadingDigits_eq_foldl 0 (decimal_all n)]
  exact foldl_decimal n

end Azure
