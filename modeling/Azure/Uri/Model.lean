import Azure.Http.Dump
import Azure.Reasoning.Machine

/-!
# URIs (`uri.rl`, `uri.h`)

The productions of the machine `uri_parser`, under their names, with the actions where the source has
them.  `Uri::Create` runs the machine over a text.
-/

namespace Azure

open Reasoning Machine

inductive UriAction where
  | marku
  | markh
  | saveScheme
  | savePort
  | saveUserinfo
  | saveHost
  | savePath
  | saveQuery
  | saveFragment
deriving DecidableEq

namespace UriParser

abbrev Rule := Machine UriAction

open UriAction

def isalpha (b : UInt8) : Bool := 65 ≤ b ∧ b ≤ 90 ∨ 97 ≤ b ∧ b ≤ 122

def among (s : String) : Rule := byte fun b => b ∈ ascii s.toList

def colon : Rule := char ':'
def alpha : Rule := byte isalpha
def digit : Rule := byte isdigit
def xdigit : Rule := byte isxdigit

def subDelims : Rule := among "!$&'()*+,;="
def unreserved : Rule := oneOf [alpha, digit, among "-._~"]
def pctEncoded : Rule := seq [char '%', xdigit, xdigit]

def scheme : Rule :=
  leaving saveScheme (entering marku (cat alpha (star (oneOf [alpha, digit, among "+-."]))))

def userinfo : Rule := star (oneOf [unreserved, pctEncoded, subDelims, colon])

/-- The `2` of the source has no quotes: it is the byte with the number 2. -/
def decOctet : Rule := oneOf [
  digit,
  seq [byte fun b => 49 ≤ b ∧ b ≤ 57, digit],
  seq [char '1', rep 2 digit],
  seq [byte fun b => b = 2, byte fun b => 48 ≤ b ∧ b ≤ 52, digit],
  seq [text "25", byte fun b => 48 ≤ b ∧ b ≤ 53]]

def ipv4Address : Rule := seq [decOctet, char '.', decOctet, char '.', decOctet, char '.', decOctet]

/-- `xdigit{1,4}` -/
def h16 : Rule := cat xdigit (upTo 3 xdigit)

def ls32 : Rule := oneOf [seq [h16, colon, h16], ipv4Address]

/-- `h16 ":"` -/
def h16Colon : Rule := seq [h16, colon]

def ipv6Address : Rule := oneOf [
  seq [rep 6 h16Colon, ls32],
  seq [text "::", rep 5 h16Colon, ls32],
  seq [opt h16, text "::", rep 4 h16Colon, ls32],
  seq [opt (seq [rep 1 h16Colon, h16]), text "::", rep 3 h16Colon, ls32],
  seq [opt (seq [rep 2 h16Colon, h16]), text "::", rep 2 h16Colon, ls32],
  seq [opt (seq [rep 3 h16Colon, h16]), text "::", rep 1 h16Colon, ls32],
  seq [opt (seq [rep 4 h16Colon, h16]), text "::", ls32],
  seq [opt (seq [rep 5 h16Colon, h16]), text "::", h16],
  seq [opt (seq [rep 6 h16Colon, h16]), text "::"]]

def ipvFuture : Rule :=
  seq [char 'v', plus xdigit, char '.', plus (oneOf [unreserved, subDelims, colon])]

def ipLiteral : Rule := seq [char '[', oneOf [ipv6Address, ipvFuture], char ']']

def regName : Rule := star (oneOf [unreserved, pctEncoded, subDelims])

def host : Rule := oneOf [ipLiteral, ipv4Address, regName]

def port : Rule := star digit

def authority : Rule :=
  entering markh (seq [
    opt (seq [leaving saveUserinfo userinfo, char '@']),
    leaving saveHost (entering markh host),
    opt (seq [colon, leaving savePort (entering markh port)])])

/-- `any -- ascii` -/
def nonAscii : Rule := byte fun b => 128 ≤ b

def pchar : Rule := oneOf [nonAscii, unreserved, pctEncoded, subDelims, colon, char '@']

def segment : Rule := star pchar
def segmentNz : Rule := plus pchar

/-- `(pchar - ":")+`: of what `pchar` allows, only its fifth case is a `:`. -/
def segmentNzNc : Rule := plus (oneOf [nonAscii, unreserved, pctEncoded, subDelims, char '@'])

/-- `"/" segment` -/
def slashSegment : Rule := seq [char '/', segment]

def pathAbempty : Rule := seq [opt slashSegment, star slashSegment]
def pathAbsolute : Rule := seq [char '/', opt (seq [segmentNz, star slashSegment])]
def pathNoscheme : Rule := seq [segmentNzNc, star slashSegment]
def pathRootless : Rule := seq [segmentNz, star slashSegment]
def pathEmpty : Rule := empty

def query : Rule :=
  leaving saveQuery (entering marku (star (oneOf [pchar, char '/', char '?'])))

def fragment : Rule :=
  leaving saveFragment (entering marku (star (oneOf [pchar, char '/', char '?'])))

def hierPart : Rule := oneOf [
  seq [text "//", authority, leaving savePath (entering markh pathAbempty)],
  pathAbsolute, pathRootless, pathEmpty]

def relativePart : Rule := oneOf [
  seq [text "//", authority, pathAbempty],
  pathAbsolute, pathNoscheme, pathEmpty]

def relativeRef : Rule := seq [
  relativePart, opt (seq [char '?', query]), opt (seq [char '#', fragment])]

def uri : Rule := seq [
  scheme, colon, hierPart, opt (seq [char '?', query]), opt (seq [char '#', fragment])]

/-- `URI_reference`, the `main` of the machine -/
def uriReference : Rule := oneOf [uri, relativeRef]

end UriParser

structure Uri where
  scheme : Bytes := []
  userinfo : Bytes := []
  host : Bytes := []
  path : Bytes := []
  query : Bytes := []
  fragment : Bytes := []
  port : Int := 0
deriving DecidableEq

namespace Uri

/-- `std::string(mark, fpc - mark)`, which throws for a null pointer -/
def piece (uristr : Bytes) (mark : Option Nat) (fpc : Nat) : Option Bytes :=
  mark.map fun m => (uristr.drop m).take (fpc - m)

/-- What an action of the machine does to the result and to `mark`; with `none` it throws, or reads
at the null pointer. -/
def act (uristr : Bytes) (fpc : Nat) (a : UriAction) (x : Uri × Option Nat) :
    Option (Uri × Option Nat) :=
  match a with
  | .marku | .markh => some (x.1, some fpc)
  | .saveScheme => (piece uristr x.2 fpc).map fun t => ({ x.1 with scheme := t }, none)
  | .savePort =>
    -- `if (fpc != mark)`
    if x.2 = some fpc then some (x.1, none)
    else x.2.map fun m => ({ x.1 with port := atoi (uristr.drop m) }, none)
  | .saveUserinfo =>
    match piece uristr x.2 fpc with
    | some t => some ({ x.1 with userinfo := t }, none)
    | none => some (x.1, none)
  -- `mark` stays where the host starts
  | .saveHost =>
    match piece uristr x.2 fpc with
    | some t => some ({ x.1 with host := t }, x.2)
    | none => some x
  | .savePath => (piece uristr x.2 fpc).map fun t => ({ x.1 with path := t }, none)
  | .saveQuery => (piece uristr x.2 fpc).map fun t => ({ x.1 with query := t }, none)
  | .saveFragment => (piece uristr x.2 fpc).map fun t => ({ x.1 with fragment := t }, none)

/-- `Uri::Create`: `none` when an exception leaves it, and `some none` for the null pointer. -/
def create (uristr : Bytes) : Option (Option Uri) :=
  let M := UriParser.uriReference.scanner
  (M.scan (act uristr) 0 M.start ({}, none) uristr).bind fun (p, cs, x) =>
    if M.isError cs then some none
    else if M.isFinished cs then
      -- the leaving actions of what ends with the text
      ((final cs).foldlM (fun x a => act uristr p a x) x).map fun x => some x.1
    else some none

def isDefaultPort (u : Uri) : Bool :=
  if u.port = 0 then true
  else if u.scheme = ascii "http".toList ∨ u.scheme = ascii "ws".toList then u.port = 80
  else if u.scheme = ascii "https".toList ∨ u.scheme = ascii "wss".toList then u.port = 443
  else false

def getPath (u : Uri) : Bytes := if u.path = [] then ascii ['/'] else u.path

def getPort (u : Uri) : Int :=
  if u.port ≠ 0 then u.port
  else if u.scheme = ascii "http".toList ∨ u.scheme = ascii "ws".toList then 80
  else if u.scheme = ascii "https".toList ∨ u.scheme = ascii "wss".toList then 443
  else u.port

/-- `std::to_string` -/
def intText (n : Int) : Bytes := (if n < 0 then ascii ['-'] else []) ++ decimal n.natAbs

/-- `Uri::toString`, which writes what `Uri::dump` does -/
def toString (u : Uri) : Bytes :=
  u.scheme ++ ascii "://".toList ++ u.userinfo ++ (if u.userinfo = [] then [] else ascii ['@']) ++
    u.host ++ (if u.isDefaultPort then [] else ascii [':'] ++ intText u.port) ++ u.getPath ++
    (if u.query = [] then [] else ascii ['?']) ++ u.query ++
    (if u.fragment = [] then [] else ascii ['#']) ++ u.fragment

end Uri

end Azure
