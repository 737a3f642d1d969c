import Azure.Uri.Model

/-!
# The grammar of RFC 3986

The productions of the RFC, with the bytes that are not ASCII as further cases of `pchar`, and the
parts that a URI reference is put together from.  The productions above `host` take it as a
parameter: what the RFC says of the parts does not depend on what a host is.
-/

namespace Azure

open Reasoning Machine

namespace Rfc3986

abbrev Rule := Machine UriAction

open UriParser (among)

def alpha : Rule := byte fun b => 65 ≤ b ∧ b ≤ 90 ∨ 97 ≤ b ∧ b ≤ 122

def digit : Rule := byte fun b => 48 ≤ b ∧ b ≤ 57

def hexdig : Rule := byte fun b => 48 ≤ b ∧ b ≤ 57 ∨ 65 ≤ b ∧ b ≤ 70 ∨ 97 ≤ b ∧ b ≤ 102

def unreserved : Rule := oneOf [alpha, digit, among "-._~"]
def subDelims : Rule := among "!$&'()*+,;="
def pctEncoded : Rule := seq [char '%', hexdig, hexdig]
def scheme : Rule := cat alpha (star (oneOf [alpha, digit, among "+-."]))
def userinfo : Rule := star (oneOf [unreserved, pctEncoded, subDelims, char ':'])

def decOctet : Rule := oneOf [
  digit,
  seq [byte fun b => 49 ≤ b ∧ b ≤ 57, digit],
  seq [char '1', rep 2 digit],
  seq [char '2', byte fun b => 48 ≤ b ∧ b ≤ 52, digit],
  seq [text "25", byte fun b => 48 ≤ b ∧ b ≤ 53]]

def ipv4Address : Rule := seq [decOctet, char '.', decOctet, char '.', decOctet, char '.', decOctet]

/-- `1*4HEXDIG` -/
def h16 : Rule := cat hexdig (upTo 3 hexdig)

def ls32 : Rule := oneOf [seq [h16, char ':', h16], ipv4Address]

/-- `h16 ":"` -/
def h16Colon : Rule := seq [h16, char ':']

def ipv6Address : Rule := oneOf [
  seq [rep 6 h16Colon, ls32],
  seq [text "::", rep 5 h16Colon, ls32],
  seq [opt h16, text "::", rep 4 h16Colon, ls32],
  seq [opt (seq [upTo 1 h16Colon, h16]), text "::", rep 3 h16Colon, ls32],
  seq [opt (seq [upTo 2 h16Colon, h16]), text "::", rep 2 h16Colon, ls32],
  seq [opt (seq [upTo 3 h16Colon, h16]), text "::", h16Colon, ls32],
  seq [opt (seq [upTo 4 h16Colon, h16]), text "::", ls32],
  seq [opt (seq [upTo 5 h16Colon, h16]), text "::", h16],
  seq [opt (seq [upTo 6 h16Colon, h16]), text "::"]]

def ipvFuture : Rule :=
  seq [among "vV", plus hexdig, char '.', plus (oneOf [unreserved, subDelims, char ':'])]

def ipLiteral : Rule := seq [char '[', oneOf [ipv6Address, ipvFuture], char ']']
def regName : Rule := star (oneOf [unreserved, pctEncoded, subDelims])
def host : Rule := oneOf [ipLiteral, ipv4Address, regName]
def port : Rule := star digit

def nonAscii : Rule := byte fun b => 128 ≤ b
def pchar : Rule := oneOf [nonAscii, unreserved, pctEncoded, subDelims, char ':', char '@']
def segment : Rule := star pchar
def segmentNz : Rule := plus pchar
def segmentNzNc : Rule := plus (oneOf [nonAscii, unreserved, pctEncoded, subDelims, char '@'])

/-- `"/" segment` -/
def slashSegment : Rule := seq [char '/', segment]

def pathAbempty : Rule := star slashSegment
def pathAbsolute : Rule := seq [char '/', opt (seq [segmentNz, star slashSegment])]
def pathNoscheme : Rule := seq [segmentNzNc, star slashSegment]
def pathRootless : Rule := seq [segmentNz, star slashSegment]
def pathEmpty : Rule := empty
def query : Rule := star (oneOf [pchar, char '/', char '?'])
def fragment : Rule := star (oneOf [pchar, char '/', char '?'])

variable (host : Rule)

def authority : Rule := seq [opt (seq [userinfo, char '@']), host, opt (seq [char ':', port])]

def hierPart : Rule :=
  oneOf [seq [text "//", authority host, pathAbempty], pathAbsolute, pathRootless, pathEmpty]

def relativePart : Rule :=
  oneOf [seq [text "//", authority host, pathAbempty], pathAbsolute, pathNoscheme, pathEmpty]

/-- `[ "?" query ] [ "#" fragment ]` -/
def ending : Rule := seq [opt (seq [char '?', query]), opt (seq [char '#', fragment])]

def uri : Rule := seq [scheme, char ':', hierPart host, ending]
def relativeRef : Rule := seq [relativePart host, ending]

def uriReference : Rule := oneOf [uri host, relativeRef host]

end Rfc3986

/-! ## The parts of a URI reference -/

structure Authority where
  userinfo : Option Bytes
  host : Bytes
  port : Option Bytes

structure UriParts where
  scheme : Option Bytes
  authority : Option Authority
  path : Bytes
  query : Option Bytes
  fragment : Option Bytes

namespace Authority

def userinfoText (a : Authority) : Bytes := (a.userinfo.map fun u => u ++ [64]).getD []
def portText (a : Authority) : Bytes := (a.port.map fun p => 58 :: p).getD []
def text (a : Authority) : Bytes := a.userinfoText ++ (a.host ++ a.portText)

structure WellFormed (host : Language UInt8) (a : Authority) : Prop where
  userinfo : ∀ u, a.userinfo = some u → u ∈ Rfc3986.userinfo.lang
  host : a.host ∈ host
  port : ∀ p, a.port = some p → p ∈ Rfc3986.port.lang

end Authority

namespace UriParts

def schemeText (c : UriParts) : Bytes := (c.scheme.map fun s => s ++ [58]).getD []
def authorityText (c : UriParts) : Bytes := (c.authority.map fun a => 47 :: 47 :: a.text).getD []
def queryText (c : UriParts) : Bytes := (c.query.map fun q => 63 :: q).getD []
def fragmentText (c : UriParts) : Bytes := (c.fragment.map fun f => 35 :: f).getD []

def text (c : UriParts) : Bytes :=
  c.schemeText ++ (c.authorityText ++ (c.path ++ (c.queryText ++ c.fragmentText)))

/-- What the path can be depends on what stands in front of it. -/
def pathLang (c : UriParts) : Language UInt8 :=
  if c.authority.isSome then Rfc3986.pathAbempty.lang
  else if c.scheme.isSome then
    Rfc3986.pathAbsolute.lang + (Rfc3986.pathRootless.lang + Rfc3986.pathEmpty.lang)
  else Rfc3986.pathAbsolute.lang + (Rfc3986.pathNoscheme.lang + Rfc3986.pathEmpty.lang)

structure WellFormed (host : Language UInt8) (c : UriParts) : Prop where
  scheme : ∀ s, c.scheme = some s → s ∈ Rfc3986.scheme.lang
  authority : ∀ a, c.authority = some a → a.WellFormed host
  path : c.path ∈ c.pathLang
  query : ∀ q, c.query = some q → q ∈ Rfc3986.query.lang
  fragment : ∀ f, c.fragment = some f → f ∈ Rfc3986.fragment.lang

end UriParts

/-! ## The words of the grammar -/

section Words

variable {A : Type*} {w : Bytes}

theorem mem_char (c : Char) : w ∈ (char c : Machine A).lang ↔ w = [c.toNat.toUInt8] := by
  constructor
  · intro h
    obtain ⟨b, hb, hw⟩ := h
    rw [hw, of_decide_eq_true hb]
  · exact fun h => ⟨_, decide_eq_true rfl, h⟩

theorem mem_opt (r : Machine A) : w ∈ r.opt.lang ↔ w ∈ r.lang ∨ w = [] := Iff.rfl

/-- What may stand behind a character is there or not. -/
theorem mem_opt_char (c : Char) (r : Machine A) :
    w ∈ (opt (seq [char c, r])).lang ↔
      ∃ o : Option Bytes, (∀ x, o = some x → x ∈ r.lang) ∧
        (o.map fun x => c.toNat.toUInt8 :: x).getD [] = w := by
  rw [mem_opt]
  constructor
  · intro h
    rcases h with h | h
    · obtain ⟨x, hx, y, hy, hxy⟩ := Language.mem_mul.mp h
      rw [(mem_char c).mp hx] at hxy
      exact ⟨some y, fun z hz => Option.some.inj hz ▸ hy, hxy⟩
    · exact ⟨none, fun z hz => (Option.some_ne_none z hz.symm).elim, h.symm⟩
  · intro h
    obtain ⟨o, ho, hw⟩ := h
    cases o with
    | none => exact Or.inr hw.symm
    | some x =>
      exact Or.inl (Language.mem_mul.mpr ⟨_, (mem_char c).mpr rfl, x, ho x rfl, hw⟩)

end Words

namespace Rfc3986

variable {host : Rule} {w : Bytes}

theorem mem_authority :
    w ∈ (authority host).lang ↔ ∃ a : Authority, a.WellFormed host.lang ∧ a.text = w := by
  constructor
  · intro h
    obtain ⟨x, hx, y, hy, hxy⟩ := Language.mem_mul.mp h
    obtain ⟨hostText, hhost, z, hz, hyz⟩ := Language.mem_mul.mp hy
    obtain ⟨port, hport, hz⟩ := (mem_opt_char ':' _).mp hz
    rcases (mem_opt _).mp hx with hx | hx
    · obtain ⟨u, hu, v, hv, huv⟩ := Language.mem_mul.mp hx
      rw [(mem_char '@').mp hv] at huv
      refine ⟨⟨some u, hostText, port⟩, ⟨?_, hhost, hport⟩, ?_⟩
      · exact fun u' hu' => Option.some.inj hu' ▸ hu
      · rw [← hxy, ← hyz, ← hz, ← huv]
        rfl
    · refine ⟨⟨none, hostText, port⟩, ⟨?_, hhost, hport⟩, ?_⟩
      · exact fun u' hu' => (Option.some_ne_none u' hu'.symm).elim
      · rw [← hxy, ← hyz, ← hz, hx]
        rfl
  · intro h
    obtain ⟨a, ha, hw⟩ := h
    rw [← hw]
    refine Language.append_mem_mul ?_ (Language.append_mem_mul ha.host ?_)
    · cases huserinfo : a.userinfo with
      | none => exact (mem_opt _).mpr (Or.inr (by rw [Authority.userinfoText, huserinfo]; rfl))
      | some u =>
        refine (mem_opt _).mpr (Or.inl ?_)
        rw [Authority.userinfoText, huserinfo]
        exact Language.append_mem_mul (ha.userinfo u huserinfo) ((mem_char '@').mpr rfl)
    · exact (mem_opt_char ':' _).mpr ⟨a.port, ha.port, rfl⟩

theorem mem_ending :
    w ∈ ending.lang ↔ ∃ q f : Option Bytes, (∀ x, q = some x → x ∈ query.lang) ∧
      (∀ x, f = some x → x ∈ fragment.lang) ∧
        (q.map fun x => 63 :: x).getD [] ++ (f.map fun x => 35 :: x).getD [] = w := by
  constructor
  · intro h
    obtain ⟨x, hx, y, hy, hxy⟩ := Language.mem_mul.mp h
    obtain ⟨q, hq, hx⟩ := (mem_opt_char '?' _).mp hx
    obtain ⟨f, hf, hy⟩ := (mem_opt_char '#' _).mp hy
    rw [← hx, ← hy] at hxy
    exact ⟨q, f, hq, hf, hxy⟩
  · intro h
    obtain ⟨q, f, hq, hf, hw⟩ := h
    rw [← hw]
    exact Language.append_mem_mul ((mem_opt_char '?' _).mpr ⟨q, hq, rfl⟩)
      ((mem_opt_char '#' _).mpr ⟨f, hf, rfl⟩)

/-- `hier-part` and `relative-part`, which differ in one of the paths. -/
theorem mem_part (paths : Rule) :
    w ∈ (oneOf [seq [text "//", authority host, pathAbempty], pathAbsolute, paths, pathEmpty]).lang ↔
      ∃ (a : Option Authority) (p : Bytes), (∀ x, a = some x → x.WellFormed host.lang) ∧
        p ∈ (if a.isSome then pathAbempty.lang
          else pathAbsolute.lang + (paths.lang + pathEmpty.lang)) ∧
        (a.map fun x => 47 :: 47 :: x.text).getD [] ++ p = w := by
  constructor
  · intro h
    rcases h with h | h
    · obtain ⟨x, hx, y, hy, hxy⟩ := Language.mem_mul.mp h
      obtain ⟨z, hz, p, hp, hzp⟩ := Language.mem_mul.mp hy
      obtain ⟨a, ha, hz⟩ := mem_authority.mp hz
      have hslashes : x = [47, 47] := by
        obtain ⟨x₁, hx₁, x₂, hx₂, hx⟩ := Language.mem_mul.mp hx
        rw [← hx, (mem_char '/').mp hx₁, (mem_char '/').mp hx₂]
        rfl
      refine ⟨some a, p, fun x hx => Option.some.inj hx ▸ ha, hp, ?_⟩
      rw [← hxy, ← hzp, ← hz, hslashes]
      rfl
    · exact ⟨none, w, fun x hx => (Option.some_ne_none x hx.symm).elim, h, rfl⟩
  · intro h
    obtain ⟨a, p, ha, hp, hw⟩ := h
    rw [← hw]
    cases a with
    | none => exact Or.inr hp
    | some a =>
      have hslashes : ([47] ++ [47] : Bytes) ∈ (text "//" : Rule).lang :=
        Language.append_mem_mul ((mem_char '/').mpr rfl) ((mem_char '/').mpr rfl)
      have hbehind := Language.append_mem_mul (mem_authority.mpr ⟨a, ha a rfl, rfl⟩) hp
      have hmem := Language.append_mem_mul hslashes hbehind
      exact Or.inl hmem

/-- The words of the grammar are put together from well formed parts. -/
theorem mem_uriReference :
    w ∈ (uriReference host).lang ↔ ∃ c : UriParts, c.WellFormed host.lang ∧ c.text = w := by
  constructor
  · intro h
    -- a URI with a scheme, or a relative reference
    rcases h with h | h
    · obtain ⟨s, hs, x, hx, hsx⟩ := Language.mem_mul.mp h
      obtain ⟨colon, hcolon, y, hy, hxy⟩ := Language.mem_mul.mp hx
      obtain ⟨v, hv, e, he, hve⟩ := Language.mem_mul.mp hy
      obtain ⟨a, p, ha, hp, hv⟩ := (mem_part pathRootless).mp hv
      obtain ⟨q, f, hq, hf, he⟩ := mem_ending.mp he
      refine ⟨⟨some s, a, p, q, f⟩, ⟨?_, ha, hp, hq, hf⟩, ?_⟩
      · exact fun s' hs' => Option.some.inj hs' ▸ hs
      · rw [← hsx, ← hxy, ← hve, ← hv, ← he, (mem_char ':').mp hcolon]
        simp only [UriParts.text, UriParts.schemeText, UriParts.authorityText, UriParts.queryText,
          UriParts.fragmentText, Option.map_some, Option.getD_some, List.append_assoc]
        rfl
    · obtain ⟨v, hv, e, he, hve⟩ := Language.mem_mul.mp h
      obtain ⟨a, p, ha, hp, hv⟩ := (mem_part pathNoscheme).mp hv
      obtain ⟨q, f, hq, hf, he⟩ := mem_ending.mp he
      refine ⟨⟨none, a, p, q, f⟩, ⟨?_, ha, hp, hq, hf⟩, ?_⟩
      · exact fun s' hs' => (Option.some_ne_none s' hs'.symm).elim
      · rw [← hve, ← hv, ← he]
        simp only [UriParts.text, UriParts.schemeText, UriParts.authorityText, UriParts.queryText,
          UriParts.fragmentText, Option.map_none, Option.getD_none, List.append_assoc,
          List.nil_append]
  · intro h
    obtain ⟨c, hc, hw⟩ := h
    obtain ⟨s, a, p, q, f⟩ := c
    have hending : ∀ e, (q.map fun x => 63 :: x).getD [] ++ (f.map fun x => 35 :: x).getD [] = e →
        e ∈ ending.lang := fun e he => mem_ending.mpr ⟨q, f, hc.query, hc.fragment, he⟩
    rw [← hw]
    cases s with
    | none =>
      have hpart := (mem_part pathNoscheme).mpr ⟨a, p, hc.authority, hc.path, rfl⟩
      have hmem := Language.append_mem_mul hpart (hending _ rfl)
      rw [List.append_assoc] at hmem
      exact Or.inr hmem
    | some s =>
      have hpart := (mem_part pathRootless).mpr ⟨a, p, hc.authority, hc.path, rfl⟩
      have hcolon : ([58] : Bytes) ∈ (char ':' : Rule).lang := (mem_char ':').mpr rfl
      have hmem := Language.append_mem_mul (hc.scheme s rfl)
        (Language.append_mem_mul hcolon (Language.append_mem_mul hpart (hending _ rfl)))
      rw [List.append_assoc, ← List.append_assoc s] at hmem
      exact Or.inl hmem

end Rfc3986

end Azure
