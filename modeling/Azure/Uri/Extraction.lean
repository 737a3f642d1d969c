import Azure.Uri.Create

/-!
# The getters of a `Uri`

What the getters are to return is said with the parts of the text, as the RFC has them.  They do so
where no part of the text is lost on the way: `UriParts.Extracted`.
-/

namespace Azure

open Reasoning Machine

structure UriGetters where
  scheme : Bytes
  userinfo : Bytes
  host : Bytes
  path : Bytes
  query : Bytes
  fragment : Bytes
  port : Int
deriving DecidableEq

def Uri.getters (u : Uri) : UriGetters :=
  ⟨u.scheme, u.userinfo, u.host, u.getPath, u.query, u.fragment, u.getPort⟩

def decimalValue (digits : Bytes) : Nat := digits.foldl (fun n b => n * 10 + (b.toNat - 48)) 0

def defaultPort (scheme : Bytes) : Int :=
  if scheme = ascii "http".toList ∨ scheme = ascii "ws".toList then 80
  else if scheme = ascii "https".toList ∨ scheme = ascii "wss".toList then 443
  else 0

namespace UriParts

def portDigits (c : UriParts) : Bytes := (c.authority.bind Authority.port).getD []

def getters (c : UriParts) : UriGetters where
  scheme := c.scheme.getD []
  userinfo := (c.authority.bind Authority.userinfo).getD []
  host := (c.authority.map Authority.host).getD []
  path := if c.path = [] then ascii ['/'] else c.path
  query := c.query.getD []
  fragment := c.fragment.getD []
  port :=
    if decimalValue c.portDigits ≠ 0 then decimalValue c.portDigits
    else defaultPort (c.scheme.getD [])

/-- Behind the first colon of the userinfo there is a digit. -/
def DigitBehindColon (U : Bytes) : Prop := (U.dropWhile (· ≠ 58)).tail.head?.any isdigit = true

/-- Nothing is lost: the path is not saved without a scheme and an authority, a userinfo may be
taken for a port, and a port may not fit in an `int`. -/
structure Extracted (c : UriParts) : Prop where
  path : c.path = [] ∨ c.path = ascii ['/'] ∨ c.scheme.isSome = true ∧ c.authority.isSome = true
  userinfo : ∀ U, c.authority.bind Authority.userinfo = some U → ¬ DigitBehindColon U
  port : decimalValue c.portDigits < 2 ^ 31

end UriParts

/-! ## The port -/

theorem portValue_eq {P : Bytes} (h : P.all isdigit = true) :
    UriParser.portValue P = intOfLong (min (decimalValue P : Int) (2 ^ 63 - 1)) := by
  rw [UriParser.portValue, leadingDigits_eq_foldl 0 h]
  rfl

theorem intOfLong_bounds (n : Int) : -2 ^ 31 ≤ intOfLong n ∧ intOfLong n < 2 ^ 31 := by
  have hle := Int.le_bmod (x := n) (m := 2 ^ 32) (by omega)
  have hlt := Int.bmod_lt (x := n) (m := 2 ^ 32) (by omega)
  unfold intOfLong
  omega

theorem intOfLong_of_lt {n : Nat} (h : n < 2 ^ 31) :
    intOfLong (min (n : Int) (2 ^ 63 - 1)) = n := by
  have hmin : min (n : Int) (2 ^ 63 - 1) = n := by omega
  rw [hmin]
  unfold intOfLong
  apply Int.bmod_eq_of_le <;> omega

theorem defaultPort_lt (scheme : Bytes) : defaultPort scheme < 2 ^ 31 := by
  unfold defaultPort
  split
  · decide
  · split
    · decide
    · decide

theorem getPort_eq (u : Uri) : u.getPort = if u.port ≠ 0 then u.port else defaultPort u.scheme := by
  unfold Uri.getPort defaultPort
  by_cases hport : u.port = 0
  · simp [hport]
  · simp [hport]

/-- A port that does not fit is not returned as it is. -/
theorem getPort_iff {u : Uri} {P : Bytes} (hP : P.all isdigit = true)
    (hu : u.port = UriParser.portValue P) :
    u.getPort = (if decimalValue P ≠ 0 then (decimalValue P : Int) else defaultPort u.scheme) ↔
      decimalValue P < 2 ^ 31 := by
  rw [getPort_eq, hu, portValue_eq hP]
  constructor
  · intro h
    by_contra hlarge
    have hbound := intOfLong_bounds (min (decimalValue P : Int) (2 ^ 63 - 1))
    have hdefault := defaultPort_lt u.scheme
    rw [if_pos (show decimalValue P ≠ 0 by omega)] at h
    split at h
    · omega
    · omega
  · intro h
    rw [intOfLong_of_lt h]
    simp only [ne_eq, Int.natCast_eq_zero]

/-! ## The path and the userinfo -/

theorem getPath_iff {u : Uri} {c : UriParts}
    (hu : u.path = if c.scheme.isSome ∧ c.authority.isSome then c.path else []) :
    u.getPath = (if c.path = [] then ascii ['/'] else c.path) ↔
      c.path = [] ∨ c.path = ascii ['/'] ∨ c.scheme.isSome = true ∧ c.authority.isSome = true := by
  rw [Uri.getPath, hu]
  by_cases hboth : c.scheme.isSome = true ∧ c.authority.isSome = true
  · rw [if_pos hboth]
    exact iff_of_true rfl (Or.inr (Or.inr hboth))
  · rw [if_neg hboth, if_pos rfl]
    by_cases hnil : c.path = []
    · rw [if_pos hnil]
      exact iff_of_true rfl (Or.inl hnil)
    · rw [if_neg hnil]
      constructor
      · exact fun h => Or.inr (Or.inl h.symm)
      · exact fun h => (h.resolve_left hnil).elim Eq.symm fun h => absurd h hboth

theorem savedUserinfo_eq_iff (U : Bytes) :
    UriParser.savedUserinfo U = U ↔ ¬ UriParts.DigitBehindColon U := by
  rw [UriParser.savedUserinfo, UriParts.DigitBehindColon]
  by_cases hdigit : (U.dropWhile (· ≠ 58)).tail.head?.any isdigit = true
  · rw [if_pos hdigit]
    refine iff_of_false ?_ (not_not_intro hdigit)
    intro heq
    -- what stands behind the colon is shorter
    have hlen := congrArg List.length heq
    have hle := (List.dropWhile_suffix (· ≠ 58) (l := U)).length_le
    rw [List.length_tail] at hlen
    cases hU : U with
    | nil =>
      rw [hU] at hdigit
      cases hdigit
    | cons b U' =>
      rw [hU, List.length_cons] at hlen hle
      omega
  · rw [if_neg hdigit]
    exact iff_of_true rfl hdigit

/-! ## What is extracted -/

section Parts

variable {c : UriParts} (hc : c.WellFormed UriParser.host.lang)

theorem portDigits_all (hc : c.WellFormed UriParser.host.lang) : c.portDigits.all isdigit = true := by
  rw [UriParts.portDigits]
  cases hauthority : c.authority with
  | none => rfl
  | some a =>
    cases hport : a.port with
    | none =>
      rw [Option.bind_some, hport]
      rfl
    | some P =>
      rw [Option.bind_some, hport]
      exact UriParser.port_digits ((hc.authority a hauthority).port P hport)

theorem userinfo_iff (c : UriParts) :
    (Uri.ofParts c).userinfo = (c.authority.bind Authority.userinfo).getD [] ↔
      ∀ U, c.authority.bind Authority.userinfo = some U → ¬ UriParts.DigitBehindColon U := by
  rw [Uri.ofParts]
  cases c.authority.bind Authority.userinfo with
  | none => exact iff_of_true rfl fun U hU => by cases hU
  | some U =>
    rw [Option.map_some, Option.getD_some, Option.getD_some, savedUserinfo_eq_iff]
    constructor
    · intro h V hV
      exact Option.some.inj hV ▸ h
    · exact fun h => h U rfl

theorem getters_ofParts (hc : c.WellFormed UriParser.host.lang) :
    (Uri.ofParts c).getters = c.getters ↔ c.Extracted := by
  have hpath := getPath_iff (u := Uri.ofParts c) (c := c) rfl
  have huserinfo := userinfo_iff c
  have hport := getPort_iff (u := Uri.ofParts c) (portDigits_all hc) rfl
  constructor
  · intro h
    exact ⟨hpath.mp (congrArg UriGetters.path h), huserinfo.mp (congrArg UriGetters.userinfo h),
      hport.mp (congrArg UriGetters.port h)⟩
  · intro h
    rw [Uri.getters, UriParts.getters, UriGetters.mk.injEq]
    exact ⟨rfl, huserinfo.mpr h.userinfo, rfl, hpath.mpr h.path, rfl, rfl, hport.mpr h.port⟩

end Parts

namespace Uri

open Rfc3986 (components)

/-- The getters return the parts of the text where nothing of them is lost, and only there. -/
theorem getters_create_iff {s : Bytes} {u : Uri} (h : create s = some (some u)) :
    u.getters = (components s).getters ↔ (components s).Extracted := by
  obtain ⟨hs, -, hu⟩ := create_eq_some_iff.mp h
  rw [hu]
  exact getters_ofParts (exists_parts hs).1

/-- A text with all parts. -/
theorem getters_create_iff_all : ∃ u, create (ascii "http://a@h:80/p?q#f".toList) = some (some u) ∧
    (u.getters = (components (ascii "http://a@h:80/p?q#f".toList)).getters ↔
      (components (ascii "http://a@h:80/p?q#f".toList)).Extracted) := by
  have hcreate := create_of_accepted (s := ascii "http://a@h:80/p?q#f".toList)
    (c := ⟨some (ascii "http".toList), some ⟨some [97], [104], some [56, 48]⟩, [47, 112], some [113],
      some [102]⟩)
    (by decide +kernel) (by decide) (by decide)
  exact ⟨_, hcreate, getters_create_iff hcreate⟩

/-- Without a scheme the path is lost, and a digit behind a colon cuts the userinfo. -/
theorem getters_create_lost :
    (∃ u, create (ascii "/p".toList) = some (some u) ∧
      u.getters ≠ (components (ascii "/p".toList)).getters) ∧
    ∃ u, create (ascii "http://u:8a@h/".toList) = some (some u) ∧
      u.getters ≠ (components (ascii "http://u:8a@h/".toList)).getters := by
  constructor
  · have hcreate := create_of_accepted (s := ascii "/p".toList) (c := ⟨none, none, [47, 112], none, none⟩)
      (by decide +kernel) (by decide) (by decide)
    exact ⟨_, hcreate, by decide⟩
  · have hcreate := create_of_accepted (s := ascii "http://u:8a@h/".toList)
      (c := ⟨some (ascii "http".toList), some ⟨some [117, 58, 56, 97], [104], none⟩, [47], none, none⟩)
      (by decide +kernel) (by decide) (by decide)
    exact ⟨_, hcreate, by decide⟩

end Uri

end Azure
