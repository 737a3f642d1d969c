import Azure.Uri.Parts

/-!
# What `uri_parser` performs

The actions of each part of the machine, as conditions on the text in front of a byte and on the byte.
Most parts perform nothing in most places: they can not begin yet, or a byte behind their end has been
taken.
-/

namespace Azure

open Reasoning Machine Computability

namespace UriParser

open UriAction

def EndsQuery (c : Option UInt8) : Prop := c = some 35 ∨ c = none

def EndsPath (c : Option UInt8) : Prop := c = some 63 ∨ EndsQuery c

def EndsAuthority (c : Option UInt8) : Prop := c = some 47 ∨ EndsPath c

def ending : Rule := seq [opt (seq [char '?', query]), opt (seq [char '#', fragment])]

/-- `path_abempty > markh %save_path` -/
def savedPath : Rule := leaving savePath (entering markh pathAbempty)

theorem any_eq_iff (c : Option UInt8) (b : UInt8) :
    c.any (fun x => decide (x = b)) = true ↔ c = some b := by
  cases c with
  | none => simp
  | some x => simp

theorem begins_char (ch : Char) (c : Option UInt8) :
    (char ch : Rule).begins c = true ↔ c = some ch.toNat.toUInt8 := any_eq_iff c _

theorem begins_slashSegment (c : Option UInt8) :
    slashSegment.begins c = true ↔ c = some 47 := by
  show ((char '/' : Rule).begins c || false && _) = true ↔ _
  rw [Bool.false_and, Bool.or_false, begins_char]
  rfl

theorem begins_pathAbempty (c : Option UInt8) :
    pathAbempty.begins c = true ↔ c = some 47 := by
  show ((slashSegment.begins c || false) || true && slashSegment.begins c) = true ↔ _
  rw [Bool.or_false, Bool.true_and, Bool.or_self, begins_slashSegment]

/-! ## The parts -/

section Parts

variable (u : Bytes) (c : Option UInt8) (B : Language UInt8) (k : Prop)

/-- A part behind a character that may be missing. -/
theorem fired_opt_char (ch : Char) (r : Rule) :
    fired u c B k (opt (seq [char ch, r])) = fired u c (B * (char ch : Rule).lang) k r := by
  rw [fired_opt]
  exact List.nil_append _

def queried (B : Language UInt8) : Language UInt8 := B * (opt (seq [char '?', query])).lang

theorem fired_ending :
    fired u c B k ending =
      fired u c (B * (char '?' : Rule).lang) (c = some 35 ∨ k) query ++
        fired u c (queried B * (char '#' : Rule).lang) k fragment := by
  have hhash : ((opt (seq [char '#', fragment]) : Rule).begins c = true ∨
      (opt (seq [char '#', fragment]) : Rule).nullable = true ∧ k) ↔ c = some 35 ∨ k := by
    show ((((char '#' : Rule).begins c || false && _) || false) = true ∨ true = true ∧ k) ↔ _
    rw [Bool.false_and, Bool.or_false, Bool.or_false, begins_char, eq_self, true_and]
    rfl
  show fired u c B k (cat (opt (seq [char '?', query])) (opt (seq [char '#', fragment]))) = _
  rw [fired, hhash, fired_opt_char, fired_opt_char]
  rfl

theorem fired_relativePart :
    fired u c B k relativePart =
      fired u c (B * (text "//" : Rule).lang) (c = some 47 ∨ k) authority := by
  have hpath : (pathAbempty.begins c = true ∨ pathAbempty.nullable = true ∧ k) ↔
      c = some 47 ∨ k := by
    rw [begins_pathAbempty]
    exact or_congr_right (and_iff_right (by decide))
  have hrest : fired u c B k (oneOf [pathAbsolute, pathNoscheme, pathEmpty]) = [] :=
    fired_of_silent (by decide)
  show fired u c B k (alt (cat (text "//") (cat authority pathAbempty)) _) = _
  rw [fired, hrest, List.append_nil, fired, fired_of_silent (by decide), List.nil_append, fired,
    hpath, fired_of_silent (r := pathAbempty) (by decide), List.append_nil]

theorem fired_hierPart :
    fired u c B k hierPart =
      fired u c (B * (text "//" : Rule).lang) (c = some 47 ∨ k) authority ++
        fired u c (B * (text "//" : Rule).lang * authority.lang) k savedPath := by
  have hpath : (savedPath.begins c = true ∨ savedPath.nullable = true ∧ k) ↔
      c = some 47 ∨ k := by
    show (pathAbempty.begins c = true ∨ _) ↔ _
    rw [begins_pathAbempty]
    exact or_congr_right (and_iff_right (by decide))
  have hrest : fired u c B k (oneOf [pathAbsolute, pathRootless, pathEmpty]) = [] :=
    fired_of_silent (by decide)
  show fired u c B k (alt (cat (text "//") (cat authority savedPath)) _) = _
  rw [fired, hrest, List.append_nil, fired, fired_of_silent (by decide), List.nil_append, fired,
    hpath]

theorem begins_ending : (ending.begins c = true ∨ ending.nullable = true ∧ c = none) ↔
    EndsPath c := by
  have hbegins : ending.begins c = true ↔ c = some 63 ∨ c = some 35 := by
    show ((((char '?' : Rule).begins c || false && _) || false) || true &&
      (((char '#' : Rule).begins c || false && _) || false)) = true ↔ _
    rw [Bool.false_and, Bool.false_and, Bool.or_false, Bool.or_false, Bool.or_false, Bool.or_false,
      Bool.true_and, Bool.or_eq_true, begins_char, begins_char]
    rfl
  have hnullable : ending.nullable = true := by decide
  rw [hbegins, and_iff_right hnullable, or_assoc]
  rfl

/-- `scheme ":"` -/
def schemeColon : Language UInt8 := scheme.lang * colon.lang

theorem fired_uri :
    fired u c 1 (c = none) uri =
      fired u c 1 (c = some 58) scheme ++
        (fired u c schemeColon (EndsPath c) hierPart ++
          fired u c (schemeColon * hierPart.lang) (c = none) ending) := by
  have hcolon : (colon.begins c = true ∨ colon.nullable = true ∧
      ((cat hierPart ending).begins c = true ∨ (cat hierPart ending).nullable = true ∧ c = none)) ↔
        c = some 58 := by
    rw [colon, begins_char]
    exact or_iff_left fun h => Bool.false_ne_true h.1
  show fired u c 1 (c = none) (cat scheme (cat colon (cat hierPart ending))) = _
  have hbegins : ((cat colon (cat hierPart ending)).begins c = true ∨
      (cat colon (cat hierPart ending)).nullable = true ∧ c = none) ↔ c = some 58 := by
    rw [← hcolon]
    show ((colon.begins c || false && _) = true ∨ false = true ∧ _) ↔ (_ ∨ false = true ∧ _)
    simp
  rw [fired, hbegins, fired, fired_of_silent (r := colon) rfl, List.nil_append, fired,
    begins_ending, one_mul]
  rfl

theorem fired_relativeRef :
    fired u c 1 (c = none) relativeRef =
      fired u c 1 (EndsPath c) relativePart ++
        fired u c relativePart.lang (c = none) ending := by
  show fired u c 1 (c = none) (cat relativePart ending) = _
  rw [fired, begins_ending, one_mul]

theorem performed_eq : uriReference.performed u c =
    (fired u c 1 (c = none) uri ++ fired u c 1 (c = none) relativeRef).eraseDups := rfl

end Parts

/-! ## Where nothing is performed -/

section Dead

variable {u : Bytes} {c : Option UInt8} {B : Language UInt8} {k : Prop}

theorem mem_of_front {v : Bytes} {L : Language UInt8} {b : UInt8}
    (hL : ∀ x ∈ L, b ∈ x) (hv : v ∈ B * L) (hu : v <+: u) : b ∈ u := by
  obtain ⟨x, hx, y, hy, hxy⟩ := Language.mem_mul.mp hv
  exact hu.subset (hxy ▸ List.mem_append_right x (hL y hy))

theorem mem_char_self (ch : Char) : ∀ x ∈ (char ch : Rule).lang, ch.toNat.toUInt8 ∈ x := by
  intro x hx
  rw [(mem_char ch).mp hx]
  exact List.mem_singleton_self _

/-- A query begins behind its question mark, and a fragment behind its hash. -/
theorem fired_ending_front (hquestion : 63 ∉ u) (hhash : 35 ∉ u) :
    fired u c B k ending = [] := by
  rw [fired_ending, fired_of_no_prefix, fired_of_no_prefix, List.append_nil]
  · exact fun v hv hu => hhash (mem_of_front (mem_char_self '#') hv hu)
  · exact fun v hv hu => hquestion (mem_of_front (mem_char_self '?') hv hu)

/-- An authority begins behind two slashes. -/
theorem not_prefix_slashes (h : ∀ y, u ≠ 47 :: 47 :: y) :
    ∀ v ∈ (1 : Language UInt8) * (text "//" : Rule).lang, ¬ v <+: u := by
  intro v hv hu
  rw [one_mul] at hv
  obtain ⟨x, hx, y, hy, hxy⟩ := Language.mem_mul.mp hv
  rw [(mem_char '/').mp hx, (mem_char '/').mp hy] at hxy
  obtain ⟨rest, hrest⟩ := hu
  rw [← hxy] at hrest
  exact h rest hrest.symm

theorem fired_relativePart_front (h : ∀ y, u ≠ 47 :: 47 :: y) :
    fired u c 1 k relativePart = [] := by
  rw [fired_relativePart]
  exact fired_of_no_prefix (not_prefix_slashes h)

theorem fired_hierPart_front (h : ∀ y, u ≠ 47 :: 47 :: y) :
    fired u c 1 k hierPart = [] := by
  rw [fired_hierPart, fired_of_no_prefix (not_prefix_slashes h), fired_of_no_prefix,
    List.append_nil]
  intro v hv hu
  obtain ⟨x, hx, y, hy, hxy⟩ := Language.mem_mul.mp hv
  exact not_prefix_slashes h x hx (List.IsPrefix.trans ⟨y, hxy⟩ hu)

/-- The first slashes of the text are those in front of the authority. -/
theorem behind_slashes (x : Bytes) :
    Behind [47, 47] x ((1 : Language UInt8) * (text "//" : Rule).lang) 1 := by
  intro v hv
  rw [one_mul]
  constructor
  · intro hmem
    obtain ⟨y, hy, z, hz, hyz⟩ := Language.mem_mul.mp hmem
    rw [(mem_char '/').mp hy, (mem_char '/').mp hz] at hyz
    exact ⟨[], Language.nil_mem_one, hyz⟩
  · intro hmem
    obtain ⟨y, hy, hyv⟩ := hmem
    rw [(Language.mem_one y).mp hy] at hyv
    exact Language.mem_mul.mpr ⟨_, (mem_char '/').mpr rfl, _, (mem_char '/').mpr rfl, hyv⟩

theorem fired_relativePart_authority (x : Bytes) :
    fired (47 :: 47 :: x) c 1 k relativePart = fired x c 1 (c = some 47 ∨ k) authority := by
  rw [fired_relativePart]
  exact fired_behind (behind_slashes x)

theorem fired_hierPart_authority (x : Bytes) :
    fired (47 :: 47 :: x) c 1 k hierPart =
      fired x c 1 (c = some 47 ∨ k) authority ++ fired x c authority.lang k savedPath := by
  have hpath := (behind_slashes x).mul authority.lang
  rw [one_mul (authority.lang)] at hpath
  have hsaved := fired_behind (c := c) (k := k) (r := savedPath) hpath
  have hauthority := fired_behind (c := c) (k := c = some 47 ∨ k) (r := authority)
    (behind_slashes x)
  rw [fired_hierPart]
  exact congrArg₂ _ hauthority hsaved

theorem schemeColon_colon : ∀ x ∈ schemeColon, 58 ∈ x := by
  intro x hx
  exact mem_of_front (mem_char_self ':') hx (List.prefix_refl x)

theorem not_mem_schemeColon {b : UInt8} (hb : b = 63 ∨ b = 35) : ∀ v ∈ schemeColon, b ∉ v := by
  apply not_mem_of_mem_mul
  · rcases hb with rfl | rfl
    · exact fun v hv => not_mem_of_uses (by decide) hv
    · exact fun v hv => not_mem_of_uses (by decide) hv
  · rcases hb with rfl | rfl
    · exact fun v hv => not_mem_of_uses (by decide) hv
    · exact fun v hv => not_mem_of_uses (by decide) hv

theorem fired_hierPart_ending {b : UInt8} (hb : b = 63 ∨ b = 35) (hu : b ∈ u) :
    fired u c schemeColon k hierPart = [] := by
  apply fired_of_foreign hu (not_mem_schemeColon hb)
  rcases hb with rfl | rfl
  · decide
  · decide

theorem fired_relativePart_ending {b : UInt8} (hb : b = 63 ∨ b = 35) (hu : b ∈ u) :
    fired u c 1 k relativePart = [] := by
  apply fired_of_foreign hu
  · intro v hv
    rw [(Language.mem_one v).mp hv]
    exact List.not_mem_nil
  · rcases hb with rfl | rfl
    · decide
    · decide

/-- A scheme begins with the text. -/
theorem fired_scheme_behind {b : UInt8} (hb : b = 58 ∨ b = 63 ∨ b = 35) (hu : b ∈ u) :
    fired u c 1 k scheme = [] := by
  apply fired_of_foreign hu
  · intro v hv
    rw [(Language.mem_one v).mp hv]
    exact List.not_mem_nil
  · rcases hb with rfl | rfl | rfl
    · decide
    · decide
    · decide

theorem fired_ending_of_no_prefix (hquestion : ∀ v ∈ B, ¬ v ++ [63] <+: u)
    (hhash : ∀ v ∈ B, ¬ v ++ [35] <+: u) : fired u c B k ending = [] := by
  have hquery : ∀ v ∈ B * (char '?' : Rule).lang, ¬ v <+: u := by
    intro v hv hu
    obtain ⟨x, hx, y, hy, hxy⟩ := Language.mem_mul.mp hv
    rw [(mem_char '?').mp hy] at hxy
    exact hquestion x hx (hxy ▸ hu)
  rw [fired_ending, fired_of_no_prefix hquery, fired_of_no_prefix, List.append_nil]
  intro v hv hu
  obtain ⟨w, hw, z, hz, hwz⟩ := Language.mem_mul.mp hv
  obtain ⟨x, hx, y, hy, hxy⟩ := Language.mem_mul.mp hw
  rw [(mem_char '#').mp hz] at hwz
  rcases (mem_opt _).mp hy with hy | hy
  · obtain ⟨q, hq, y', -, hqy⟩ := Language.mem_mul.mp hy
    refine hquery (x ++ q) (Language.append_mem_mul hx hq) (List.IsPrefix.trans ?_ hu)
    exact ⟨y' ++ [35], by rw [← hwz, ← hxy, ← hqy]; simp⟩
  · rw [hy, List.append_nil] at hxy
    exact hhash x hx (hxy ▸ hwz ▸ hu)

end Dead

theorem lang_char (ch : Char) : (char ch : Rule).lang = {[ch.toNat.toUInt8]} :=
  Language.ext fun _ => mem_char ch

/-! ## Texts with a scheme -/

section Scheme

variable {s : Bytes} (hs : s ∈ scheme.lang)
include hs

theorem colon_not_mem_scheme : 58 ∉ s := not_mem_of_uses (by decide) hs

theorem slash_not_mem_scheme : 47 ∉ s := not_mem_of_uses (by decide) hs

theorem scheme_ne_nil : s ≠ [] := by
  intro hnil
  have hnullable := (nullable_iff scheme).mpr (hnil ▸ hs)
  exact absurd hnullable (by decide)

theorem not_slashes_of_scheme {r : Bytes} (hr : s <+: r) : ∀ y, r ≠ 47 :: 47 :: y := by
  intro y heq
  cases s with
  | nil => exact scheme_ne_nil hs rfl
  | cons b s =>
    obtain ⟨z, hz⟩ := hr
    rw [heq, List.cons_append, List.cons_eq_cons] at hz
    exact slash_not_mem_scheme hs (by simp [hz.1])

/-- The first segment of a relative reference has no colon. -/
theorem not_relative_of_scheme {v : Bytes} (hv : v ∈ relativePart.lang) : ¬ s ++ [58] <+: v := by
  intro hpre
  have hsplit : ∃ x y, v = x ++ y ∧ 58 ∉ x ∧ 47 ∉ x ∧ ∀ b, y.head? = some b → b = 47 := by
    rcases hv with hv | hv
    · obtain ⟨x, hx, y, hy, hxy⟩ := Language.mem_mul.mp hv
      obtain ⟨x₁, hx₁, x₂, hx₂, hx'⟩ := Language.mem_mul.mp hx
      refine ⟨[], v, rfl, by simp, by simp, ?_⟩
      rw [← hxy, ← hx', (mem_char '/').mp hx₁]
      exact fun b hb => (Option.some.inj hb).symm
    · exact Rfc3986.colon_path (c := ⟨none, none, v, none, none⟩) rfl rfl hv
  obtain ⟨x, y, hxy, hcolon, hslash, hy⟩ := hsplit
  obtain ⟨z, hz⟩ := hpre
  rw [hxy, List.append_assoc] at hz
  rcases List.append_eq_append_iff.mp hz with ⟨w, hw, hw'⟩ | ⟨w, hw, hw'⟩
  · cases w with
    | nil =>
      rw [List.nil_append] at hw'
      exact absurd (hy 58 (by rw [← hw']; rfl)) (by decide)
    | cons b w =>
      rw [List.singleton_append, List.cons_append, List.cons_eq_cons] at hw'
      exact hcolon (by rw [hw, ← hw'.1]; simp)
  · cases w with
    | nil =>
      rw [List.nil_append] at hw'
      exact absurd (hy 58 (by rw [hw']; rfl)) (by decide)
    | cons b w =>
      have hb := hy b (by rw [hw']; rfl)
      exact slash_not_mem_scheme hs (by rw [hw, hb]; simp)

theorem behind_scheme (y : Bytes) : Behind (s ++ [58]) y schemeColon 1 := by
  have hcolon : schemeColon = scheme.lang * {[58]} := congrArg _ (lang_char ':')
  rw [hcolon]
  exact behind_delimiter (fun v hv => colon_not_mem_scheme hv) hs y

/-- In front of the colon the machine is at work on the scheme. -/
theorem performed_scheme {y : Bytes} (c : Option UInt8) (hy : y <+: s) :
    uriReference.performed y c = (fired y c 1 (c = some 58) scheme).eraseDups := by
  have hnot : ∀ b, scheme.uses b = false → b ∉ y :=
    fun b hb hmem => not_mem_of_uses hb hs (hy.subset hmem)
  have hquestion := hnot 63 (by decide)
  have hhash := hnot 35 (by decide)
  have hslashes : ∀ z, y ≠ 47 :: 47 :: z :=
    fun z heq => hnot 47 (by decide) (by rw [heq]; simp)
  have hhier : fired y c schemeColon (EndsPath c) hierPart = [] :=
    fired_of_no_prefix fun v hv hpre =>
      hnot 58 (by decide) (hpre.subset (schemeColon_colon v hv))
  rw [performed_eq, fired_uri, fired_relativeRef, hhier, fired_ending_front hquestion hhash,
    fired_relativePart_front hslashes, fired_ending_front hquestion hhash]
  simp only [List.append_nil]

/-- Behind the colon it is at work on the hierarchical part. -/
theorem performed_hierPart {y : Bytes} (c : Option UInt8) (hquestion : 63 ∉ y) (hhash : 35 ∉ y) :
    uriReference.performed (s ++ [58] ++ y) c =
      (fired y c 1 (EndsPath c) hierPart).eraseDups := by
  have hcolon : 58 ∈ s ++ [58] ++ y := by simp
  have hnot : ∀ b, b ≠ 58 → scheme.uses b = false → b ∉ y → b ∉ s ++ [58] ++ y := by
    intro b hb hs' hy
    simp only [List.mem_append, List.mem_singleton, not_or]
    exact ⟨⟨not_mem_of_uses hs' hs, hb⟩, hy⟩
  have hquestion' := hnot 63 (by decide) (by decide) hquestion
  have hhash' := hnot 35 (by decide) (by decide) hhash
  have hslashes := not_slashes_of_scheme hs (r := s ++ [58] ++ y)
    (by rw [List.append_assoc]; exact List.prefix_append _ _)
  rw [performed_eq, fired_uri, fired_relativeRef, fired_scheme_behind (Or.inl rfl) hcolon,
    fired_behind (behind_scheme hs y), fired_ending_front hquestion' hhash',
    fired_relativePart_front hslashes, fired_ending_front hquestion' hhash']
  simp only [List.append_nil, List.nil_append]

/-- Behind the first question mark or hash it is at work on the query and the fragment. -/
theorem performed_ending {y : Bytes} (c : Option UInt8) {b : UInt8} (hb : b = 63 ∨ b = 35)
    (hy : b ∈ y) :
    uriReference.performed (s ++ [58] ++ y) c =
      (fired (s ++ [58] ++ y) c (schemeColon * hierPart.lang) (c = none) ending).eraseDups := by
  have hcolon : 58 ∈ s ++ [58] ++ y := by simp
  have hmem : b ∈ s ++ [58] ++ y := List.mem_append_right _ hy
  have hnot : ∀ d, d = 63 ∨ d = 35 → ∀ v ∈ relativePart.lang, ¬ v ++ [d] <+: s ++ [58] ++ y := by
    intro d hd v hv hpre
    have hd' : d ∉ s ++ [58] := by
      rw [List.mem_append, not_or]
      rcases hd with rfl | rfl
      · exact ⟨not_mem_of_uses (by decide) hs, by decide⟩
      · exact ⟨not_mem_of_uses (by decide) hs, by decide⟩
    rcases List.prefix_or_prefix_of_prefix hpre (List.prefix_append _ y) with h | h
    · exact hd' (h.subset (by simp))
    · rcases List.prefix_concat_iff.mp h with heq | h
      · exact hd' (heq ▸ by simp)
      · exact not_relative_of_scheme hs hv h
  rw [performed_eq, fired_uri, fired_relativeRef, fired_scheme_behind (Or.inl rfl) hcolon,
    fired_hierPart_ending hb hmem, fired_relativePart_ending hb hmem,
    fired_ending_of_no_prefix (hnot 63 (Or.inl rfl)) (hnot 35 (Or.inr rfl))]
  simp only [List.append_nil, List.nil_append]

end Scheme

/-! ## Texts without a scheme -/

def NoScheme (t : Bytes) : Prop := ∀ v ∈ scheme.lang, ¬ v ++ [58] <+: t

section Relative

variable {t : Bytes} (ht : NoScheme t)
include ht

theorem schemeColon_not_prefix {u : Bytes} (hu : u <+: t) : ∀ v ∈ schemeColon, ¬ v <+: u := by
  intro v hv hpre
  obtain ⟨x, hx, y, hy, hxy⟩ := Language.mem_mul.mp hv
  rw [(mem_char ':').mp hy] at hxy
  exact ht x hx (hxy ▸ hpre.trans hu)

/-- A text without a scheme can only be taken for one at its first byte. -/
theorem fired_uri_relative {u : Bytes} {c : Option UInt8} (hu : u ++ c.toList <+: t) :
    fired u c 1 (c = none) uri = [] ∨ u = [] ∧ (∃ b, c = some b ∧ b ≠ 47) ∧
      fired u c 1 (c = none) uri = [UriAction.marku] := by
  have hpre : u <+: t := (List.prefix_append u _).trans hu
  have hnone := schemeColon_not_prefix ht hpre
  have hending : ∀ v ∈ schemeColon * hierPart.lang, ¬ v <+: u := by
    intro v hv hpre'
    obtain ⟨x, hx, y, hy, hxy⟩ := Language.mem_mul.mp hv
    exact hnone x hx (List.IsPrefix.trans ⟨y, hxy⟩ hpre')
  have hsilent : (cat alpha (star (oneOf [alpha, digit, among "+-."])) : Rule).silent = true := by
    decide
  have hleave : ¬ (u ∈ (1 : Language UInt8) *
      (cat alpha (star (oneOf [alpha, digit, among "+-."])) : Rule).lang ∧ c = some 58) := by
    intro h
    rw [one_mul] at h
    refine ht u h.1 ?_
    rw [h.2] at hu
    exact hu
  rw [fired_uri, fired_of_no_prefix hnone, fired_of_no_prefix hending]
  simp only [List.append_nil]
  rw [scheme, fired_part hsilent, if_neg hleave, List.append_nil]
  by_cases henter : u ∈ (1 : Language UInt8) ∧
      ((cat alpha (star (oneOf [alpha, digit, among "+-."])) : Rule).begins c = true ∨
        (cat alpha (star (oneOf [alpha, digit, among "+-."])) : Rule).nullable = true ∧ c = some 58)
  · right
    refine ⟨(Language.mem_one u).mp henter.1, ?_, if_pos henter⟩
    rcases henter.2 with h | h
    · cases c with
      | none => cases h
      | some b =>
        refine ⟨b, rfl, ?_⟩
        intro hb
        rw [hb] at h
        exact absurd h (by decide)
    · exact absurd h.1 (by decide)
  · exact Or.inl (if_neg henter)

theorem performed_relativePart {y : Bytes} {c : Option UInt8} (hy : y ++ c.toList <+: t)
    (hquestion : 63 ∉ y) (hhash : 35 ∉ y) :
    uriReference.performed y c = (fired y c 1 (EndsPath c) relativePart).eraseDups ∨
      y = [] ∧ (∃ b, c = some b ∧ b ≠ 47) ∧ uriReference.performed y c = [UriAction.marku] := by
  rw [performed_eq, fired_relativeRef, fired_ending_front hquestion hhash, List.append_nil]
  rcases fired_uri_relative ht hy with h | ⟨hnil, hb, h⟩
  · rw [h]
    exact Or.inl rfl
  · right
    have hslashes : ∀ z, y ≠ 47 :: 47 :: z := fun z heq => by
      rw [heq] at hnil
      cases hnil
    refine ⟨hnil, hb, ?_⟩
    rw [h, fired_relativePart_front hslashes]
    rfl

theorem performed_ending_relative {y : Bytes} {c : Option UInt8} (hy : y ++ c.toList <+: t) {b : UInt8}
    (hb : b = 63 ∨ b = 35) (hmem : b ∈ y) :
    uriReference.performed y c =
      (fired y c relativePart.lang (c = none) ending).eraseDups := by
  rw [performed_eq, fired_relativeRef, fired_relativePart_ending hb hmem, List.nil_append]
  rcases fired_uri_relative ht hy with h | ⟨hnil, -, -⟩
  · rw [h]
    rfl
  · rw [hnil] at hmem
    cases hmem

end Relative

end UriParser

end Azure
