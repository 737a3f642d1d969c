import Azure.Http.RequestRoundTrip

/-!
# URIs as targets of requests

The path, the query and the fragment of a URI that `Uri::Create` returns are what the request line can
hold, unless the path begins with two slashes, and its host is the value of a header.
-/

namespace Azure

open Reasoning Machine

/-! ## Words and texts -/

section Words

variable {plain : UInt8 → Bool} {w : Bytes}

theorem forall_byte {p : UInt8 → Bool} (h : ∀ n < 256, p (UInt8.ofNat n) = true) (b : UInt8) :
    p b = true := by
  have hb := h b.toNat b.toNat_lt
  rwa [UInt8.ofNat_toNat] at hb

/-- The bytes of a rule are all plain. -/
theorem isText_of_uses {r : Rfc3986.Rule} (hesc : plain 37 = false)
    (hr : ∀ n < 256, (!r.uses (UInt8.ofNat n) || plain (UInt8.ofNat n)) = true) (hw : w ∈ r.lang) :
    HttpRequestParser.isText plain w = true := by
  apply Scanner.escaped_of_all hesc
  intro b hb
  have hplain : (!r.uses b || plain b) = true :=
    forall_byte (p := fun b => !r.uses b || plain b) hr b
  rwa [uses_of_mem hw hb, Bool.not_true, Bool.false_or] at hplain

theorem isText_pctEncoded (hw : w ∈ Rfc3986.pctEncoded.lang) :
    HttpRequestParser.isText plain w = true := by
  obtain ⟨x, hx, y, hy, hxy⟩ := Language.mem_mul.mp hw
  obtain ⟨c, ⟨b, hb, hc⟩, d, ⟨b', hb', hd⟩, hcd⟩ := Language.mem_mul.mp hy
  have hdigit : ∀ b : UInt8, decide (48 ≤ b ∧ b ≤ 57 ∨ 65 ≤ b ∧ b ≤ 70 ∨ 97 ≤ b ∧ b ≤ 102) = true →
      isxdigit b = true := fun b hb => hb
  rw [← hxy, ← hcd, (mem_char '%').mp hx, hc, hd]
  show (isxdigit b && isxdigit b' && Scanner.escaped 37 plain isxdigit []) = true
  rw [hdigit b hb, hdigit b' hb']
  rfl

theorem isText_star {r : Rfc3986.Rule} (hesc : plain 37 = false)
    (hr : ∀ v ∈ r.lang, HttpRequestParser.isText plain v = true) (hw : w ∈ (star r).lang) :
    HttpRequestParser.isText plain w = true := by
  obtain ⟨pieces, hflat, hpieces⟩ := Language.mem_kstar.mp hw
  rw [hflat]
  exact Scanner.escaped_flatten hesc fun v hv => hr v (hpieces v hv)

/-- A character of a path, of a query or of a fragment. -/
theorem isText_pchar (hesc : plain 37 = false) (hplain : ∀ b, ispath b = true → plain b = true)
    (hw : w ∈ Rfc3986.pchar.lang) : HttpRequestParser.isText plain w = true := by
  have hbytes : ∀ r : Rfc3986.Rule,
      (∀ n < 256, (!r.uses (UInt8.ofNat n) || ispath (UInt8.ofNat n)) = true) → w ∈ r.lang →
        HttpRequestParser.isText plain w = true := by
    intro r hr hmem
    refine isText_of_uses hesc (fun n hn => ?_) hmem
    rcases Bool.or_eq_true _ _ |>.mp (hr n hn) with h | h
    · rw [h, Bool.true_or]
    · rw [hplain _ h, Bool.or_true]
  rcases hw with h | h | h | h | h | h
  · exact hbytes Rfc3986.nonAscii (by decide +kernel) h
  · exact hbytes Rfc3986.unreserved (by decide +kernel) h
  · exact isText_pctEncoded h
  · exact hbytes Rfc3986.subDelims (by decide +kernel) h
  · exact hbytes (char ':') (by decide +kernel) h
  · exact hbytes (char '@') (by decide +kernel) h

theorem not_plain_percent : ispath 37 = false ∧ isquery 37 = false := by decide

theorem isText_query (hw : w ∈ Rfc3986.query.lang) : HttpRequestParser.isText isquery w = true := by
  refine isText_star not_plain_percent.2 (fun v hv => ?_) hw
  have hchar : ∀ c : Char, isquery c.toNat.toUInt8 = true → v = [c.toNat.toUInt8] →
      HttpRequestParser.isText isquery v = true := fun c hc hv => hv ▸ hc
  rcases hv with h | h | h
  · exact isText_pchar not_plain_percent.2 (fun b hb => decide_eq_true (.inl hb)) h
  · exact hchar '/' (by decide) ((mem_char '/').mp h)
  · exact hchar '?' (by decide) ((mem_char '?').mp h)

theorem isText_path (hw : w ∈ Rfc3986.pathAbempty.lang) : HttpRequestParser.isText ispath w = true := by
  refine isText_star not_plain_percent.1 (fun v hv => ?_) hw
  obtain ⟨x, hx, y, hy, hxy⟩ := Language.mem_mul.mp hv
  have hsegment : HttpRequestParser.isText ispath y = true :=
    isText_star not_plain_percent.1 (fun u hu => isText_pchar not_plain_percent.1 (fun _ hb => hb) hu) hy
  rw [← hxy, (mem_char '/').mp hx]
  exact hsegment ▸ Scanner.escaped_append (v := [47]) not_plain_percent.1 (by decide)

/-- A path that is not empty, without two slashes in front. -/
theorem isPath_of_mem (hw : w ∈ Rfc3986.pathAbempty.lang) (hne : w ≠ [])
    (hslashes : ¬ [47, 47] <+: w) : HttpRequestParser.isPath w = true := by
  rcases List.exists_cons_of_ne_nil hne with ⟨b, v, rfl⟩
  have hb : b = 47 := Rfc3986.head_abempty hw rfl
  subst hb
  have htext := isText_path hw
  rw [HttpRequestParser.isText, Scanner.escaped_cons (by decide), Bool.and_eq_true] at htext
  have hsecond : v.head? ≠ some 47 := by
    intro heq
    obtain ⟨u, rfl⟩ := List.head?_eq_some_iff.mp heq
    exact hslashes ⟨u, rfl⟩
  simp only [HttpRequestParser.isPath, List.head?_cons, List.tail_cons, decide_true, Bool.true_and,
    Bool.and_eq_true]
  exact ⟨htext.2, decide_eq_true hsecond⟩

/-- A text without blanks and control characters. -/
theorem isValue_of_uses {r : Rfc3986.Rule}
    (hr : ∀ b ∈ ([0, 9, 10, 13, 32, 127] : Bytes), r.uses b = false) (hw : w ∈ r.lang) :
    isValue w = true := by
  have hnot : ∀ b ∈ ([0, 9, 10, 13, 32, 127] : Bytes), b ∉ w := fun b hb => not_mem_of_uses (hr b hb) hw
  simp only [isValue, Bool.and_eq_true, List.all_eq_true, decide_eq_true_eq]
  refine ⟨⟨fun b hb => ⟨⟨⟨?_, ?_⟩, ?_⟩, ?_⟩, fun heq => ?_⟩, fun heq => ?_⟩
  · exact fun heq => hnot 0 (by decide) (heq ▸ hb)
  · exact fun heq => hnot 10 (by decide) (heq ▸ hb)
  · exact fun heq => hnot 13 (by decide) (heq ▸ hb)
  · exact fun heq => hnot 127 (by decide) (heq ▸ hb)
  · exact hnot 9 (by decide) (List.mem_of_head? heq)
  · exact hnot 32 (by decide) (List.mem_of_head? heq)

end Words

/-! ## URIs -/

namespace Uri

variable {s : Bytes} {u : Uri}

structure Target (u : Uri) : Prop where
  path : HttpRequestParser.isPath u.getPath = true
  query : HttpRequestParser.isText isquery u.query = true
  fragment : HttpRequestParser.isText isquery u.fragment = true
  host : isValue u.host = true

theorem target_of_create (h : create s = some (some u)) (hslashes : ¬ [47, 47] <+: u.path) :
    u.Target := by
  obtain ⟨hmem, -, rfl⟩ := create_eq_some_iff.mp h
  obtain ⟨hc, -⟩ := exists_parts hmem
  have hparts : ∀ {part : Option Bytes}, (∀ q, part = some q → q ∈ Rfc3986.query.lang) →
      HttpRequestParser.isText isquery (part.getD []) = true := by
    intro part hpart
    cases part with
    | none => rfl
    | some q => exact isText_query (hpart q rfl)
  have hnone : ¬ [47, 47] <+: (ofParts (Rfc3986.components s)).getPath := by
    rw [getPath]
    split_ifs with hnil
    · decide
    · exact hslashes
  exact { path := isPath_of_mem (getPath_ofParts_mem hc) (getPath_ne_nil _) hnone
          query := hparts hc.query
          fragment := hparts hc.fragment
          host := isValue_of_uses (by decide +kernel) (host_ofParts_mem hc) }

end Uri

end Azure
