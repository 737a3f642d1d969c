import Azure.Http.Message

/-!
# The host and the service of a lookup (`Address::Lookup`)

The string is searched with pointers into its buffer.  An attempt that finds no host has moved the
pointer to the service all the same.
-/

namespace Azure

/-- `memchr(s, c, n)` on the `n` bytes of a buffer, as the offset of what it finds. -/
def memchr (s : Bytes) (c : UInt8) : Option Nat := s.idxOf? c

namespace Address

section
variable (host : Bytes)

/-- What is found of `node`, and `service` as an offset in the buffer: the attempt for an address in
brackets. -/
def lookupIpv6 : Bytes × Option Nat :=
  if host.head? = some 91 then
    match memchr (host.drop 1) 93 with
    | some k =>
      let endipv6 := 1 + k
      -- behind the last byte there is a NUL
      let service := if host.getD (endipv6 + 1) 0 = 58 then some (endipv6 + 2) else none
      ((host.drop 1).take (endipv6 - 1), service)
    | none => ([], none)
  else ([], none)

def lookupService : Bytes × Option Nat :=
  match memchr host 58 with
  | some service =>
    match memchr (host.drop (service + 1)) 58 with
    | none => (host.take service, some (service + 1))
    | some _ => ([], some service)
  | none => ([], none)

/-- `node` and `service` as they are at the call of `getaddrinfo`. -/
def lookupPointers : Bytes × Option Nat :=
  let (node, service) := lookupIpv6 host
  let (node, service) := if node = [] then lookupService host else (node, service)
  if node = [] then (host, service) else (node, service)

/-- What `getaddrinfo(node.c_str(), service, ..)` reads. -/
def lookupTarget : Bytes × Option Bytes :=
  let (node, service) := lookupPointers host
  (cStr node, service.map fun k => cStr (host.drop k))

end

/-! ## What a host string means -/

/-- `[n]` or `[n]:s` -/
inductive Bracketed : Bytes → Bytes → Option Bytes → Prop
  | plain (n : Bytes) (hne : n ≠ []) (hend : 93 ∉ n) : Bracketed (91 :: n ++ [93]) n none
  | service (n s : Bytes) (hne : n ≠ []) (hend : 93 ∉ n) :
    Bracketed (91 :: n ++ 93 :: 58 :: s) n (some s)

inductive Named : Bytes → Bytes → Bytes → Prop
  | mk (n s : Bytes) (hne : n ≠ []) (hn : 58 ∉ n) (hs : 58 ∉ s) : Named (n ++ 58 :: s) n s

def Means (host node : Bytes) (service : Option Bytes) : Prop :=
  Bracketed host node service ∨
  (¬ ∃ n s, Bracketed host n s) ∧
    ((∃ s, Named host node s ∧ service = some s) ∨
      (¬ ∃ n s, Named host n s) ∧ node = host ∧ service = none)

/-- `getaddrinfo` reads what the string stands for. -/
def Splits (host : Bytes) : Prop :=
  ∃ node service, Means host node service ∧ lookupTarget host = (cStr node, service.map cStr)

def BracketFirst (host : Bytes) : Prop := ∃ n x, n ≠ [] ∧ 93 ∉ n ∧ host = 91 :: n ++ 93 :: x

/-! ## Searching -/

theorem memchr_none {s : Bytes} {c : UInt8} (h : c ∉ s) : memchr s c = none :=
  List.idxOf?_eq_none_iff.mpr h

theorem memchr_some {u v : Bytes} {c : UInt8} (h : c ∉ u) : memchr (u ++ c :: v) c = some u.length := by
  induction u with
  | nil => simp [memchr, List.idxOf?_cons]
  | cons b u ih =>
    rw [List.mem_cons, not_or] at h
    have hne : (b == c) = false := beq_false_of_ne (Ne.symm h.1)
    have hrest := ih h.2
    rw [memchr] at hrest
    rw [memchr, List.cons_append, List.idxOf?_cons, hne, hrest]
    rfl

section
variable {host n x : Bytes}

/-- What is found of an address in brackets. -/
theorem lookupTarget_bracket (hne : n ≠ []) (hend : 93 ∉ n) (hhost : host = 91 :: n ++ 93 :: x) :
    lookupTarget host = (cStr n, if x.head? = some 58 then some (cStr x.tail) else none) := by
  have hdrop : host.drop 1 = n ++ 93 :: x := by rw [hhost]; rfl
  have hfind : memchr (host.drop 1) 93 = some n.length := by rw [hdrop, memchr_some hend]
  have hhead : host.head? = some 91 := by rw [hhost]; rfl
  have hbehind : ∀ k, host.drop (1 + n.length + 1 + k) = x.drop k := by
    intro k
    have hsplit : host = (91 :: n ++ [93]) ++ x := by rw [hhost]; simp
    have hlen : 1 + n.length + 1 + k = (91 :: n ++ [93]).length + k := by simp; omega
    rw [hsplit, hlen, List.drop_append]
    simp
  have hnext : host.getD (1 + n.length + 1) 0 = 58 ↔ x.head? = some 58 := by
    have hget := congrArg List.head? (hbehind 0)
    rw [List.head?_drop, List.drop_zero] at hget
    rw [List.getD_eq_getElem?_getD, hget]
    cases x with
    | nil => exact ⟨fun h => absurd h (by decide), fun h => by cases h⟩
    | cons b x => simp
  have hnode : (host.drop 1).take (1 + n.length - 1) = n := by
    rw [hdrop, Nat.add_sub_cancel_left, List.take_left]
  have hservice : host.drop (1 + n.length + 2) = x.tail := by
    rw [← List.drop_one]
    exact hbehind 1
  simp only [lookupTarget, lookupPointers, lookupIpv6, hhead, if_true, hfind, hnode, hne, if_false,
    hnext]
  by_cases hcolon : x.head? = some 58
  · simp only [hcolon, if_true, Option.map_some, hservice]
  · simp only [hcolon, if_false, Option.map_none]

/-- Without brackets around a part that is not empty the first attempt finds nothing. -/
theorem lookupIpv6_fst (h : ¬ BracketFirst host) : (lookupIpv6 host).1 = [] := by
  rw [lookupIpv6]
  split
  · rename_i hhead
    obtain ⟨rest, rfl⟩ := List.head?_eq_some_iff.mp hhead
    rw [List.drop_one, List.tail_cons]
    by_cases hmem : 93 ∈ rest
    · obtain ⟨n, x, rfl, hend⟩ := List.eq_append_cons_of_mem hmem
      have hnil : n = [] := by
        by_contra hne
        exact h ⟨n, x, hne, hend, rfl⟩
      rw [memchr_some hend, hnil]
      rfl
    · rw [memchr_none hmem]
  · rfl

theorem lookupPointers_service (h : ¬ BracketFirst host) :
    lookupPointers host =
      if (lookupService host).1 = [] then (host, (lookupService host).2) else lookupService host := by
  simp only [lookupPointers, lookupIpv6_fst h, if_true]

/-- What is read when the string has no colon. -/
theorem lookupTarget_plain (h : ¬ BracketFirst host) (hcolon : 58 ∉ host) :
    lookupTarget host = (cStr host, none) := by
  rw [lookupTarget, lookupPointers_service h, lookupService, memchr_none hcolon]
  rfl

/-- What is read when it has one. -/
theorem lookupTarget_named {s : Bytes} (h : ¬ BracketFirst host) (hn : 58 ∉ n) (hs : 58 ∉ s)
    (hhost : host = n ++ 58 :: s) :
    lookupTarget host = (if n = [] then cStr host else cStr n, some (cStr s)) := by
  have hbehind : host.drop (n.length + 1) = s := by
    rw [hhost, List.drop_append]
    simp
  have hfront : host.take n.length = n := by rw [hhost, List.take_left]
  have hfind : memchr host 58 = some n.length := by rw [hhost, memchr_some hn]
  have hservice : lookupService host = (n, some (n.length + 1)) := by
    simp only [lookupService, hfind, hbehind, memchr_none hs, hfront]
  rw [lookupTarget, lookupPointers_service h, hservice]
  by_cases hnil : n = []
  · simp only [hnil, if_true, Option.map_some, ← hbehind]
  · simp only [hnil, if_false, Option.map_some, hbehind]

/-- When it has more, the service begins at the first of them. -/
theorem lookupTarget_colons {s : Bytes} (h : ¬ BracketFirst host) (hn : 58 ∉ n) (hs : 58 ∈ s)
    (hhost : host = n ++ 58 :: s) : lookupTarget host = (cStr host, some (cStr (58 :: s))) := by
  have hat : host.drop n.length = 58 :: s := by rw [hhost, List.drop_left]
  have hbehind : host.drop (n.length + 1) = s := by
    rw [hhost, List.drop_append]
    simp
  have hfind : memchr host 58 = some n.length := by rw [hhost, memchr_some hn]
  obtain ⟨u, v, huv, hu⟩ := List.eq_append_cons_of_mem hs
  have hsecond : memchr s 58 = some u.length := by rw [huv, memchr_some hu]
  have hservice : lookupService host = ([], some n.length) := by
    simp only [lookupService, hfind, hbehind, hsecond]
  rw [lookupTarget, lookupPointers_service h, hservice]
  simp only [if_true, Option.map_some, hat]

theorem bracketFirst_of_bracketed {t : Option Bytes} (h : Bracketed host n t) : BracketFirst host := by
  cases h with
  | plain _ hne hend => exact ⟨n, [], hne, hend, rfl⟩
  | service _ s hne hend => exact ⟨n, 58 :: s, hne, hend, rfl⟩

/-- The whole string is longer than the part in its brackets, for a reader of C strings too. -/
theorem cStr_bracket_ne (n x : Bytes) : cStr n ≠ cStr (91 :: n ++ 93 :: x) := by
  intro h
  have hlen := congrArg List.length h
  have hfirst : cStr (91 :: n ++ 93 :: x) = 91 :: cStr (n ++ 93 :: x) := by
    rw [cStr, List.cons_append, List.takeWhile_cons_of_pos (by decide)]
    rfl
  have hle : (cStr n).length ≤ (cStr (n ++ 93 :: x)).length := by
    rw [cStr, cStr, List.takeWhile_append]
    split
    · rename_i hall
      rw [hall, List.length_append]
      exact Nat.le_add_right _ _
    · exact Nat.le_refl _
  rw [hfirst, List.length_cons] at hlen
  omega

/-- Where the attempts do not meet: an address in brackets has nothing behind it but a service, and
elsewhere there is one colon at most, and not in front. -/
def Separable (host : Bytes) : Prop :=
  (∃ n s, Bracketed host n s) ∨ ¬ BracketFirst host ∧ (58 ∉ host ∨ ∃ n s, Named host n s)

theorem splits_of_separable (h : Separable host) : Splits host := by
  rcases h with ⟨n, t, h⟩ | ⟨hfirst, hcolon | ⟨n, s, h⟩⟩
  · refine ⟨n, t, Or.inl h, ?_⟩
    cases h with
    | plain _ hne hend => exact lookupTarget_bracket hne hend rfl
    | service _ s hne hend => exact lookupTarget_bracket (x := 58 :: s) hne hend rfl
  -- without brackets in front the pointers are those of the second attempt
  · have hnone : ¬ ∃ n t, Bracketed host n t := by
      rintro ⟨n, t, h⟩
      exact hfirst (bracketFirst_of_bracketed h)
    refine ⟨host, none, Or.inr ⟨hnone, Or.inr ⟨?_, rfl, rfl⟩⟩, lookupTarget_plain hfirst hcolon⟩
    rintro ⟨n, s, h⟩
    cases h with
    | mk _ _ _ _ _ => exact hcolon (by simp)
  · have hnone : ¬ ∃ n t, Bracketed host n t := by
      rintro ⟨n, t, h⟩
      exact hfirst (bracketFirst_of_bracketed h)
    refine ⟨n, some s, Or.inr ⟨hnone, Or.inl ⟨s, h, rfl⟩⟩, ?_⟩
    cases h with
    | mk _ _ hne hn hs => rw [lookupTarget_named hfirst hn hs rfl, if_neg hne, Option.map_some]

/-- An attempt that fails leaves its pointer behind. -/
theorem separable_of_splits (h : Splits host) : Separable host := by
  obtain ⟨node, service, hmeans, htarget⟩ := h
  by_cases hfirst : BracketFirst host
  · rcases hmeans with hbracket | ⟨hnot, hmeans⟩
    · exact Or.inl ⟨node, service, hbracket⟩
    · obtain ⟨n, x, hne, hend, hhost⟩ := hfirst
      -- the brackets are followed by something that is no service
      have hjunk : ¬ x.head? = some 58 := by
        intro hcolon
        obtain ⟨s, rfl⟩ := List.head?_eq_some_iff.mp hcolon
        exact hnot ⟨n, some s, hhost ▸ Bracketed.service n s hne hend⟩
      rw [lookupTarget_bracket hne hend hhost, if_neg hjunk, Prod.mk.injEq] at htarget
      rcases hmeans with ⟨s, -, hservice⟩ | ⟨-, hnode, -⟩
      · rw [hservice] at htarget
        cases htarget.2
      · rw [hnode, hhost] at htarget
        exact absurd htarget.1 (cStr_bracket_ne n x)
  · refine Or.inr ⟨hfirst, ?_⟩
    by_cases hcolon : 58 ∈ host
    · obtain ⟨n, s, hhost, hn⟩ := List.eq_append_cons_of_mem hcolon
      have hnamed : ∃ t, Named host node t := by
        rcases hmeans with hbracket | ⟨-, ⟨t, hnamed, -⟩ | ⟨-, -, hservice⟩⟩
        · exact absurd (bracketFirst_of_bracketed hbracket) hfirst
        · exact ⟨t, hnamed⟩
        · -- the pointer is set
          rw [hservice] at htarget
          by_cases hs : 58 ∈ s
          · rw [lookupTarget_colons hfirst hn hs hhost, Prod.mk.injEq] at htarget
            cases htarget.2
          · rw [lookupTarget_named hfirst hn hs hhost, Prod.mk.injEq] at htarget
            cases htarget.2
      obtain ⟨t, hnamed⟩ := hnamed
      exact Or.inr ⟨node, t, hnamed⟩
    · exact Or.inl hcolon

/-- The strings that are split as they are meant. -/
theorem splits_iff (host : Bytes) : Splits host ↔ Separable host :=
  ⟨separable_of_splits, splits_of_separable⟩

end

/-- A bare IPv6 address is taken for its own service. -/
theorem loopback_not_split : ¬ Splits (ascii "::1".toList) := by
  intro h
  have hfront : ∀ n x : Bytes, ascii "::1".toList ≠ 91 :: n ++ 93 :: x := by
    intro n x heq
    exact absurd (List.cons.inj heq).1 (by decide)
  rcases separable_of_splits h with ⟨n, t, hbracket⟩ | ⟨-, hcolon | ⟨n, s, hnamed⟩⟩
  · obtain ⟨n, x, -, -, heq⟩ := bracketFirst_of_bracketed hbracket
    exact hfront n x heq
  · exact hcolon (by decide)
  · generalize hhost : ascii "::1".toList = host at hnamed
    cases hnamed with
    | mk _ _ hne hn _ =>
      obtain ⟨b, n, rfl⟩ := List.exists_cons_of_ne_nil hne
      have hb : 58 = b := (List.cons.inj hhost).1
      exact hn (hb ▸ List.mem_cons_self)

example : lookupTarget (ascii "::1".toList) = (ascii "::1".toList, some (ascii "::1".toList)) := by
  decide

end Address

end Azure
