import Mathlib.Data.String.Basic
import Mathlib.Tactic.Common

/-!
# Log patterns (`LogFormatter` of `log.h`, `log.cpp`)

A pattern is cut into texts and formats, and the formats are looked up by their one letter.  A
pattern with a format that does not exist, with an open brace or with a single `%` at its end is in
error.
-/

namespace Azure

/-- An entry of `vec`: the text or the format, its argument, and 0 for a text, 1 for a format or 2
for an error. -/
abbrev FormatEntry := String × String × Nat

structure FormatScan where
  vec : List FormatEntry := []
  ss : String := ""
  fmt : String := ""
  error : Bool := false
  deriving DecidableEq, Repr

namespace FormatScan

def push (s : FormatScan) (e : FormatEntry) : FormatScan := { s with vec := s.vec ++ [e] }

def put (s : FormatScan) (c : Char) : FormatScan := { s with ss := s.ss.push c }

def pushFmt (s : FormatScan) (arg : String) : FormatScan := { s.push (s.fmt, arg, 1) with fmt := "" }

def pushText (s : FormatScan) : FormatScan :=
  if s.ss = "" then s else { s.push (s.ss, "", 0) with ss := "" }

def fail (s : FormatScan) (what : String) : FormatScan :=
  { s.push (what, "", 2) with error := true }

/-- One turn at a `%`. -/
def percent (rest : List Char) (s : FormatScan) : List Char × FormatScan :=
  match rest with
  | [] => ([], s.fail "single '%'")
  | '%' :: rest => (rest, s.put '%')
  | c :: rest =>
    if s.fmt ≠ "" then
      -- `i -= 1`: the `%` is looked at again, with no format pending
      ('%' :: c :: rest, s.pushFmt "")
    else (rest, { s.pushText with fmt := String.singleton c })

/-- One turn of the loop: what is left of the pattern behind it, with `++i` done. -/
def turn (c : Char) (rest : List Char) (s : FormatScan) : List Char × FormatScan :=
  if c = '%' then percent rest s
  else if s.fmt = "" then (rest, s.put c)
  else if c ≠ '\x7b' then (rest, (s.pushFmt "").put c)
  else
    match rest.dropWhile (· ≠ '\x7d') with
    -- no `}` follows: `i` is at the end, where the test behind takes it for a single `%`
    | [] => ([], (s.fail "lack of '\x7d'").fail "single '%'")
    | _ :: after => (after, s.pushFmt (String.ofList (rest.takeWhile (· ≠ '\x7d'))))

theorem turn_shortens (c : Char) (rest : List Char) (s : FormatScan) :
    (turn c rest s).1.length < rest.length + 1 ∨
      (turn c rest s).1 = c :: rest ∧ s.fmt ≠ "" ∧ (turn c rest s).2.fmt = "" := by
  unfold turn
  split
  · next hc =>
    rw [hc]
    unfold percent
    split
    · exact Or.inl (Nat.zero_lt_succ _)
    · left
      simp only [List.length_cons]
      omega
    · split
      · next hfmt => exact Or.inr ⟨rfl, hfmt, rfl⟩
      · left
        simp only [List.length_cons]
        omega
  · left
    split
    · exact Nat.lt_succ_self _
    · split
      · exact Nat.lt_succ_self _
      · have hle := (List.dropWhile_sublist (· ≠ '\x7d') (l := rest)).length_le
        split
        · exact Nat.zero_lt_succ _
        · next after heq =>
          rw [heq, List.length_cons] at hle
          show after.length < rest.length + 1
          omega

def loop (pattern : List Char) (s : FormatScan) : FormatScan :=
  match pattern with
  | [] => s
  | c :: rest => loop (turn c rest s).1 (turn c rest s).2
termination_by 2 * pattern.length + (if s.fmt = "" then 0 else 1)
decreasing_by
  rcases turn_shortens c rest s with hlt | ⟨heq, hfmt, hclear⟩
  · simp only [List.length_cons]
    split <;> split <;> omega
  · rw [heq, hclear, if_neg hfmt, if_pos rfl]
    omega

def finish (s : FormatScan) : FormatScan :=
  let s := s.pushText
  if s.fmt ≠ "" then s.push (s.fmt, "", 1) else s

end FormatScan

/-- The classes of `s_format_items`. -/
inductive FormatClass where
  | message | level | elapse | name | threadId | threadName | newLine | dateTime | filename | line
  | tab | fiberId
  deriving DecidableEq, Repr

/-- `s_format_items` -/
def formatItems : List (String × FormatClass) := [
  ("m", .message),
  ("p", .level),
  ("r", .elapse),
  ("c", .name),
  ("t", .threadId),
  ("N", .threadName),
  ("n", .newLine),
  ("d", .dateTime),
  ("f", .filename),
  ("l", .line),
  ("T", .tab),
  ("F", .fiberId)]

inductive FormatItem where
  | string (str : String)
  | item (cls : FormatClass) (fmt : String)
  deriving DecidableEq, Repr

def FormatEntry.item (e : FormatEntry) : FormatItem × Bool :=
  if e.2.2 = 0 then (.string e.1, true)
  else
    match formatItems.lookup e.1 with
    | some cls => (.item cls e.2.1, true)
    | none => (.string ("<error_format: " ++ e.1 ++ ">"), false)

/-- A `LogFormatter` is never changed behind its constructor, so a pointer to one is modelled by its
address together with the object. -/
structure LogFormatter where
  address : Nat
  pattern : String
  items : List FormatItem
  error : Bool
  deriving DecidableEq, Repr

namespace LogFormatter

def new (address : Nat) (pattern : String) : LogFormatter :=
  let s := (FormatScan.loop pattern.toList {}).finish
  { address
    pattern
    items := s.vec.map fun e => (FormatEntry.item e).1
    error := s.error || s.vec.any fun e => !(FormatEntry.item e).2 }

def getPattern (f : LogFormatter) : String := f.pattern

def isError (f : LogFormatter) : Bool := f.error

/-- What stands for a formatter in a configuration: a pattern that is there and not in error. -/
def Usable (pattern : String) : Prop := pattern ≠ "" ∧ (new 0 pattern).isError = false

instance (pattern : String) : Decidable (Usable pattern) :=
  inferInstanceAs (Decidable (_ ∧ _))

example : Usable "%d - %m%n" := by decide +kernel
example : ¬ Usable "%d %" := by decide +kernel

end LogFormatter

end Azure
