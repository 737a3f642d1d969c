import Mathlib.Algebra.Ring.Int.Defs
import Mathlib.Algebra.Ring.Nat
import Mathlib.Data.List.Basic
import Mathlib.Tactic.Common

/-!
# Transfers of a fixed length (`stream.h`, `stream.cpp`)

`readFixSize` and `writeFixSize` call `read` or `write` until `length` bytes are through.  The
results of the calls are `int`s, one for each call; the loops keep them in a `size_t`, where an error
is the greatest number there is.
-/

namespace Azure

def sizeOfInt (n : Int) : Nat := (n % 2 ^ 64).toNat

def intOfSize (n : Nat) : Int := (n : Int).bmod (2 ^ 32)

/-- `offset` is where the range of a pointer begins behind `buffer`. -/
structure StreamCall where
  offset : Option Nat
  requested : Nat
  deriving DecidableEq, Repr

/-- A call of `readFixSize` or `writeFixSize`: what it returns, unless its last call of the stream
has no result yet, and the calls of the stream. -/
structure Transfer where
  ret : Option Int := none
  calls : List StreamCall := []
  deriving DecidableEq, Repr

namespace Stream

def fixSize (place : Nat → Option Nat) (length offset left : Nat) : List Int → Transfer
  | [] =>
    if left = 0 then { ret := some (intOfSize length) }
    else { calls := [{ offset := place offset, requested := left }] }
  | r :: rs =>
    if left = 0 then { ret := some (intOfSize length) }
    else
      let call : StreamCall := { offset := place offset, requested := left }
      let len := sizeOfInt r
      if len ≤ 0 then { ret := some (intOfSize len), calls := [call] }
      else
        let rest :=
          fixSize place length ((offset + len) % 2 ^ 64) ((left + (2 ^ 64 - len)) % 2 ^ 64) rs
        { rest with calls := call :: rest.calls }

/-- `readFixSize(void*, size_t)` -/
def readFixSize (length : UInt64) : List Int → Transfer :=
  fixSize some length.toNat 0 length.toNat

/-- `readFixSize(ByteArray::ptr, size_t)` -/
def readFixSizeBa (length : UInt64) : List Int → Transfer :=
  fixSize (fun _ => none) length.toNat 0 length.toNat

/-- `writeFixSize(const void*, size_t)` -/
def writeFixSize (length : UInt64) : List Int → Transfer :=
  fixSize some length.toNat 0 length.toNat

/-- `writeFixSize(ByteArray::ptr, size_t)` -/
def writeFixSizeBa (length : UInt64) : List Int → Transfer :=
  fixSize (fun _ => none) length.toNat 0 length.toNat

inductive Overload where
  | readPtr
  | readBa
  | writePtr
  | writeBa
  deriving DecidableEq, Repr

namespace Overload

def place : Overload → Nat → Option Nat
  | readPtr | writePtr => some
  | readBa | writeBa => fun _ => none

def run : Overload → UInt64 → List Int → Transfer
  | readPtr => readFixSize
  | readBa => readFixSizeBa
  | writePtr => writeFixSize
  | writeBa => writeFixSizeBa

theorem run_eq (o : Overload) (length : UInt64) :
    o.run length = fixSize o.place length.toNat 0 length.toNat := by
  cases o <;> rfl

end Overload

/-! ## What a transfer should do -/

/-- How a transfer ends: with all bytes, with a result that is not positive, or not yet. -/
inductive Ending where
  | complete
  | stopped (r : Int)
  | waiting
  deriving DecidableEq, Repr

/-- The calls of an exact transfer of `length` bytes of which `done` are through: each goes on where
the one before has stopped, and the first result that is not positive is the last. -/
def exactTransfer (place : Nat → Option Nat) (length done : Nat) :
    List Int → List StreamCall × Ending
  | [] =>
    if done = length then ([], .complete)
    else ([{ offset := place done, requested := length - done }], .waiting)
  | r :: rs =>
    if done = length then ([], .complete)
    else
      let call : StreamCall := { offset := place done, requested := length - done }
      if r ≤ 0 then ([call], .stopped r)
      else
        let rest := exactTransfer place length (done + r.toNat) rs
        (call :: rest.1, rest.2)

/-- The results are those of a stream: each is at most what was asked for, or 0, or -1. -/
def Answers (left : Nat) : List Int → Prop
  | [] => True
  | r :: rs =>
    left = 0 ∨ (-1 ≤ r ∧ r ≤ left ∧ r < 2 ^ 31 ∧ (0 < r → Answers (left - r.toNat) rs))

instance decidableAnswers : (left : Nat) → (rs : List Int) → Decidable (Answers left rs)
  | _, [] => inferInstanceAs (Decidable True)
  | left, r :: rs =>
    have := decidableAnswers (left - r.toNat) rs
    inferInstanceAs (Decidable (left = 0 ∨ (-1 ≤ r ∧ r ≤ left ∧ r < 2 ^ 31 ∧ (0 < r → _))))

def Ending.Returns (length : Nat) (ret : Option Int) : Ending → Prop
  | complete => ret = some (length : Int)
  | stopped _ => ∃ v ∈ ret, v ≤ 0
  | waiting => ret = none

/-- The transfer makes exactly the calls it should, inside the buffer, and returns what it should. -/
structure Exact (place : Nat → Option Nat) (length : Nat) (rs : List Int) (t : Transfer) :
    Prop where
  calls : t.calls = (exactTransfer place length 0 rs).1
  ret : (exactTransfer place length 0 rs).2.Returns length t.ret
  inside : ∀ c ∈ t.calls, ∀ offset ∈ c.offset, offset + c.requested ≤ length

/-! ## When the loop is exact -/

def Ending.code (length : Nat) : Ending → Option Int
  | complete => some (intOfSize length)
  | stopped _ => some 0
  | waiting => none

theorem sizeOfInt_of_nonneg {r : Int} (h : 0 ≤ r) (hr : r < 2 ^ 31) : sizeOfInt r = r.toNat := by
  unfold sizeOfInt
  rw [Int.emod_eq_of_lt h (by omega)]

theorem intOfSize_eq_iff {n : Nat} (hn : n < 2 ^ 64) : intOfSize n = n ↔ n < 2 ^ 31 := by
  unfold intOfSize
  constructor
  · intro h
    have := Int.bmod_lt (x := (n : Int)) (m := 2 ^ 32) (by omega)
    omega
  · intro h
    apply Int.bmod_eq_of_le <;> omega

variable {place : Nat → Option Nat} {length : Nat}

/-- A call that is given some of what is left leaves the loop with the rest. -/
theorem fixSize_cons (place : Nat → Option Nat) (hlength : length < 2 ^ 64) {r : Int}
    {rs : List Int} {done : Nat} (hdone : done ≤ length) (hpos : 0 < r)
    (hle : r ≤ (length - done : Nat)) (hint : r < 2 ^ 31) :
    fixSize place length done (length - done) (r :: rs) =
      let rest := fixSize place length (done + r.toNat) (length - (done + r.toNat)) rs
      { rest with
        calls := { offset := place done, requested := length - done } :: rest.calls } := by
  have hleft : length - done ≠ 0 := by omega
  have hlen : sizeOfInt r = r.toNat := sizeOfInt_of_nonneg (by omega) hint
  have hoffset : (done + r.toNat) % 2 ^ 64 = done + r.toNat := Nat.mod_eq_of_lt (by omega)
  have hless : (length - done + (2 ^ 64 - r.toNat)) % 2 ^ 64 = length - (done + r.toNat) := by
    omega
  simp only [fixSize, if_neg hleft, hlen, if_neg (show ¬ r.toNat ≤ 0 by omega), hoffset, hless]

/-- As long as no call fails the loop makes the calls it should. -/
theorem fixSize_eq (place : Nat → Option Nat) (hlength : length < 2 ^ 64) {rs : List Int}
    {done : Nat} (hdone : done ≤ length) (hrs : Answers (length - done) rs)
    (hend : (exactTransfer place length done rs).2 ≠ .stopped (-1)) :
    fixSize place length done (length - done) rs =
      { ret := (exactTransfer place length done rs).2.code length
        calls := (exactTransfer place length done rs).1 } := by
  induction rs generalizing done with
  | nil =>
    by_cases h : done = length
    · simp [fixSize, exactTransfer, h, Ending.code]
    · simp [fixSize, exactTransfer, h, Ending.code, show length - done ≠ 0 by omega]
  | cons r rs ih =>
    by_cases h : done = length
    · simp [fixSize, exactTransfer, h, Ending.code]
    have hleft : length - done ≠ 0 := by omega
    obtain ⟨hlow, hle, hint, hrest⟩ := hrs.resolve_left hleft
    by_cases hpos : r ≤ 0
    · -- the result is not positive, and not an error
      have hzero : r = 0 := by
        simp only [exactTransfer, if_neg h, if_pos hpos, ne_eq, Ending.stopped.injEq] at hend
        omega
      subst hzero
      rw [fixSize, if_neg hleft, exactTransfer, if_neg h]
      rfl
    · have hnext := @ih (done + r.toNat) (by omega)
        (by rw [← Nat.sub_sub]; exact hrest (by omega))
        (by simpa [exactTransfer, h, hpos] using hend)
      rw [fixSize_cons place hlength hdone (by omega) hle hint]
      simp only [hnext, exactTransfer, if_neg h, if_neg hpos]

theorem calls_ne_nil {offset left : Nat} (h : left ≠ 0) (rs : List Int) :
    0 < (fixSize place length offset left rs).calls.length := by
  cases rs with
  | nil => simp [fixSize, h]
  | cons r rs =>
    rw [fixSize, if_neg h]
    dsimp only
    split
    · exact Nat.zero_lt_one
    · exact Nat.zero_lt_succ _

/-- After an error the loop calls the stream again, unless the first call of the longest transfer
there is fails. -/
theorem calls_after_error (place : Nat → Option Nat) (hlength : length < 2 ^ 64) {rs : List Int} {done : Nat}
    (hdone : done ≤ length) (hrs : Answers (length - done) rs)
    (hend : (exactTransfer place length done rs).2 = .stopped (-1)) :
    (done = 0 ∧ length = 2 ^ 64 - 1 ∧ rs.head? = some (-1)) ∨
      (exactTransfer place length done rs).1.length <
        (fixSize place length done (length - done) rs).calls.length := by
  induction rs generalizing done with
  | nil =>
    by_cases h : done = length <;> simp [exactTransfer, h] at hend
  | cons r rs ih =>
    by_cases h : done = length
    · simp [exactTransfer, h] at hend
    have hleft : length - done ≠ 0 := by omega
    obtain ⟨hlow, hle, hint, hrest⟩ := hrs.resolve_left hleft
    by_cases hpos : r ≤ 0
    · have herror : r = -1 := by simpa [exactTransfer, h, hpos] using hend
      subst herror
      by_cases hmax : length - done = 2 ^ 64 - 1
      · exact Or.inl ⟨by omega, by omega, rfl⟩
      · -- `left` has grown by one
        have hmore : (length - done + (2 ^ 64 - sizeOfInt (-1))) % 2 ^ 64 ≠ 0 := by
          have : sizeOfInt (-1) = 2 ^ 64 - 1 := by decide
          omega
        right
        have hnext := @calls_ne_nil place length ((done + sizeOfInt (-1)) % 2 ^ 64) _ hmore rs
        simp only [exactTransfer, if_neg h, if_pos hpos, fixSize, if_neg hleft,
          if_neg (show ¬ sizeOfInt (-1) ≤ 0 by decide), List.length_cons, List.length_nil]
        omega
    · have hnext := @ih (done + r.toNat) (by omega)
        (by rw [← Nat.sub_sub]; exact hrest (by omega))
        (by simpa [exactTransfer, h, hpos] using hend)
      right
      rw [fixSize_cons place hlength hdone (by omega) hle hint]
      simp only [exactTransfer, if_neg h, if_neg hpos, List.length_cons]
      omega

theorem exactTransfer_inside (place : Nat → Option Nat) (hplace : ∀ n, ∀ m ∈ place n, m = n)
    {rs : List Int} {done : Nat} (hdone : done ≤ length) (hrs : Answers (length - done) rs) :
    ∀ c ∈ (exactTransfer place length done rs).1, ∀ offset ∈ c.offset,
      offset + c.requested ≤ length := by
  induction rs generalizing done with
  | nil =>
    by_cases h : done = length
    · simp [exactTransfer, h]
    · intro c hc offset hoffset
      simp only [exactTransfer, if_neg h, List.mem_singleton] at hc
      subst hc
      have := hplace done offset hoffset
      dsimp only
      omega
  | cons r rs ih =>
    by_cases h : done = length
    · simp [exactTransfer, h]
    obtain ⟨hlow, hle, hint, hrest⟩ := hrs.resolve_left (show length - done ≠ 0 by omega)
    intro c hc offset hoffset
    have hfirst : ∀ offset ∈ place done, offset + (length - done) ≤ length := by
      intro offset hoffset
      have := hplace done offset hoffset
      omega
    by_cases hpos : r ≤ 0
    · simp only [exactTransfer, if_neg h, if_pos hpos, List.mem_singleton] at hc
      subst hc
      exact hfirst offset hoffset
    · simp only [exactTransfer, if_neg h, if_neg hpos, List.mem_cons] at hc
      rcases hc with rfl | hc
      · exact hfirst offset hoffset
      · exact @ih (done + r.toNat) (by omega)
          (by rw [← Nat.sub_sub]; exact hrest (by omega)) c hc offset hoffset

theorem Overload.place_eq (o : Overload) : ∀ n, ∀ m ∈ o.place n, m = n := by
  cases o <;> simp [Overload.place, eq_comm]

theorem exactTransfer_ending {rs : List Int} {done : Nat} {r : Int}
    (hdone : done ≤ length) (hrs : Answers (length - done) rs)
    (hend : (exactTransfer place length done rs).2 = .stopped r) : r = 0 ∨ r = -1 := by
  induction rs generalizing done with
  | nil => by_cases h : done = length <;> simp [exactTransfer, h] at hend
  | cons x rs ih =>
    by_cases h : done = length
    · simp [exactTransfer, h] at hend
    obtain ⟨hlow, hle, hint, hrest⟩ := hrs.resolve_left (show length - done ≠ 0 by omega)
    by_cases hpos : x ≤ 0
    · simp only [exactTransfer, if_neg h, if_pos hpos, Ending.stopped.injEq] at hend
      omega
    · exact @ih (done + x.toNat) (by omega) (by rw [← Nat.sub_sub]; exact hrest (by omega))
        (by simpa [exactTransfer, h, hpos] using hend)

/-- No call fails before all bytes are through, and an `int` can hold their number.  A transfer of
`2 ^ 64 - 1` bytes whose first call fails is over at once, too. -/
def Ending.Fits (length : Nat) (rs : List Int) : Ending → Prop
  | complete => length < 2 ^ 31
  | stopped r => r = 0 ∨ (length = 2 ^ 64 - 1 ∧ rs.head? = some (-1))
  | waiting => True

/-- Each overload makes the transfer exactly, and returns what it should, if and only if the first
result that is not positive is 0 and the length fits into an `int`. -/
theorem fixSize_exact_iff (o : Overload) (length : UInt64) {rs : List Int}
    (hrs : Answers length.toNat rs) :
    Exact o.place length.toNat rs (o.run length rs) ↔
      (exactTransfer o.place length.toNat 0 rs).2.Fits length.toNat rs := by
  have hlength : length.toNat < 2 ^ 64 := length.toNat_lt
  rw [Overload.run_eq]
  generalize length.toNat = n at hlength hrs ⊢
  have hinside := exactTransfer_inside o.place o.place_eq (Nat.zero_le n) hrs
  cases hend : (exactTransfer o.place n 0 rs).2 with
  | complete =>
    have heq := fixSize_eq o.place hlength (Nat.zero_le n) hrs
      (by rw [hend]; simp)
    rw [Nat.sub_zero, hend] at heq
    rw [heq]
    constructor
    · intro h
      have hret := h.ret
      rw [hend] at hret
      exact (intOfSize_eq_iff hlength).mp (by simpa [Ending.Returns, Ending.code] using hret)
    · intro h
      refine ⟨rfl, ?_, hinside⟩
      rw [hend]
      simp only [Ending.Returns, Ending.code, (intOfSize_eq_iff hlength).mpr h]
  | waiting =>
    have heq := fixSize_eq o.place hlength (Nat.zero_le n) hrs
      (by rw [hend]; simp)
    rw [Nat.sub_zero, hend] at heq
    rw [heq]
    exact ⟨fun _ => trivial, fun _ => ⟨rfl, by rw [hend]; rfl, hinside⟩⟩
  | stopped r =>
    rcases exactTransfer_ending (Nat.zero_le n) hrs hend with rfl | rfl
    · have heq := fixSize_eq o.place hlength (Nat.zero_le n) hrs
        (by rw [hend]; simp)
      rw [Nat.sub_zero, hend] at heq
      rw [heq]
      refine ⟨fun _ => Or.inl rfl, fun _ => ⟨rfl, ?_, hinside⟩⟩
      rw [hend]
      exact ⟨0, rfl, Int.le_refl 0⟩
    · have hmore := calls_after_error o.place hlength (Nat.zero_le n) hrs
        hend
      rw [Nat.sub_zero] at hmore
      constructor
      · intro h
        rcases hmore with ⟨-, hmax, hhead⟩ | hlt
        · exact Or.inr ⟨hmax, hhead⟩
        · rw [h.calls] at hlt
          exact absurd hlt (Nat.lt_irrefl _)
      · rintro (h | ⟨rfl, hhead⟩)
        · omega
        · -- `left` wraps around to 0
          obtain ⟨rs', rfl⟩ : ∃ rs', rs = -1 :: rs' := by
            cases rs with
            | nil => simp at hhead
            | cons r rs' => exact ⟨rs', by simpa using hhead⟩
          have hrest : ∀ offset, fixSize o.place (2 ^ 64 - 1) offset 0 rs' =
              { ret := some (intOfSize (2 ^ 64 - 1)) } := by
            intro offset
            cases rs' <;> rfl
          have heq : fixSize o.place (2 ^ 64 - 1) 0 (2 ^ 64 - 1) (-1 :: rs') =
              { ret := some (intOfSize (2 ^ 64 - 1))
                calls := [{ offset := o.place 0, requested := 2 ^ 64 - 1 }] } := by
            have hlen : sizeOfInt (-1) = 2 ^ 64 - 1 := by decide
            simp only [fixSize, hlen]
            rw [if_neg (by omega), if_neg (by omega),
              show (2 ^ 64 - 1 + (2 ^ 64 - (2 ^ 64 - 1))) % 2 ^ 64 = 0 by decide, hrest]
          have hexact : exactTransfer o.place (2 ^ 64 - 1) 0 (-1 :: rs') =
              ([{ offset := o.place 0, requested := 2 ^ 64 - 1 }], .stopped (-1)) := by
            simp [exactTransfer]
          rw [heq]
          refine ⟨by rw [hexact], ?_, ?_⟩
          · rw [hexact]
            exact ⟨intOfSize (2 ^ 64 - 1), rfl, by decide⟩
          · rw [hexact] at hinside
            exact hinside

theorem fixSize_exact_twice :
    Exact Overload.readPtr.place 10 [4, 6] (readFixSize 10 [4, 6]) ∧
      ¬ Exact Overload.readPtr.place 10 [4, -1] (readFixSize 10 [4, -1]) :=
  ⟨(@fixSize_exact_iff .readPtr 10 [4, 6] (by decide)).mpr
      (show (10 : Nat) < 2 ^ 31 by decide),
    fun h => by
      have := (@fixSize_exact_iff .readPtr 10 [4, -1] (by decide)).mp h
      revert this
      show ¬ ((-1 : Int) = 0 ∨ (10 = 2 ^ 64 - 1 ∧ _))
      omega⟩

/-- A `read` that fails is called again, with the byte before the buffer in its range. -/
theorem error_ignored : ¬ ∀ (o : Overload) (length : UInt64) (rs : List Int),
    Answers length.toNat rs → Exact o.place length.toNat rs (o.run length rs) := by
  intro h
  have hcalls := (h .readPtr 10 [-1] (by decide)).calls
  revert hcalls
  decide

end Stream

end Azure
