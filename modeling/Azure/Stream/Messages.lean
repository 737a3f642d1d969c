import Azure.Stream.Buffered

/-!
# Messages over a stream

Values that are written into a byte array, sent with `writeFixSize`, received with `readFixSize` and read
again; and the loop of `example/echo_server.cpp`, which prints what it receives.
-/

namespace Azure

open Reasoning SocketStream Azure.ByteArray

/-! ## Values -/

/-- What fills a buffer that is empty is what has been written to it. -/
theorem written_filled {b d : ByteArray} {n : Nat} {data : List UInt8} (hposition : b.position = 0)
    (hsize : b.size = 0) (hle : data.length ≤ n) (h : Flat.Filled n b.flat data d.flat) :
    d.size = data.length ∧ written d = data := by
  obtain ⟨g, ⟨junk, -, hroom, -⟩, hflat⟩ := h
  have hd : d.size = data.length := by
    have hsize' : d.size = max b.size (b.position + data.length) := congrArg Flat.size hflat
    omega
  have hbytes : d.flat.bytes = overwrite g.bytes b.position data := congrArg Flat.bytes hflat
  refine ⟨hd, ?_⟩
  have hfit : b.position + data.length ≤ g.bytes.length :=
    Nat.le_trans (Nat.add_le_add_left hle b.position) hroom
  rw [hposition] at hfit hbytes
  rw [written, hbytes, hd, slice_overwrite_self hfit]

def hexColumn (c : UInt8) : List UInt8 :=
  let digit (n : Nat) : UInt8 := UInt8.ofNat (if n < 10 then 48 + n else 87 + n)
  [digit (c.toNat / 16), digit (c.toNat % 16), 32]

def hexDump (str : List UInt8) : List UInt8 :=
  str.zipIdx.flatMap fun (c, i) => (if i > 0 ∧ i % 32 = 0 then [10] else []) ++ hexColumn c

def ByteArray.toHexString (b : ByteArray) : Option (Except String (List UInt8)) :=
  b.toString.map fun r => r.map hexDump

namespace EchoServer

def print (type : Int) : Call (List UInt8) := fun ba =>
  (if type = 1 then ba.toString else ba.toHexString).map fun r => (r, ba)

/-- `EchoServer::handleClient`: what it has printed when its last `recv` has no result yet, or one that is not
positive.  It fills the windows as `SocketStream::read` does. -/
def handleClient (type : Int) : List (Garbage × Except Int (List UInt8)) → Call (List UInt8)
  | [] => fun ba => some (.ok [], ba)
  | (garbage, socket) :: sockets => fun ba => do
    let ba ← ba.clear
    match socket with
    | .error rt => ((readBa garbage 1024 (.fail rt)).map fun _ => []) ba
    | .ok bytes =>
      (readBa garbage 1024 (.data bytes)).bind (fun rt =>
        if rt = 0 then fun ba => some (.ok [], ba)
        else (setPosition 0).bind fun _ => (print type).bind fun line =>
          (handleClient type sockets).map fun more => line ++ more) ba

/-- One turn prints what it has received, whatever the buffer held before. -/
theorem handleClient_cons (type : Int) (garbage : Garbage) {bytes : List UInt8} (hpos : 1 ≤ bytes.length)
    (hle : bytes.length ≤ 1024) (sockets : List (Garbage × Except Int (List UInt8))) {b : ByteArray}
    (h : Chained b) : ∃ c, Chained c ∧ handleClient type ((garbage, .ok bytes) :: sockets) b =
      ((handleClient type sockets).map fun more =>
        (if type = 1 then bytes else hexDump bytes) ++ more) c := by
  obtain ⟨c, hclear, hc, -, -, hflat⟩ := clear_spec h
  have hposition : c.position = 0 := congrArg Flat.position hflat
  have hsize : c.size = 0 := congrArg Flat.size hflat
  obtain ⟨d, hread, hd, hfilled⟩ := readBa_data hc garbage (by decide) hpos hle
  obtain ⟨-, hgot⟩ := written_filled hposition hsize hle hfilled
  obtain ⟨e, hback, hun, -⟩ := setPosition_zero hd.chained
  have hstring : e.toString = some (.ok bytes) := by rw [toString_spec hun.1, hun.2, hgot]
  have hprint : print type e = some (.ok (if type = 1 then bytes else hexDump bytes), e) := by
    rw [print, ByteArray.toHexString, hstring]
    split_ifs <;> rfl
  refine ⟨e, hun.1, ?_⟩
  rw [handleClient]
  simp only [hclear, Option.bind_eq_bind, Option.bind_some]
  rw [Call.bind_ok _ hread, if_neg (by omega), Call.bind_ok _ hback, Call.bind_ok _ hprint]

/-- The server prints all that it receives, in its order, nothing twice and nothing of an earlier message. -/
theorem handleClient_prints (type : Int) (pieces : List (Garbage × List UInt8))
    (hpieces : ∀ p ∈ pieces, 1 ≤ p.2.length ∧ p.2.length ≤ 1024) (garbage : Garbage) {rt : Int}
    (later : List (Garbage × Except Int (List UInt8))) {b : ByteArray} (h : Reachable b) :
    ∃ d, handleClient type (pieces.map (fun p => (p.1, .ok p.2)) ++ (garbage, .error rt) :: later) b =
      some (.ok (pieces.flatMap fun p => if type = 1 then p.2 else hexDump p.2), d) := by
  have hchained := h.chained
  clear h
  induction pieces generalizing b with
  | nil =>
    obtain ⟨c, hclear, hc, -, -, -⟩ := clear_spec hchained
    obtain ⟨d, hread, -, -⟩ := readBa_fail hc garbage (show 1 ≤ 1024 by decide) (by decide) rt
    refine ⟨d, ?_⟩
    rw [List.map_nil, List.nil_append, handleClient]
    simp only [hclear, Option.bind_eq_bind, Option.bind_some]
    exact Call.map_ok _ hread
  | cons p pieces ih =>
    obtain ⟨hpos, hle⟩ := hpieces p List.mem_cons_self
    -- what an earlier message has left in the array does not matter: it is cleared first
    obtain ⟨c, hc, hturn⟩ := handleClient_cons type p.1 hpos hle
      (pieces.map (fun p => (p.1, .ok p.2)) ++ (garbage, .error rt) :: later) hchained
    obtain ⟨d, hrest⟩ := ih (fun q hq => hpieces q (List.mem_cons_of_mem p hq)) hc
    exact ⟨d, hturn.trans (Call.map_ok _ hrest)⟩

/-- Two messages in hexadecimal, from the buffer with which the server begins. -/
theorem handleClient_prints_hex : ∃ d,
    EchoServer.handleClient 2 ([(fun _ _ => 1, [104, 105]), (fun _ _ => 2, [10])].map
        (fun p => (p.1, .ok p.2)) ++ [(fun _ _ => 3, .error 0)]) (new 4096 fun _ => 0) =
      some (.ok ([54, 56, 32, 54, 57, 32] ++ [48, 97, 32]), d) := by
  have hreachable : Reachable (new 4096 fun _ => 0) :=
    ⟨⟨4096, fun _ => 0, .big, [], by decide, .nil _⟩, by decide⟩
  exact handleClient_prints 2 [(fun _ _ => 1, [104, 105]), (fun _ _ => 2, [10])] (by simp)
    (fun _ _ => 3) [] hreachable

end EchoServer

end Azure
