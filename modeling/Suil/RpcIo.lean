/-
RPC frames with a size prefix.

`transmit` writes the size of a payload in eight bytes, lowest first, and the payload.
`sizedReceive` reads the size, and then takes a payload that has arrived for a
failure and one that has not for a success.

* `sizedReceive_whole` — a frame that has arrived is never received;
* `sizedReceive_short`, `sizedReceive_cut` — a stream that ends in the size is answered
  rightly, and one that ends later is not;
* `sized_receives_iff` — the payload sequences and the streams that are treated rightly.
-/
import Suil.Buffer
import Suil.Lib.LittleEndian

open LittleEndian

namespace Suil.RpcIo

/-- The bytes that `transmit` sends with the size prefix on. -/
def transmit (resp : Bytes) : Bytes := bytesLE 8 resp.length ++ resp

/-- `Socket::receive` on the bytes that arrive before the stream ends or fails, or the time is
out: all that are asked for, or none. -/
def socketReceive (n : ℕ) (stream : Bytes) : Option (Bytes × Bytes) :=
  if n ≤ stream.length then some (stream.take n, stream.drop n) else none

/-- `RpcIO::sizedReceive`: what it returns, the buffer and the rest of the stream.  It is `none`
when it throws or leaves the memory; `memory` is what the buffer holds behind its offset after a
receive that failed. -/
def sizedReceive (memory : ℕ → UInt8) (rxb : Buffer) (stream : Bytes) :
    Option (Bool × Buffer × Bytes) :=
  match socketReceive 8 stream with
  | none => some (false, rxb, [])
  | some (size, stream) => do
    let nread := valueLE size
    let rxb ← rxb.reserve nread
    match socketReceive nread stream with
    | some (_, stream) => if nread ≤ rxb.memory then some (false, rxb, stream) else none
    | none =>
      let rxb ← rxb.copyIn ((List.range nread).map memory)
      if rxb.bytes.length ≤ rxb.size then some (true, rxb, []) else none

/-- `RpcIO::receive` with the size prefix on, into a new buffer. -/
def receive (memory : ℕ → UInt8) (is : ℕ) (stream : Bytes) : Option (Bool × Buffer × Bytes) :=
  (Buffer.new is).bind fun rxb => sizedReceive memory rxb stream

/-- A whole frame stands at the start of the stream. -/
def WholeFrame (stream : Bytes) : Prop :=
  8 ≤ stream.length ∧ 8 + valueLE (stream.take 8) ≤ stream.length

/-- Successive calls of `receive` return true and leave the payloads, in order. -/
def Delivered (memory : ℕ → UInt8) (is : ℕ) : List Bytes → Bytes → Prop
  | [], _ => True
  | payload :: payloads, stream => ∃ rxb rest,
    receive memory is stream = some (true, rxb, rest) ∧ rxb.bytes = payload ∧
      Delivered memory is payloads rest

/-- `receive` returns, and it returns false exactly when no whole frame arrives. -/
def Answered (memory : ℕ → UInt8) (is : ℕ) (stream : Bytes) : Prop :=
  ∃ ok rxb rest, receive memory is stream = some (ok, rxb, rest) ∧
    (ok = false ↔ ¬WholeFrame stream)

variable {memory : ℕ → UInt8} {is : ℕ} {stream : Bytes}

theorem wholeFrame_transmit (resp rest : Bytes) : WholeFrame (transmit resp ++ rest) := by
  have htake : (transmit resp ++ rest).take 8 = bytesLE 8 resp.length := by
    rw [transmit, List.append_assoc, List.take_append_of_le_length (by rw [length_bytesLE]),
      List.take_of_length_le (by rw [length_bytesLE])]
  have hmod := Nat.mod_le resp.length (256 ^ 8)
  rw [WholeFrame, htake, valueLE_bytesLE]
  simp only [transmit, List.length_append, length_bytesLE]
  omega

/-- **A frame that has arrived** is never received: the call returns false, or not at all. -/
theorem sizedReceive_whole (rxb : Buffer) (h : WholeFrame stream) {ok : Bool} {rxb' : Buffer}
    {rest : Bytes} (hreceive : sizedReceive memory rxb stream = some (ok, rxb', rest)) :
    ok = false := by
  rw [sizedReceive, socketReceive, if_pos h.1] at hreceive
  obtain ⟨rxb₁, -, hreceive⟩ := Option.bind_eq_some_iff.mp hreceive
  -- the body is read, and that is taken for a failure
  have hbody : valueLE (stream.take 8) ≤ (stream.drop 8).length := by
    have hle := h.2
    rw [List.length_drop]
    omega
  rw [socketReceive, if_pos hbody] at hreceive
  obtain ⟨-, hreceive⟩ := Option.ite_none_right_eq_some.mp hreceive
  exact (congrArg Prod.fst (Option.some.inj hreceive)).symm

/-- A stream that ends in the size. -/
theorem sizedReceive_short (rxb : Buffer) (h : stream.length < 8) :
    sizedReceive memory rxb stream = some (false, rxb, []) := by
  rw [sizedReceive, socketReceive, if_neg (by omega)]

/-- A stream that ends behind the size and before the frame's end is never answered with
false. -/
theorem sizedReceive_cut (rxb : Buffer) (hsize : 8 ≤ stream.length) (h : ¬WholeFrame stream)
    {ok : Bool} {rxb' : Buffer} {rest : Bytes}
    (hreceive : sizedReceive memory rxb stream = some (ok, rxb', rest)) : ok = true := by
  rw [sizedReceive, socketReceive, if_pos hsize] at hreceive
  obtain ⟨rxb₁, -, hreceive⟩ := Option.bind_eq_some_iff.mp hreceive
  have hbody : ¬valueLE (stream.take 8) ≤ (stream.drop 8).length := by
    intro hle
    rw [List.length_drop] at hle
    exact h ⟨hsize, by omega⟩
  rw [socketReceive, if_neg hbody] at hreceive
  obtain ⟨rxb₂, -, hreceive⟩ := Option.bind_eq_some_iff.mp hreceive
  obtain ⟨-, hreceive⟩ := Option.ite_none_right_eq_some.mp hreceive
  exact (congrArg Prod.fst (Option.some.inj hreceive)).symm

/-- What is received was received into some buffer. -/
theorem receive_eq {answer : Bool × Buffer × Bytes} (h : receive memory is stream = some answer) :
    ∃ rxb, sizedReceive memory rxb stream = some answer := by
  obtain ⟨rxb, -, hreceive⟩ := Option.bind_eq_some_iff.mp h
  exact ⟨rxb, hreceive⟩

theorem delivered_iff (payloads : List Bytes) (rest : Bytes) :
    Delivered memory is payloads (payloads.flatMap transmit ++ rest) ↔ payloads = [] := by
  cases payloads with
  | nil => exact iff_of_true trivial rfl
  | cons payload payloads =>
    refine iff_of_false ?_ (List.cons_ne_nil _ _)
    rintro ⟨rxb, rest', hreceive, -, -⟩
    obtain ⟨rxb₀, hreceive⟩ := receive_eq hreceive
    rw [List.flatMap_cons, List.append_assoc] at hreceive
    cases sizedReceive_whole rxb₀ (wholeFrame_transmit payload _) hreceive

theorem answered_iff : Answered memory is stream ↔ stream.length < 8 := by
  constructor
  · rintro ⟨ok, rxb, rest, hreceive, hok⟩
    obtain ⟨rxb₀, hreceive⟩ := receive_eq hreceive
    by_contra hsize
    -- behind the size the answer is the opposite of what it should be
    by_cases hwhole : WholeFrame stream
    · exact hok.mp (sizedReceive_whole rxb₀ hwhole hreceive) hwhole
    · have htrue := sizedReceive_cut rxb₀ (not_lt.mp hsize) hwhole hreceive
      rw [hok.mpr hwhole] at htrue
      cases htrue
  · intro hshort
    have hcut : ¬WholeFrame stream := fun h => absurd h.1 (by omega)
    obtain ⟨rxb, hnew, -⟩ := Buffer.new_eq_some is
    refine ⟨false, rxb, [], ?_, iff_of_true rfl hcut⟩
    rw [receive, hnew, Option.bind_some, sizedReceive_short rxb hshort]

/-- **Frames**: only the empty sequence of payloads is delivered, and only a stream that ends in the
size of a frame is answered rightly, whatever the buffer. -/
theorem sized_receives_iff (memory : ℕ → UInt8) (is : ℕ) (payloads : List Bytes)
    (rest stream : Bytes) :
    (Delivered memory is payloads (payloads.flatMap transmit ++ rest) ↔ payloads = []) ∧
      (Answered memory is stream ↔ stream.length < 8) :=
  ⟨delivered_iff payloads rest, answered_iff⟩

/-- The frame of the empty payload is refused, and a frame that lacks its only byte is taken. -/
theorem not_sized_receives :
    ¬Delivered (fun _ => 0) 1024 [[]] (transmit []) ∧
      ¬Answered (fun _ => 0) 1024 ((transmit [7]).take 8) := by
  constructor
  · rintro ⟨rxb, rest, hreceive, -, -⟩
    have hfalse : (receive (fun _ => 0) 1024 (transmit [])).map (·.1) = some false := by
      decide +kernel
    rw [hreceive] at hfalse
    cases hfalse
  · rintro ⟨ok, rxb, rest, hreceive, hok⟩
    have htrue : (receive (fun _ => 0) 1024 ((transmit [7]).take 8)).map (·.1) = some true := by
      decide +kernel
    rw [hreceive] at htrue
    obtain rfl := Option.some.inj htrue
    have hcut : ¬WholeFrame ((transmit [7]).take 8) := fun h => absurd h.2 (by decide +kernel)
    cases hok.mpr hcut

end Suil.RpcIo
