/-
WebSocket frame headers.

`WebSock::send` writes the header of a frame and `WebSock::receiveOpcode` reads
one.  The length of a payload above 125 bytes follows the two header bytes in an
extended form; the writer stores it as the host does, low byte first, and the
reader starts its buffer with the seven-bit length field and takes one byte less
from the socket.

* `receiveOpcode_extended` — an extended length is read without its last byte,
  which becomes the first byte of the mask;
* `readBack_iff` — what `send` writes is read back exactly for payloads of at
  most 125 bytes;
* `decodes_iff` — the length of a client's extended header is decoded exactly
  when its bytes mirror one another;
* `headers_iff` — both directions together.
-/
import Suil.Core
import Suil.Lib.LittleEndian

open LittleEndian

namespace Suil.WebSock

/-- `WsOp`. -/
inductive WsOp where
  | cont | text | binary | close | ping | pong
deriving DecidableEq, Repr

def WsOp.code : WsOp → UInt8
  | cont => 0
  | text => 1
  | binary => 2
  | close => 8
  | ping => 9
  | pong => 10

/-- The header as `receiveOpcode` fills it in. -/
structure Header where
  opcode : UInt8
  fin : Bool
  payloadSize : ℕ
  v_mask : Bytes
deriving DecidableEq, Repr

/-- `Socket::receive`: exactly `n` bytes, or failure. -/
def receive (s : Bytes) (n : ℕ) : Option (Bytes × Bytes) :=
  if n ≤ s.length then some (s.take n, s.drop n) else none

/-- Whether the opcode is one of the list, and a control frame is short and whole. -/
def acceptsOpcode (opcode len : UInt8) (fin : Bool) : Bool :=
  if opcode ∈ [0, 1, 2] then true
  else if opcode ∈ [8, 9, 10] then len ≤ 125 && fin
  else false

/-- The payload length: the seven-bit field, or the extended form behind it. -/
def receiveLength (len : UInt8) (s : Bytes) : Option (ℕ × Bytes) :=
  let extraBytes := if len = 126 then 2 else if len = 127 then 8 else 0
  if extraBytes ≠ 0 then
    (receive s (extraBytes - 1)).map fun (buf, s) => (valueLE (len :: buf), s)
  else some (len.toNat, s)

/-- `WebSock::receiveOpcode`: the header and what is left in the stream. -/
def receiveOpcode (s : Bytes) : Option (Header × Bytes) := do
  let (u16, s) ← receive s 2
  let opcode := u16.getD 0 0 &&& 15
  let rsv := u16.getD 0 0 &&& 112
  let fin : Bool := u16.getD 0 0 &&& 128 ≠ 0
  let len := u16.getD 1 0 &&& 127
  let mask : Bool := u16.getD 1 0 &&& 128 ≠ 0
  if mask ∧ rsv = 0 ∧ acceptsOpcode opcode len fin then
    let (payloadSize, s) ← receiveLength len s
    let (v_mask, s) ← receive s 4
    some (⟨opcode, fin, payloadSize, v_mask⟩, s)
  else none

/-- The header bytes `WebSock::send` puts in front of `size` bytes of payload. -/
def sendHeader (op : WsOp) (size : ℕ) : Bytes :=
  let payload_1 : UInt8 := if size > 125 then (if size < 65535 then 126 else 127) else size.toUInt8
  [(op.code &&& 15) ||| 128, payload_1 &&& 127] ++
    (if payload_1 > 125 then
      if payload_1 = 126 then bytesLE 2 size else bytesLE 8 size
    else [])

/-- The header with its mask bit set, as a masked frame carries it. -/
def withMaskBit : Bytes → Bytes
  | b₀ :: b₁ :: bs => b₀ :: (b₁ ||| 128) :: bs
  | bs => bs

/-- The header `send` writes, masked, is read back and nothing else is consumed. -/
def ReadBack (op : WsOp) (size : ℕ) (mask rest : Bytes) : Prop :=
  receiveOpcode (withMaskBit (sendHeader op size) ++ mask ++ rest) =
    some (⟨op.code, true, size, mask⟩, rest)

/-- The extended length of RFC 6455, highest byte first, in the shorter of its two
forms. -/
def extendedLength (len : ℕ) : Bytes :=
  if len < 2 ^ 16 then (bytesLE 2 len).reverse else (bytesLE 8 len).reverse

/-- The length field that announces the extended form. -/
def lengthCode (len : ℕ) : UInt8 := if len < 2 ^ 16 then 126 else 127

/-- A client's header with an extended length: a data frame, masked, its length
above 125 bytes and below 2^63. -/
structure ClientHeader where
  op : WsOp
  data : op = .cont ∨ op = .text ∨ op = .binary
  fin : Bool
  len : ℕ
  extended : 125 < len
  len_lt : len < 2 ^ 63
  mask : Bytes
  mask_length : mask.length = 4

def ClientHeader.bytes (h : ClientHeader) : Bytes :=
  [h.op.code ||| (if h.fin then 128 else 0), lengthCode h.len ||| 128] ++
    extendedLength h.len ++ h.mask

/-- The length is decoded as the client encoded it. -/
def Decodes (h : ClientHeader) (rest : Bytes) : Prop :=
  ∃ header rest', receiveOpcode (h.bytes ++ rest) = some (header, rest') ∧
    header.payloadSize = h.len

/-- The bytes of the extended length read the same from its end as the length field
and all but the last of them do from the front: 126 is the low byte of a 16-bit
length; of a 64-bit length 127 is, and the others mirror one another. -/
def Mirrored (len : ℕ) : Prop :=
  lengthCode len :: (extendedLength len).dropLast = (extendedLength len).reverse

instance (len : ℕ) : Decidable (Mirrored len) := inferInstanceAs (Decidable (_ = _))

theorem receive_append (xs ys : Bytes) : receive (xs ++ ys) xs.length = some (xs, ys) := by
  rw [receive, if_pos (by simp), List.take_left, List.drop_left]

/-- Whether the two header bytes are those of a masked frame the reader takes. -/
def accepted (b₀ b₁ : UInt8) : Bool :=
  b₁ &&& 128 ≠ 0 && b₀ &&& 112 = 0 && acceptsOpcode (b₀ &&& 15) (b₁ &&& 127) (b₀ &&& 128 ≠ 0)

theorem receiveOpcode_cons (b₀ b₁ : UInt8) (s : Bytes) :
    receiveOpcode (b₀ :: b₁ :: s) =
      if accepted b₀ b₁ then
        (receiveLength (b₁ &&& 127) s).bind fun p =>
          (receive p.2 4).map fun q => (⟨b₀ &&& 15, b₀ &&& 128 ≠ 0, p.1, q.1⟩, q.2)
      else none := by
  have htwo : receive (b₀ :: b₁ :: s) 2 = some ([b₀, b₁], s) := receive_append [b₀, b₁] s
  rw [receiveOpcode, htwo]
  simp only [Option.bind_eq_bind, Option.bind_some, List.getD_cons_zero, List.getD_cons_succ,
    accepted, Bool.and_eq_true, decide_eq_true_eq, and_assoc]
  congr 1
  refine congrArg _ (funext fun p => ?_)
  cases hmask : receive p.2 4 <;> simp

/-- The extended length is read without its last byte `l`, which is taken for the
first byte of the mask. -/
theorem receiveOpcode_extended {b₀ b₁ code l : UInt8} {init s : Bytes} (hcode : b₁ &&& 127 = code)
    (hinit : code = 126 ∧ init.length = 1 ∨ code = 127 ∧ init.length = 7) (hs : 3 ≤ s.length) :
    receiveOpcode (b₀ :: b₁ :: (init ++ l :: s)) =
      if accepted b₀ b₁ then
        some (⟨b₀ &&& 15, b₀ &&& 128 ≠ 0, valueLE (code :: init), l :: s.take 3⟩, s.drop 3)
      else none := by
  have hlength : receiveLength code (init ++ l :: s) = some (valueLE (code :: init), l :: s) := by
    rcases hinit with ⟨rfl, hinit⟩ | ⟨rfl, hinit⟩
    · have hreceive := hinit ▸ receive_append init (l :: s)
      simp [receiveLength, hreceive]
    · have hreceive := hinit ▸ receive_append init (l :: s)
      simp [receiveLength, hreceive]
  have hmask : receive (l :: s) 4 = some (l :: s.take 3, s.drop 3) := by
    rw [receive, if_pos (by simpa using hs), List.take_succ_cons, List.drop_succ_cons]
  rw [receiveOpcode_cons, hcode, hlength, Option.bind_some, hmask, Option.map_some]

theorem receiveOpcode_short {b₀ b₁ len : UInt8} {mask s : Bytes} (hlen : b₁ &&& 127 = len)
    (h126 : len ≠ 126) (h127 : len ≠ 127) (hmask : mask.length = 4) :
    receiveOpcode (b₀ :: b₁ :: (mask ++ s)) =
      if accepted b₀ b₁ then some (⟨b₀ &&& 15, b₀ &&& 128 ≠ 0, len.toNat, mask⟩, s)
      else none := by
  have hlength : receiveLength len (mask ++ s) = some (len.toNat, mask ++ s) := by
    simp [receiveLength, h126, h127]
  rw [receiveOpcode_cons, hlen, hlength, Option.bind_some, ← hmask, receive_append,
    Option.map_some]

/-- The length byte of a short frame, with and without the mask bit. -/
theorem single_byte (n : Fin 126) :
    (n.val.toUInt8 &&& 127 ||| 128) &&& 127 = n.val.toUInt8 ∧
      (n.val.toUInt8 &&& 127 ||| 128) &&& 128 ≠ 0 ∧
      n.val.toUInt8 ≠ 126 ∧ n.val.toUInt8 ≠ 127 ∧ n.val.toUInt8 ≤ 125 ∧
      n.val.toUInt8.toNat = n.val := by
  revert n
  decide

/-- The first byte of a header that `send` writes. -/
theorem opcode_byte (op : WsOp) :
    (op.code &&& 15 ||| 128) &&& 15 = op.code ∧ (op.code &&& 15 ||| 128) &&& 112 = 0 ∧
      (op.code &&& 15 ||| 128) &&& 128 ≠ 0 := by
  cases op <;> decide

theorem acceptsOpcode_short (op : WsOp) {len : UInt8} (hlen : len ≤ 125) :
    acceptsOpcode op.code len true = true := by
  cases op <;> simp [acceptsOpcode, WsOp.code, hlen]

theorem accepted_send (op : WsOp) {b₁ : UInt8} (hmask : b₁ &&& 128 ≠ 0)
    (hlen : b₁ &&& 127 ≤ 125) : accepted (op.code &&& 15 ||| 128) b₁ = true := by
  obtain ⟨hop, hrsv, hfin⟩ := opcode_byte op
  simp [accepted, hmask, hop, hrsv, hfin, acceptsOpcode_short op hlen]

theorem sendHeader_short (op : WsOp) {size : ℕ} (hsize : size ≤ 125) :
    sendHeader op size = [(op.code &&& 15) ||| 128, size.toUInt8 &&& 127] := by
  obtain ⟨-, -, -, -, hsingle, -⟩ := single_byte ⟨size, by omega⟩
  rw [sendHeader, if_neg (by omega), if_neg (UInt8.not_lt.mpr hsingle), List.append_nil]

/-- A longer payload is announced by two or eight further bytes. -/
theorem sendHeader_extended (op : WsOp) {size : ℕ} (hsize : 125 < size) :
    ∃ code init l, sendHeader op size = (op.code &&& 15 ||| 128) :: code :: (init ++ [l]) ∧
      (code ||| 128) &&& 127 = code ∧
      (code = 126 ∧ init.length = 1 ∨ code = 127 ∧ init.length = 7) := by
  have hsplit : ∀ {w : ℕ}, 0 < w → ∃ init l, bytesLE w size = init ++ [l] ∧
      init.length = w - 1 := by
    intro w hw
    have hne : bytesLE w size ≠ [] := List.ne_nil_of_length_pos (by rwa [length_bytesLE])
    refine ⟨_, _, (List.dropLast_append_getLast hne).symm, ?_⟩
    rw [List.length_dropLast, length_bytesLE]
  rw [sendHeader, if_pos hsize]
  rcases lt_or_ge size 65535 with h16 | h16
  · obtain ⟨init, l, hbytes, hinit⟩ := @hsplit 2 (by decide)
    refine ⟨126, init, l, ?_, by decide, Or.inl ⟨rfl, hinit⟩⟩
    rw [if_pos h16, if_pos (by decide), if_pos rfl, hbytes]
    rfl
  · obtain ⟨init, l, hbytes, hinit⟩ := @hsplit 8 (by decide)
    refine ⟨127, init, l, ?_, by decide, Or.inr ⟨rfl, hinit⟩⟩
    rw [if_neg (not_lt.mpr h16), if_pos (by decide), if_neg (by decide), hbytes]
    rfl

/-- What `send` writes is read back exactly for payloads of at most 125 bytes. -/
theorem readBack_iff (op : WsOp) {size : ℕ} {mask : Bytes} (rest : Bytes)
    (hmask : mask.length = 4) : ReadBack op size mask rest ↔ size ≤ 125 := by
  rw [ReadBack]
  rcases le_or_gt size 125 with hsize | hsize
  · refine iff_of_true ?_ hsize
    obtain ⟨hlen, hbit, h126, h127, hsingle, hval⟩ := single_byte ⟨size, by omega⟩
    obtain ⟨hop, -, hfin⟩ := opcode_byte op
    rw [sendHeader_short op hsize, withMaskBit, List.append_assoc, List.cons_append,
      List.cons_append, List.nil_append, receiveOpcode_short hlen h126 h127 hmask,
      if_pos (accepted_send op hbit (hlen.symm ▸ hsingle)), hop, hval]
    simp [hfin]
  · -- one byte of the length is left in the stream
    refine iff_of_false ?_ (not_le.mpr hsize)
    obtain ⟨code, init, l, hheader, hcode, hinit⟩ := sendHeader_extended op hsize
    rw [hheader, withMaskBit, List.append_assoc, List.cons_append, List.cons_append,
      List.append_assoc, List.singleton_append,
      receiveOpcode_extended hcode hinit (by rw [List.length_append]; omega)]
    intro h
    rw [Option.ite_none_right_eq_some] at h
    simp only [Option.some.injEq, Prod.mk.injEq] at h
    have hrest := congrArg List.length h.2.2
    rw [List.length_drop, List.length_append] at hrest
    omega

/-- The extended length of a client's header, in the form the reader splits it. -/
theorem extendedLength_eq (len : ℕ) :
    ∃ init l, extendedLength len = init ++ [l] ∧
      (lengthCode len = 126 ∧ init.length = 1 ∨ lengthCode len = 127 ∧ init.length = 7) := by
  have hne : extendedLength len ≠ [] := by
    rw [extendedLength]
    split_ifs <;> simp [bytesLE]
  refine ⟨_, _, (List.dropLast_append_getLast hne).symm, ?_⟩
  rw [List.length_dropLast, extendedLength, lengthCode]
  split_ifs <;> simp

theorem valueLE_extendedLength {len : ℕ} (hlen : len < 2 ^ 63) :
    valueLE (extendedLength len).reverse = len := by
  rw [extendedLength]
  split_ifs with h16 <;> rw [List.reverse_reverse]
  · exact valueLE_bytesLE_of_lt h16
  · exact valueLE_bytesLE_of_lt (hlen.trans (by decide))

/-- A client's extended header is accepted. -/
theorem ClientHeader.accepted (h : ClientHeader) :
    accepted (h.op.code ||| if h.fin then 128 else 0) (lengthCode h.len ||| 128) = true := by
  have hcode : lengthCode h.len = 126 ∨ lengthCode h.len = 127 := by
    rw [lengthCode]
    split_ifs <;> simp
  rcases h.data with hop | hop | hop <;> rcases hcode with hcode | hcode <;>
    rw [hop, hcode] <;> cases h.fin <;> decide

/-- A client's extended length is decoded exactly when its bytes mirror one another. -/
theorem decodes_iff (h : ClientHeader) (rest : Bytes) : Decodes h rest ↔ Mirrored h.len := by
  obtain ⟨init, l, hext, hinit⟩ := extendedLength_eq h.len
  have hcode : (lengthCode h.len ||| 128) &&& 127 = lengthCode h.len := by
    rcases hinit with ⟨hcode, -⟩ | ⟨hcode, -⟩ <;> rw [hcode] <;> decide
  have hlen := valueLE_extendedLength h.len_lt
  have hmask := h.mask_length
  have hsame : (lengthCode h.len :: init).length = (extendedLength h.len).reverse.length := by
    rw [hext, List.length_reverse, List.length_append]
    rfl
  rw [Decodes, ClientHeader.bytes, hext, List.append_assoc, List.append_assoc, List.append_assoc,
    List.cons_append, List.cons_append, List.nil_append, List.singleton_append,
    receiveOpcode_extended hcode hinit (by rw [List.length_append]; omega),
    if_pos h.accepted, Mirrored]
  rw [hext] at hsame hlen ⊢
  rw [List.dropLast_concat]
  constructor
  · rintro ⟨header, rest', hsome, hsize⟩
    simp only [Option.some.injEq, Prod.mk.injEq] at hsome
    obtain ⟨rfl, -⟩ := hsome
    exact valueLE_injective hsame (hsize.trans hlen.symm)
  · intro hmirror
    exact ⟨_, _, rfl, (congrArg valueLE hmirror).trans hlen⟩

/-- The headers `send` writes are read back exactly up to 125 bytes of payload, and
a client's extended length is decoded exactly when its bytes mirror one another. -/
theorem headers_iff (op : WsOp) (size : ℕ) {mask : Bytes} (hmask : mask.length = 4)
    (h : ClientHeader) (rest : Bytes) :
    (ReadBack op size mask rest ↔ size ≤ 125) ∧ (Decodes h rest ↔ Mirrored h.len) :=
  ⟨readBack_iff op rest hmask, decodes_iff h rest⟩

/-- A ping of five bytes is read back; a binary message of 382 bytes has a length
whose low byte is 126. -/
theorem headers_iff_ping :
    ReadBack .ping 5 [1, 2, 3, 4] [9] ∧
      Decodes ⟨.binary, by decide, true, 382, by decide, by decide, [1, 2, 3, 4], rfl⟩ [9] := by
  have hiff := headers_iff .ping 5 (show [1, 2, 3, 4].length = 4 from rfl)
    ⟨.binary, by decide, true, 382, by decide, by decide, [1, 2, 3, 4], rfl⟩ [9]
  exact ⟨hiff.1.mpr (by decide), hiff.2.mpr (by decide)⟩

/-- A binary message of 200 bytes: both the header `send` writes and the one a client
writes are taken to announce another length. -/
theorem not_headers :
    ¬ ReadBack .binary 200 [1, 2, 3, 4] [] ∧
      receiveOpcode (withMaskBit (sendHeader .binary 200) ++ [1, 2, 3, 4])
        = some (⟨2, true, 51326, [0, 1, 2, 3]⟩, [4]) ∧
      ¬ Decodes ⟨.binary, by decide, true, 200, by decide, by decide, [1, 2, 3, 4], rfl⟩ [] := by
  refine ⟨by unfold ReadBack; decide, by decide, ?_⟩
  rintro ⟨header, rest, hsome, hsize⟩
  have hread : receiveOpcode ((⟨.binary, by decide, true, 200, by decide, by decide, [1, 2, 3, 4],
      rfl⟩ : ClientHeader).bytes ++ []) = some (⟨2, true, 126, [200, 1, 2, 3]⟩, [4]) := by decide
  rw [hread] at hsome
  simp only [Option.some.injEq, Prod.mk.injEq] at hsome
  obtain ⟨rfl, -⟩ := hsome
  revert hsize
  decide

end Suil.WebSock
