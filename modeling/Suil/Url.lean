/-
Percent encoding.

The encoder asks `strchr` which bytes besides letters and digits stay as they are,
and `strchr` finds the zero byte in every text.  It allocates three bytes for each
byte it is given, which leaves none for the terminator when all are escaped.  Its
text has a 32-bit length, which the decoder takes for an `int`.

* `decodeText_encodeText` — what is written is read back;
* `length_decodeText_take` — how much of a text that is cut is read back;
* `decode_encode_fits_iff` — the byte strings that come through.
-/
import Suil.Base64Url

namespace Suil.Url

/-- The bytes that `URL::encode` escapes. -/
def isEscaped (c : UInt8) : Bool := !isAlnum c && !strchr (ascii "-_.~") c

/-- `hexchars[n]`. -/
def hexchar (n : UInt8) : UInt8 := (ascii "0123456789ABCDEF").getD n.toNat 0

/-- What the loop of `URL::encode` writes for one byte. -/
def encodeByte (c : UInt8) : Bytes :=
  if isEscaped c then [37, hexchar ((c &&& 0xF0) >>> 4), hexchar (c &&& 0x0F)] else [c]

/-- What the loop of `URL::encode` writes. -/
def encodeText (data : Bytes) : Bytes := data.flatMap encodeByte

/-- `URL::encode`; it is `none` when the terminator is written behind the `len*3` bytes that
are allocated.  The length of a `String` has 32 bits. -/
def encode (data : Bytes) : Option Bytes :=
  let buf := encodeText data
  if buf.length < data.length * 3 % 2 ^ 64 then some (buf.take (buf.length % 2 ^ 32)) else none

/-- `IS_HEX_CHAR`. -/
def isHexChar (c : UInt8) : Bool := (48 ≤ c && c ≤ 57) || (97 ≤ c && c ≤ 102) || (65 ≤ c && c ≤ 70)

/-- `HEX_VALUE`. -/
def hexValue (c : UInt8) : UInt8 :=
  if 48 ≤ c && c ≤ 57 then c - 48 else if 97 ≤ c && c ≤ 102 then c - 97 + 10 else c - 65 + 10

/-- The loop of `urlDecode`. -/
def decodeText : Bytes → Bytes
  | c :: high :: low :: src =>
    if c == 37 then
      if isHexChar high && isHexChar low then
        (hexValue high <<< 4 ||| hexValue low) :: decodeText src
      else c :: decodeText (high :: low :: src)
    else if c == 43 then 32 :: decodeText (high :: low :: src)
    else c :: decodeText (high :: low :: src)
  | c :: src => (if c == 43 then 32 else c) :: decodeText src
  | [] => []

/-- `URL::decode`: the length is passed on as an `int`. -/
def decode (data : Bytes) : Bytes := decodeText (data.take (Base64.int32 data.length).toNat)

/-- The unreserved characters. -/
def isUnreserved (c : UInt8) : Bool := isAlnum c || (ascii "-_.~").contains c

/-- The text consists of unreserved characters and escapes. -/
def isEncoding : Bytes → Bool
  | c :: high :: low :: text =>
    if isUnreserved c then isEncoding (high :: low :: text)
    else c == 37 && isHexChar high && isHexChar low && isEncoding text
  | c :: text => isUnreserved c && isEncoding text
  | [] => true

/-- No byte is zero, some byte is left as it is, and the text is shorter than 2^31. -/
def Fits (data : Bytes) : Prop :=
  0 ∉ data ∧ (∃ c ∈ data, isEscaped c = false) ∧ data.length + 2 * data.countP isEscaped < 2 ^ 31

instance (data : Bytes) : Decidable (Fits data) :=
  inferInstanceAs (Decidable (0 ∉ data ∧ (∃ c ∈ data, isEscaped c = false) ∧
    data.length + 2 * data.countP isEscaped < 2 ^ 31))

/-! ### One byte -/

/-- An escape is read back. -/
theorem hexchar_read (c : UInt8) :
    isHexChar (hexchar ((c &&& 0xF0) >>> 4)) = true ∧ isHexChar (hexchar (c &&& 0x0F)) = true ∧
      (hexValue (hexchar ((c &&& 0xF0) >>> 4)) <<< 4 ||| hexValue (hexchar (c &&& 0x0F))) = c := by
  revert c
  exact forall_byte (by decide +kernel)

/-- What is left as it is is unreserved or zero, and no sign of an escape. -/
theorem plain_of_not_escaped (c : UInt8) :
    isEscaped c = false → (isUnreserved c = true ∨ c = 0) ∧ c ≠ 37 ∧ c ≠ 43 := by
  revert c
  exact forall_byte (by decide +kernel)

theorem isHexChar_ne_zero {c : UInt8} (h : isHexChar c = true) : c ≠ 0 := by
  rintro rfl
  exact absurd h (by decide)

theorem decodeText_plain {c : UInt8} (h₃₇ : c ≠ 37) (h₄₃ : c ≠ 43) (src : Bytes) :
    decodeText (c :: src) = c :: decodeText src := by
  rcases src with _ | ⟨high, _ | ⟨low, src⟩⟩ <;> simp [decodeText, h₃₇, h₄₃]

theorem decodeText_escape (c : UInt8) (src : Bytes) :
    decodeText (37 :: hexchar ((c &&& 0xF0) >>> 4) :: hexchar (c &&& 0x0F) :: src) =
      c :: decodeText src := by
  obtain ⟨hhigh, hlow, hc⟩ := hexchar_read c
  rw [decodeText, if_pos (by decide), hhigh, hlow, if_pos (by decide), hc]

/-- One byte, whatever follows it, is read back. -/
theorem decodeText_encodeByte (c : UInt8) (src : Bytes) :
    decodeText (encodeByte c ++ src) = c :: decodeText src := by
  rw [encodeByte]
  split_ifs with h
  · exact decodeText_escape c src
  · obtain ⟨-, h₃₇, h₄₃⟩ := plain_of_not_escaped c (Bool.eq_false_iff.mpr h)
    exact decodeText_plain h₃₇ h₄₃ src

theorem isEncoding_encodeByte {c : UInt8} (hc : c ≠ 0) {text : Bytes} (h : isEncoding text = true) :
    isEncoding (encodeByte c ++ text) = true := by
  rw [encodeByte]
  split_ifs with hescaped
  · obtain ⟨hhigh, hlow, -⟩ := hexchar_read c
    show isEncoding (37 :: hexchar _ :: hexchar _ :: text) = true
    rw [isEncoding, if_neg (by decide), hhigh, hlow, h]
    rfl
  · have hplain := (plain_of_not_escaped c (Bool.eq_false_iff.mpr hescaped)).1.resolve_right hc
    show isEncoding (c :: text) = true
    rcases text with _ | ⟨high, _ | ⟨low, text⟩⟩ <;> simp_all [isEncoding]

/-! ### The text -/

@[simp] theorem encodeText_nil : encodeText [] = [] := rfl

@[simp] theorem encodeText_cons (c : UInt8) (data : Bytes) :
    encodeText (c :: data) = encodeByte c ++ encodeText data := rfl

theorem length_encodeByte (c : UInt8) :
    (encodeByte c).length = 1 + 2 * if isEscaped c then 1 else 0 := by
  rw [encodeByte]
  split_ifs <;> rfl

theorem length_encodeText (data : Bytes) :
    (encodeText data).length = data.length + 2 * data.countP isEscaped := by
  induction data with
  | nil => rfl
  | cons c data ih =>
    rw [encodeText_cons, List.length_append, length_encodeByte, ih, List.countP_cons,
      List.length_cons]
    omega

theorem length_encodeText_le (data : Bytes) : (encodeText data).length ≤ 3 * data.length := by
  have hle := List.countP_le_length (p := isEscaped) (l := data)
  rw [length_encodeText]
  omega

/-- **What is written is read back.** -/
theorem decodeText_encodeText (data : Bytes) : decodeText (encodeText data) = data := by
  induction data with
  | nil => rfl
  | cons c data ih => rw [encodeText_cons, decodeText_encodeByte, ih]

theorem isEncoding_encodeText {data : Bytes} (h : 0 ∉ data) : isEncoding (encodeText data) = true := by
  induction data with
  | nil => rfl
  | cons c data ih =>
    rw [List.mem_cons, not_or] at h
    exact isEncoding_encodeByte (Ne.symm h.1) (ih h.2)

/-- No zero byte stands in an encoding. -/
theorem zero_notMem_of_isEncoding : ∀ {text : Bytes}, isEncoding text = true → 0 ∉ text
  | [], _ => List.not_mem_nil
  | [c], h => by
    rintro (_ | ⟨_, ⟨⟩⟩)
    exact absurd h (by decide)
  | [c, d], h => by
    intro h0
    rw [isEncoding, isEncoding, isEncoding] at h
    · simp only [List.mem_cons, List.not_mem_nil, or_false] at h0
      rcases h0 with rfl | rfl <;> simp_all [show isUnreserved 0 = false from by decide]
    all_goals simp
  | c :: high :: low :: text, h => by
    intro h0
    rw [isEncoding] at h
    split_ifs at h with hc
    · rcases List.mem_cons.mp h0 with rfl | h0
      · exact absurd hc (by decide)
      · exact zero_notMem_of_isEncoding h h0
    · simp only [Bool.and_eq_true, beq_iff_eq] at h
      obtain ⟨⟨⟨rfl, hhigh⟩, hlow⟩, htext⟩ := h
      rcases List.mem_cons.mp h0 with h0 | h0
      · exact absurd h0 (by decide)
      rcases List.mem_cons.mp h0 with h0 | h0
      · exact isHexChar_ne_zero hhigh h0.symm
      rcases List.mem_cons.mp h0 with h0 | h0
      · exact isHexChar_ne_zero hlow h0.symm
      · exact zero_notMem_of_isEncoding htext h0

theorem zero_mem_encodeText {data : Bytes} (h : 0 ∈ data) : 0 ∈ encodeText data :=
  List.mem_flatMap.mpr ⟨0, h, by decide⟩

/-- A text that is cut gives up to two bytes for the escape that is cut with it. -/
theorem length_decodeText_take {data : Bytes} {m : ℕ} (h : m < (encodeText data).length) :
    (encodeText data).length + 3 * (decodeText ((encodeText data).take m)).length ≤
      m + 3 * data.length + 6 := by
  induction data generalizing m with
  | nil => exact absurd h (Nat.not_lt_zero m)
  | cons c data ih =>
    have hle := length_encodeText_le data
    rw [encodeText_cons, List.length_cons, encodeByte] at *
    split_ifs at * with hescaped
    · simp only [List.cons_append, List.nil_append, List.length_cons] at *
      -- a cut within the escape loses its byte
      rcases m with _ | _ | _ | m
      · simp [decodeText]
        omega
      · simp [decodeText]
        omega
      · simp [decodeText]
        omega
      · rw [List.take_succ_cons, List.take_succ_cons, List.take_succ_cons, decodeText_escape,
          List.length_cons]
        have := ih (m := m) (by omega)
        omega
    · simp only [List.cons_append, List.nil_append, List.length_cons] at *
      obtain ⟨-, h₃₇, h₄₃⟩ := plain_of_not_escaped c (Bool.eq_false_iff.mpr hescaped)
      rcases m with _ | m
      · simp [decodeText]
        omega
      · rw [List.take_succ_cons, decodeText_plain h₃₇ h₄₃, List.length_cons]
        have := ih (m := m) (by omega)
        omega

/-! ### Encoding and decoding -/

theorem decode_eq (data : Bytes) (h : data.length < 2 ^ 31) : decode data = decodeText data := by
  rw [decode, Base64.int32, Nat.mod_eq_of_lt (by omega), if_pos h, Int.toNat_natCast, List.take_length]

theorem decode_long (data : Bytes) (h : 2 ^ 31 ≤ data.length) (h₃₂ : data.length < 2 ^ 32) :
    decode data = [] := by
  rw [decode, Base64.int32, Nat.mod_eq_of_lt h₃₂, if_neg (by omega), Int.toNat_of_nonpos (by omega),
    List.take_zero]
  rfl

/-- **The byte strings that come through**: the text is written within the buffer, it is an
encoding, and it is read back. -/
theorem decode_encode_fits_iff (data : Bytes) :
    (∃ text, encode data = some text ∧ isEncoding text = true ∧ decode text = data) ↔ Fits data := by
  rw [Fits, ← length_encodeText]
  have hlen := length_encodeText data
  constructor
  · rintro ⟨text, hencode, hok, hback⟩
    rw [encode, Option.ite_none_right_eq_some] at hencode
    obtain ⟨hroom, htext⟩ := hencode
    replace htext := Option.some.inj htext
    -- there is no room for the terminator of an empty text
    have hpos : data ≠ [] := by
      rintro rfl
      exact absurd hroom (by decide)
    have hshort : (encodeText data).length < 2 ^ 31 := by
      set n := (encodeText data).length with hn
      have hmod : n % 2 ^ 32 < 2 ^ 32 := Nat.mod_lt _ (by norm_num)
      have htake : text.length = n % 2 ^ 32 := by
        rw [← htext, List.length_take]
        exact min_eq_left (Nat.mod_le _ _)
      by_contra hlong
      by_cases hint : n % 2 ^ 32 < 2 ^ 31
      · -- the length has wrapped, and what is left of the text is too short for the data
        have hbelow : n % 2 ^ 32 < (encodeText data).length := by omega
        have hcut := length_decodeText_take hbelow
        rw [htext, ← decode_eq text (by omega), hback] at hcut
        omega
      · exact hpos (hback.symm.trans (decode_long text (by omega) (by omega)))
    rw [Nat.mod_eq_of_lt (by omega), List.take_length] at htext
    refine ⟨fun h0 => zero_notMem_of_isEncoding hok (htext ▸ zero_mem_encodeText h0), ?_, hshort⟩
    by_contra hall
    -- only escapes leave no room for the terminator either
    have hcount : data.countP isEscaped = data.length := List.countP_eq_length.mpr fun c hc =>
      by_contra fun h => hall ⟨c, hc, Bool.eq_false_iff.mpr h⟩
    have hmod := Nat.mod_le (data.length * 3) (2 ^ 64)
    omega
  · rintro ⟨h0, ⟨c, hc, hplain⟩, hshort⟩
    have hcount : data.countP isEscaped < data.length := by
      refine lt_of_le_of_ne List.countP_le_length fun h => ?_
      exact absurd (List.countP_eq_length.mp h c hc) (by simp [hplain])
    refine ⟨encodeText data, ?_, isEncoding_encodeText h0, ?_⟩
    · rw [encode, Nat.mod_eq_of_lt (show data.length * 3 < 2 ^ 64 by omega), if_pos (by omega),
        Nat.mod_eq_of_lt (by omega), List.take_length]
    · rw [decode_eq _ hshort, decodeText_encodeText]

example : encode (ascii "a b") = some (ascii "a%20b") := by decide

/-- The zero byte is not escaped, and a lone escape leaves no room for the terminator. -/
theorem not_decode_encode_all :
    ¬(∃ text, encode [97, 0] = some text ∧ isEncoding text = true ∧ decode text = [97, 0]) ∧
      ¬∃ text, encode [33] = some text ∧ isEncoding text = true ∧ decode text = [33] := by
  refine ⟨?_, ?_⟩
  · rintro ⟨text, hencode, hok, -⟩
    rw [show encode [97, 0] = some [97, 0] by decide] at hencode
    obtain rfl := Option.some.inj hencode
    exact absurd hok (by decide)
  · rintro ⟨text, hencode, -⟩
    rw [show encode [33] = none by decide] at hencode
    cases hencode

end Suil.Url
