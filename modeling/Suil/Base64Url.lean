/-
Base64 for URLs.

The encoder writes no padding and counts its groups with an `int`, so the text of
2^31 bytes and more ends early.  The decoder checks all characters but those of
the last group.

* `urlEncodeText_whole`, `urlEncodeText_cut` — what the text is below 2^31 bytes and above;
* `urlDecodeText_urlText` — the text is read back;
* `urlEncodeTo_bytes`, `urlEncodeTo_of_fits` — writing it behind a buffer;
* `urlDecode_eq` — the decoder has room for what it reads, below 2^31 characters.
-/
import Suil.Base64

namespace Suil

namespace Buffer

variable {b : Buffer} {n : ℕ}

/-- Reserving makes room when the size after a growth is below 2^32. -/
theorem Sound.reserve_ok (h : b.Sound) (hlt : grown b.size (n - (b.size - b.bytes.length)) < 2 ^ 32) :
    ∃ b', b.reserve n = some b' ∧ b'.bytes = b.bytes ∧ b'.Sound ∧ b.bytes.length + n ≤ b'.size := by
  have hwithin := h.within
  rw [reserve, h.capacity]
  by_cases hroom : b.size - b.bytes.length < n
  · set want := n - (b.size - b.bytes.length) with hwant
    have hle := le_aligned (max b.size want)
    rw [grown] at hlt
    obtain ⟨b', hgrow, hbytes, hsize, hsound⟩ := h.grow_ok (n := max b.size want) (by omega) hlt
    rw [if_pos hroom, Nat.mod_eq_of_lt (show want < 2 ^ 32 by omega)]
    exact ⟨b', hgrow, hbytes, hsound, by omega⟩
  · rw [if_neg hroom]
    exact ⟨b, rfl, rfl, h, by omega⟩

end Buffer

namespace Base64

def b64tableU : Bytes := ascii "ABCDEFGHIJKLMNOPQRSTUVWXYZabcdefghijklmnopqrstuvwxyz0123456789-_"

/-- `b64tableU[i]`. -/
def b64U (i : UInt8) : UInt8 := b64tableU.getD i.toNat 0

/-- What `urlEncode` writes behind its loop. -/
def urlTail : Bytes → Bytes
  | [] => []
  | [x] => [b64U (x >>> 2 &&& 0x3F), b64U ((x &&& 0x3) <<< 4)]
  | x :: y :: _ =>
    [b64U (x >>> 2 &&& 0x3F), b64U ((x &&& 0x3) <<< 4 ||| (y &&& 0xF0) >>> 4),
      b64U ((y &&& 0xF) <<< 2)]

/-- The loop of `urlEncode`, where `top` is `int(len) - 2 - i` and the bytes are those from
`i` on. -/
def urlLoop (top : ℤ) : Bytes → Bytes
  | x :: y :: z :: data =>
    if 0 < top then
      b64U (x >>> 2 &&& 0x3F) :: b64U ((x &&& 0x3) <<< 4 ||| (y &&& 0xF0) >>> 4) ::
        b64U ((y &&& 0xF) <<< 2 ||| (z &&& 0xC0) >>> 6) :: b64U (z &&& 0x3F) ::
        urlLoop (top - 3) data
    else urlTail (x :: y :: z :: data)
  | data => urlTail data

/-- `(int) n`. -/
def int32 (n : ℕ) : ℤ := if n % 2 ^ 32 < 2 ^ 31 then (n % 2 ^ 32 : ℕ) else (n % 2 ^ 32 : ℕ) - 2 ^ 32

/-- The text that `urlEncode` writes; none when `int(len) - 2` overflows. -/
def urlEncodeText (data : Bytes) : Option Bytes :=
  if int32 data.length - 2 < -2 ^ 31 then none
  else some (urlLoop (int32 data.length - 2) data)

/-- `urlEncode` into a buffer: the text and, not counted, a zero byte.  Like the calls
below it is `none` when the call throws or leaves the buffer's memory. -/
def urlEncodeTo (ob : Buffer) (data : Bytes) : Option Buffer := do
  let ob ← ob.reserve (2 + (data.length + 2) / 3 * 4)
  let out ← urlEncodeText data
  if ob.bytes.length + out.length < ob.memory then
    let ob ← ob.copyIn out
    if ob.bytes.length ≤ ob.size then some ob else none
  else none

/-- `urlEncode`. -/
def urlEncode (data : Bytes) : Option Bytes := do
  let ob ← Buffer.new (2 + (data.length + 2) / 3 * 4)
  let ob ← urlEncodeTo ob data
  some ob.bytes

/-- `ASCII_LOOKUP[c]` of `urlDecode`: both alphabets are read. -/
def urlLookup (c : UInt8) : ℕ := if c = 45 then 62 else if c = 95 then 63 else lookup c

/-- The three bytes of a group. -/
def urlByte₀ (a b : UInt8) : UInt8 := .ofNat (urlLookup a <<< 2 ||| urlLookup b >>> 4)

def urlByte₁ (b c : UInt8) : UInt8 := .ofNat (urlLookup b <<< 4 ||| urlLookup c >>> 2)

def urlByte₂ (c d : UInt8) : UInt8 := .ofNat (urlLookup c <<< 6 ||| urlLookup d)

/-- What `urlDecode` reads: the last group, of up to four characters, is not checked. -/
def urlDecodeText : Bytes → Option Bytes
  | a :: b :: c :: d :: e :: text =>
    if urlLookup a = 64 ∨ urlLookup b = 64 ∨ urlLookup c = 64 ∨ urlLookup d = 64 then none
    else (urlDecodeText (e :: text)).map fun data =>
      urlByte₀ a b :: urlByte₁ b c :: urlByte₂ c d :: data
  | [a, b, c, d] => some [urlByte₀ a b, urlByte₁ b c, urlByte₂ c d]
  | [a, b, c] => some [urlByte₀ a b, urlByte₁ b c]
  | [a, b] => some [urlByte₀ a b]
  | _ => some []

/-- `urlDecode`. -/
def urlDecode (text : Bytes) : Option Bytes := do
  let ob ← Buffer.new (text.length / 4 % 2 ^ 32 * 3 % 2 ^ 32)
  let ob ← ob.reserve ((text.length / 4 * 3 + 4) % 2 ^ 32)
  let data ← urlDecodeText text
  let ob ← ob.copyIn data
  if ob.bytes.length ≤ ob.size then some ob.bytes else none

/-- The text without padding. -/
def urlText : Bytes → Bytes
  | x :: y :: z :: data =>
    b64U (x >>> 2 &&& 0x3F) :: b64U ((x &&& 0x3) <<< 4 ||| (y &&& 0xF0) >>> 4) ::
      b64U ((y &&& 0xF) <<< 2 ||| (z &&& 0xC0) >>> 6) :: b64U (z &&& 0x3F) :: urlText data
  | data => urlTail data

/-! ### One character -/

theorem urlLookup_b64U {i : UInt8} (h : i.toNat < 64) : urlLookup (b64U i) = i.toNat := by
  have hall : ∀ n < 64, urlLookup (b64tableU.getD n 0) = n := by decide +kernel
  exact hall i.toNat h

/-- The characters of a text: no dot and no zero byte is among them. -/
theorem b64U_ne {i : UInt8} (h : i.toNat < 64) : b64U i ≠ 46 ∧ b64U i ≠ 0 := by
  have hlookup := urlLookup_b64U h
  constructor
  · intro heq
    rw [heq, show urlLookup 46 = 64 from by decide] at hlookup
    omega
  · intro heq
    rw [heq, show urlLookup 0 = 64 from by decide] at hlookup
    omega

theorem first_index (x : UInt8) : (x >>> 2 &&& 0x3F : UInt8) = (x &&& 0xFC) >>> 2 := by
  have hall : ∀ n < 256, (UInt8.ofNat n >>> 2 &&& 0x3F : UInt8) = (UInt8.ofNat n &&& 0xFC) >>> 2 := by
    decide +kernel
  exact UInt8.ofNat_toNat (x := x) ▸ hall x.toNat x.toNat_lt

section Group

variable {x y z i j k l : UInt8}

theorem urlByte₀_eq (hi : i.toNat = x.toNat / 4) (hj : j.toNat < 64)
    (hjx : j.toNat / 16 = x.toNat % 4) : urlByte₀ (b64U i) (b64U j) = x := by
  have hx := x.toNat_lt
  rw [urlByte₀, urlLookup_b64U (by omega), urlLookup_b64U hj, (ofNat_indices hj hj hj).1]
  exact ofNat_eq (by omega)

theorem urlByte₁_eq (hj : j.toNat < 64) (hjy : j.toNat % 16 = y.toNat / 16) (hk : k.toNat < 64)
    (hky : k.toNat / 4 = y.toNat % 16) : urlByte₁ (b64U j) (b64U k) = y := by
  have hy := y.toNat_lt
  rw [urlByte₁, urlLookup_b64U hj, urlLookup_b64U hk, (ofNat_indices (i := 0) hj hk hk).2.1]
  exact ofNat_eq (by omega)

theorem urlByte₂_eq (hk : k.toNat < 64) (hkz : k.toNat % 4 = z.toNat / 64)
    (hl : l.toNat = z.toNat % 64) : urlByte₂ (b64U k) (b64U l) = z := by
  have hz := z.toNat_lt
  rw [urlByte₂, urlLookup_b64U hk, urlLookup_b64U (by omega),
    (ofNat_indices (i := 0) hk hk (show l.toNat < 64 by omega)).2.2]
  exact ofNat_eq (by omega)

end Group

/-! ### The text -/

theorem length_urlText (data : Bytes) : (urlText data).length = (4 * data.length + 2) / 3 := by
  induction data using urlText.induct with
  | case1 x y z data ih =>
    rw [urlText]
    simp only [List.length_cons, ih]
    omega
  | case2 data hshort =>
    match data, hshort with
    | [], _ => rfl
    | [_], _ => simp [urlText, urlTail]
    | [_, _], _ => simp [urlText, urlTail]
    | x :: y :: z :: data, hshort => exact absurd rfl (hshort x y z data)

/-- The characters of a text are those of the alphabet. -/
theorem mem_urlText {data : Bytes} {c : UInt8} (h : c ∈ urlText data) :
    ∃ i : UInt8, i.toNat < 64 ∧ c = b64U i := by
  induction data using urlText.induct with
  | case1 x y z data ih =>
    obtain ⟨hi, -, hj, -, hk, hl⟩ := indices x y z
    rw [← first_index] at hi
    have hx := x.toNat_lt
    have hy := y.toNat_lt
    have hz := z.toNat_lt
    rw [urlText] at h
    simp only [List.mem_cons] at h
    rcases h with rfl | rfl | rfl | rfl | h
    · exact ⟨_, by omega, rfl⟩
    · exact ⟨_, by omega, rfl⟩
    · exact ⟨_, by omega, rfl⟩
    · exact ⟨_, by omega, rfl⟩
    · exact ih h
  | case2 data hshort =>
    match data, hshort with
    | [], _ => cases h
    | [x], _ =>
      obtain ⟨hi, hj, -⟩ := indices x 0 0
      rw [← first_index] at hi
      have hx := x.toNat_lt
      simp only [urlText, urlTail, List.mem_cons, List.not_mem_nil, or_false] at h
      rcases h with rfl | rfl
      · exact ⟨_, by omega, rfl⟩
      · exact ⟨_, by omega, rfl⟩
    | [x, y], _ =>
      obtain ⟨hi, -, hj, hk, -⟩ := indices x y 0
      rw [← first_index] at hi
      have hx := x.toNat_lt
      have hy := y.toNat_lt
      simp only [urlText, urlTail, List.mem_cons, List.not_mem_nil, or_false] at h
      rcases h with rfl | rfl | rfl
      · exact ⟨_, by omega, rfl⟩
      · exact ⟨_, by omega, rfl⟩
      · exact ⟨_, by omega, rfl⟩
    | x :: y :: z :: data, hshort => exact absurd rfl (hshort x y z data)

theorem urlText_ne {data : Bytes} {c : UInt8} (h : c ∈ urlText data) : c ≠ 46 ∧ c ≠ 0 := by
  obtain ⟨i, hi, rfl⟩ := mem_urlText h
  exact b64U_ne hi

/-- A group that is followed by others. -/
theorem urlDecodeText_group {i j k l : UInt8} {text : Bytes} (hi : i.toNat < 64)
    (hj : j.toNat < 64) (hk : k.toNat < 64) (hl : l.toNat < 64) :
    urlDecodeText (b64U i :: b64U j :: b64U k :: b64U l :: text) =
      (urlDecodeText text).map fun data =>
        urlByte₀ (b64U i) (b64U j) :: urlByte₁ (b64U j) (b64U k) :: urlByte₂ (b64U k) (b64U l) ::
          data := by
  cases text with
  | nil => rfl
  | cons e text =>
    rw [urlDecodeText, urlLookup_b64U hi, urlLookup_b64U hj, urlLookup_b64U hk, urlLookup_b64U hl,
      if_neg (by omega)]

/-- **The text** is read back. -/
theorem urlDecodeText_urlText (data : Bytes) : urlDecodeText (urlText data) = some data := by
  induction data using urlText.induct with
  | case1 x y z data ih =>
    obtain ⟨hi, -, hj, -, hk, hl⟩ := indices x y z
    rw [← first_index] at hi
    have hx := x.toNat_lt
    have hy := y.toNat_lt
    have hz := z.toNat_lt
    rw [urlText, urlDecodeText_group (by omega) (by omega) (by omega) (by omega), ih,
      urlByte₀_eq hi (by omega) (by omega),
      urlByte₁_eq (y := y) (by omega) (by omega) (by omega) (by omega),
      urlByte₂_eq (by omega) (by omega) hl]
    rfl
  | case2 data hshort =>
    match data, hshort with
    | [], _ => rfl
    | [x], _ =>
      obtain ⟨hi, hj, -⟩ := indices x 0 0
      rw [← first_index] at hi
      have hx := x.toNat_lt
      have hbyte := urlByte₀_eq (x := x) hi (j := (x &&& 0x3) <<< 4) (by omega) (by omega)
      simp only [urlText, urlTail, urlDecodeText, hbyte]
    | [x, y], _ =>
      obtain ⟨hi, -, hj, hk, -⟩ := indices x y 0
      rw [← first_index] at hi
      have hx := x.toNat_lt
      have hy := y.toNat_lt
      have hbyte := urlByte₀_eq (x := x) hi (j := (x &&& 0x3) <<< 4 ||| (y &&& 0xF0) >>> 4)
        (by omega) (by omega)
      have hbyte' := urlByte₁_eq (y := y) (j := (x &&& 0x3) <<< 4 ||| (y &&& 0xF0) >>> 4)
        (k := (y &&& 0xF) <<< 2) (by omega) (by omega) (by omega) (by omega)
      simp only [urlText, urlTail, urlDecodeText, hbyte, hbyte']
    | x :: y :: z :: data, hshort => exact absurd rfl (hshort x y z data)

/-- What is decoded is shorter. -/
theorem length_urlDecodeText {text data : Bytes} (h : urlDecodeText text = some data) :
    4 * data.length ≤ 3 * text.length := by
  induction text using urlDecodeText.induct generalizing data with
  | case1 a b c d e text hbad =>
    rw [urlDecodeText, if_pos hbad] at h
    cases h
  | case2 a b c d e text hgood ih =>
    rw [urlDecodeText, if_neg hgood] at h
    obtain ⟨rest, hrest, rfl⟩ := Option.map_eq_some_iff.mp h
    have hlen := ih hrest
    simp only [List.length_cons] at hlen ⊢
    omega
  | case3 a b c d =>
    obtain rfl := Option.some.inj h
    simp
  | case4 a b c =>
    obtain rfl := Option.some.inj h
    simp
  | case5 a b =>
    obtain rfl := Option.some.inj h
    simp
  | case6 text h₁ h₂ h₃ h₄ =>
    rw [urlDecodeText] at h
    · obtain rfl := Option.some.inj h
      simp
    · exact h₁
    · exact h₂
    · exact h₃
    · exact h₄

/-- All of the groups are counted below 2^31. -/
theorem urlLoop_whole (data : Bytes) : urlLoop (data.length - 2) data = urlText data := by
  induction data using urlText.induct with
  | case1 x y z data ih =>
    have htop : ((x :: y :: z :: data).length : ℤ) - 2 = data.length - 2 + 3 := by
      simp only [List.length_cons, Nat.cast_add, Nat.cast_one]
      ring
    rw [htop, urlLoop, if_pos (by omega), add_sub_cancel_right, ih, urlText]
  | case2 data hshort =>
    rw [urlLoop, urlText]
    · exact hshort
    · exact hshort

/-- A count that is too low leaves out the end. -/
theorem urlLoop_cut {data : Bytes} {top : ℤ} (hlen : 3 ≤ data.length) (htop : top + 4 < data.length) :
    ∃ m < data.length, urlLoop top data = urlText (data.take m) := by
  induction data using urlText.induct generalizing top with
  | case1 x y z data ih =>
    simp only [List.length_cons, Nat.cast_add, Nat.cast_one] at htop
    by_cases hpos : 0 < top
    · have hrest : ∃ m < data.length, urlLoop (top - 3) data = urlText (data.take m) :=
        ih (by omega) (by omega)
      obtain ⟨m, hm, htext⟩ := hrest
      refine ⟨m + 3, by simpa using hm, ?_⟩
      rw [urlLoop, if_pos hpos, htext]
      rfl
    · refine ⟨2, by simp, ?_⟩
      rw [urlLoop, if_neg hpos]
      rfl
  | case2 data hshort =>
    match data, hshort with
    | x :: y :: z :: data, hshort => exact absurd rfl (hshort x y z data)

theorem urlEncodeText_whole {data : Bytes} (h : data.length < 2 ^ 31) :
    urlEncodeText data = some (urlText data) := by
  have hint : int32 data.length = data.length := by
    rw [int32, if_pos (by omega)]
    omega
  rw [urlEncodeText, hint, if_neg (by omega), urlLoop_whole]

/-- From 2^31 bytes on only a first part of them is encoded. -/
theorem urlEncodeText_cut {data out : Bytes} (hlong : 2 ^ 31 ≤ data.length)
    (h : urlEncodeText data = some out) : ∃ m < data.length, out = urlText (data.take m) := by
  rw [urlEncodeText, Option.ite_none_left_eq_some] at h
  have hcut : ∃ m < data.length, urlLoop (int32 data.length - 2) data = urlText (data.take m) := by
    refine urlLoop_cut (by omega) ?_
    rw [int32]
    split_ifs <;> omega
  obtain ⟨m, hm, htext⟩ := hcut
  exact ⟨m, hm, (Option.some.inj h.2).symm.trans htext⟩

/-! ### The buffers -/

theorem urlEncodeTo_bytes {ob ob' : Buffer} {data : Bytes} (h : urlEncodeTo ob data = some ob') :
    ∃ out, urlEncodeText data = some out ∧ ob'.bytes = ob.bytes ++ out := by
  obtain ⟨ob₁, hreserve, h⟩ := Option.bind_eq_some_iff.mp h
  obtain ⟨out, hout, h⟩ := Option.bind_eq_some_iff.mp h
  obtain ⟨-, h⟩ := Option.ite_none_right_eq_some.mp h
  obtain ⟨ob₂, hcopy, h⟩ := Option.bind_eq_some_iff.mp h
  obtain ⟨-, hob⟩ := Option.ite_none_right_eq_some.mp h
  refine ⟨out, hout, ?_⟩
  rw [← Option.some.inj hob, (Buffer.copyIn_eq_some_iff.mp hcopy).2.1,
    Buffer.reserve_bytes hreserve]

theorem urlEncodeTo_of_fits {ob : Buffer} {d : Bytes} (h : ob.Sound) (hlen : d.length < 2 ^ 31)
    (hfits : ob.bytes.length + (2 + (d.length + 2) / 3 * 4) ≤ ob.size) :
    ∃ ob', urlEncodeTo ob d = some ob' ∧ ob'.bytes = ob.bytes ++ urlText d ∧
      ob'.size = ob.size ∧ ob'.Sound := by
  have htext := length_urlText d
  have hspare := h.spare
  obtain ⟨ob', hcopy, hbytes, hsize, hsound⟩ := h.copyIn (d := urlText d) (by omega)
  refine ⟨ob', ?_, hbytes, hsize, hsound⟩
  rw [urlEncodeTo, Buffer.reserve, h.capacity, if_neg (by omega), Option.bind_eq_bind,
    Option.bind_some, urlEncodeText_whole hlen]
  simp only [Option.bind_eq_bind, Option.bind_some]
  rw [if_pos (by omega), hcopy, Option.bind_some, if_pos hsound.within]

theorem urlEncode_eq {data : Bytes} (h : data.length < 2 ^ 31) :
    urlEncode data = some (urlText data) := by
  obtain ⟨ob, hnew, hbytes, hsize, hsound⟩ := Buffer.new_eq_some (2 + (data.length + 2) / 3 * 4)
  set n := 2 + (data.length + 2) / 3 * 4 with hn
  have hup := aligned_lt n
  have hle := le_aligned n
  rw [Nat.mod_eq_of_lt (show n < 2 ^ 32 by omega), Nat.mod_eq_of_lt (by omega)] at hsize
  obtain ⟨ob', henc, hbytes', -⟩ := urlEncodeTo_of_fits (d := data) hsound h (by
    rw [hbytes, hsize, ← hn, List.length_nil]
    omega)
  rw [urlEncode, hnew, Option.bind_eq_bind, Option.bind_some, henc, Option.bind_some, hbytes',
    hbytes, List.nil_append]

/-- **The decoder** has room for what it reads from less than 2^31 characters. -/
theorem urlDecode_eq {text : Bytes} (h : text.length < 2 ^ 31) :
    urlDecode text = urlDecodeText text := by
  have hsizes : text.length / 4 % 2 ^ 32 * 3 % 2 ^ 32 = text.length / 4 * 3 ∧
      (text.length / 4 * 3 + 4) % 2 ^ 32 = text.length / 4 * 3 + 4 := by omega
  obtain ⟨ob, hnew, hbytes, hsize, hsound⟩ := Buffer.new_eq_some (text.length / 4 * 3)
  set n := text.length / 4 * 3 with hn
  have hup := aligned_lt n
  rw [Nat.mod_eq_of_lt (show n < 2 ^ 32 by omega), Nat.mod_eq_of_lt (by omega)] at hsize
  obtain ⟨ob₁, hreserve, hbytes₁, hsound₁, hroom⟩ := hsound.reserve_ok (n := n + 4) (by
    have hmore := aligned_lt (max ob.size (n + 4 - (ob.size - ob.bytes.length)))
    rw [Buffer.grown, hbytes, List.length_nil] at *
    omega)
  rw [urlDecode, hsizes.1, hsizes.2, hnew]
  simp only [Option.bind_eq_bind, Option.bind_some, hreserve]
  cases hdata : urlDecodeText text with
  | none => rfl
  | some data =>
    have hshort := length_urlDecodeText hdata
    rw [hbytes, List.length_nil] at hroom
    exact copyIn_seek hsound₁ (hbytes₁.trans hbytes) (by omega)

end Base64
end Suil
