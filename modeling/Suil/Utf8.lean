/-
Characters in UTF-8 and in UTF-16.

The functions of the JSON parser that check, read and write one character, and compute and split
surrogate pairs.  The characters are the ones of Lean, which are the Unicode scalar values, and
`String.utf8EncodeChar` is their encoding.

* `utf8ValidateCz_encode`, `exists_char` — what is taken for a character is one, of that length;
* `utf8ReadChar_encode`, `utf8WriteChar_char`, `utf8WriteChar_eq_none_iff` — reading and writing;
* `utf8Validate_iff` — a text is valid when it is characters, one behind the other;
* `fromSurrogatePair_toSurrogatePair`, `fromSurrogatePair_eq_some_iff` — the two halves of a
  character;
* `utf8_iff` — all of these.
-/
import Suil.Core
import Suil.Lib.Scanning

open Scanning

namespace Suil.Utf8

/-! ### The functions -/

/-- A byte behind a pointer; behind the bytes of a C string stands its zero. -/
def byteAt (s : Bytes) (i : ℕ) : ℕ := (s.getD i 0).toNat

/-- `utf8_validate_cz` -/
def utf8ValidateCz (s : Bytes) : ℕ :=
  let c := byteAt s 0
  if c ≤ 0x7F then 1
  else if c ≤ 0xC1 then 0
  else if c ≤ 0xDF then
    if 0xC0 &&& byteAt s 1 ≠ 0x80 then 0 else 2
  else if c ≤ 0xEF then
    if c = 0xE0 ∧ byteAt s 1 < 0xA0 then 0
    else if c = 0xED ∧ byteAt s 1 > 0x9F then 0
    else if byteAt s 1 &&& 0xC0 ≠ 0x80 then 0
    else if byteAt s 2 &&& 0xC0 ≠ 0x80 then 0
    else 3
  else if c ≤ 0xF4 then
    if c = 0xF0 ∧ byteAt s 1 < 0x90 then 0
    else if c = 0xF4 ∧ byteAt s 1 > 0x8F then 0
    else if byteAt s 1 &&& 0xC0 ≠ 0x80 then 0
    else if byteAt s 2 &&& 0xC0 ≠ 0x80 then 0
    else if byteAt s 3 &&& 0xC0 ≠ 0x80 then 0
    else 4
  else 0

/-- `*s == 0` -/
def atEnd (s : Bytes) : Bool := byteAt s 0 = 0

/-- The body of the loop of `utf8_validate`. -/
def validateTurn (s : Bytes) : Option (Bytes × Bytes) :=
  if utf8ValidateCz s = 0 then none else some (s.splitAt (utf8ValidateCz s))

/-- `utf8_validate` -/
def utf8Validate (s : Bytes) : Bool := (turns atEnd validateTurn (s.length + 1) s).isSome

/-- `utf8_read_char`: the character and its length, or `InvalidArguments`. -/
def utf8ReadChar (s : Bytes) : Option (ℕ × ℕ) :=
  if utf8ValidateCz s = 0 then none
  else if byteAt s 0 ≤ 0x7F then some (byteAt s 0, 1)
  else if byteAt s 0 ≤ 0xDF then
    some ((byteAt s 0 &&& 0x1F) <<< 6 ||| (byteAt s 1 &&& 0x3F), 2)
  else if byteAt s 0 ≤ 0xEF then
    some ((byteAt s 0 &&& 0xF) <<< 12 ||| (byteAt s 1 &&& 0x3F) <<< 6 ||| (byteAt s 2 &&& 0x3F), 3)
  else
    some ((byteAt s 0 &&& 0x7) <<< 18 ||| (byteAt s 1 &&& 0x3F) <<< 12 |||
      (byteAt s 2 &&& 0x3F) <<< 6 ||| (byteAt s 3 &&& 0x3F), 4)

/-- `utf8_write_char`: the bytes, or `IndexOutOfBounds`. -/
def utf8WriteChar (unicode : ℕ) : Option Bytes :=
  if ¬(unicode ≤ 0x10FFFF ∧ ¬(unicode ≥ 0xD800 ∧ unicode ≤ 0xDFFF)) then none
  else if unicode ≤ 0x7F then some [unicode.toUInt8]
  else if unicode ≤ 0x7FF then
    some [(0xC0 ||| unicode >>> 6).toUInt8, (0x80 ||| (unicode &&& 0x3F)).toUInt8]
  else if unicode ≤ 0xFFFF then
    some [(0xE0 ||| unicode >>> 12).toUInt8, (0x80 ||| (unicode >>> 6 &&& 0x3F)).toUInt8,
      (0x80 ||| (unicode &&& 0x3F)).toUInt8]
  else
    some [(0xF0 ||| unicode >>> 18).toUInt8, (0x80 ||| (unicode >>> 12 &&& 0x3F)).toUInt8,
      (0x80 ||| (unicode >>> 6 &&& 0x3F)).toUInt8, (0x80 ||| (unicode &&& 0x3F)).toUInt8]

/-- `from_surrogate_pair` -/
def fromSurrogatePair (uc lc : ℕ) : Option ℕ :=
  if uc ≥ 0xD800 ∧ uc ≤ 0xDBFF ∧ lc ≥ 0xDC00 ∧ lc ≤ 0xDFFF then
    some (0x10000 + ((uc &&& 0x3FF) <<< 10 ||| (lc &&& 0x3FF)))
  else none

/-- `to_surrogate_pair`, or `IndexOutOfBounds`. -/
def toSurrogatePair (unicode : ℕ) : Option (ℕ × ℕ) :=
  if ¬(unicode ≥ 0x10000 ∧ unicode ≤ 0x10FFFF) then none
  else
    let n := unicode - 0x10000
    some ((n >>> 10 &&& 0x3FF) ||| 0xD800, (n &&& 0x3FF) ||| 0xDC00)

/-- The encoding of a text. -/
def encode (cs : List Char) : Bytes := cs.flatMap String.utf8EncodeChar

/-! ### Bits -/

/-- The check of a continuation byte. -/
theorem and_c0_eq_iff (c : UInt8) : c.toNat &&& 0xC0 = 0x80 ↔ 0x80 ≤ c.toNat ∧ c.toNat < 0xC0 := by
  revert c
  exact forall_byte (by decide +kernel)

theorem shiftLeft_or {a b : ℕ} (i : ℕ) (h : b < 2 ^ i) : a <<< i ||| b = a * 2 ^ i + b := by
  rw [← Nat.shiftLeft_add_eq_or_of_lt h, Nat.shiftLeft_eq]

theorem or_of_lt {b : ℕ} (a k i : ℕ) (ha : a = k * 2 ^ i) (h : b < 2 ^ i) : a ||| b = b + a := by
  rw [ha, ← Nat.shiftLeft_eq, ← Nat.shiftLeft_add_eq_or_of_lt h, Nat.add_comm]

theorem and_3f (n : ℕ) : n &&& 0x3F = n % 64 := Nat.and_two_pow_sub_one_eq_mod n 6

/-- A continuation byte. -/
theorem tail_eq (n : ℕ) : 0x80 ||| (n &&& 0x3F) = n % 64 + 0x80 := by
  rw [and_3f]
  exact or_of_lt 0x80 2 6 rfl (Nat.mod_lt n (by decide))

/-! ### Writing -/

/-- The numbers that are characters. -/
theorem isValidChar_iff (n : ℕ) :
    n.isValidChar ↔ n ≤ 0x10FFFF ∧ ¬(n ≥ 0xD800 ∧ n ≤ 0xDFFF) := by
  rw [Nat.isValidChar]
  omega

theorem toNat_valid (c : Char) : c.toNat ≤ 0x10FFFF ∧ ¬(c.toNat ≥ 0xD800 ∧ c.toNat ≤ 0xDFFF) :=
  (isValidChar_iff _).mp c.valid

/-- The encoding, without the remainders that change nothing. -/
theorem utf8EncodeChar_eq (c : Char) : String.utf8EncodeChar c =
    if c.toNat ≤ 0x7F then [c.toNat.toUInt8]
    else if c.toNat ≤ 0x7FF then
      [(c.toNat / 2 ^ 6 + 0xC0).toUInt8, (c.toNat % 64 + 0x80).toUInt8]
    else if c.toNat ≤ 0xFFFF then
      [(c.toNat / 2 ^ 12 + 0xE0).toUInt8, (c.toNat / 2 ^ 6 % 64 + 0x80).toUInt8,
        (c.toNat % 64 + 0x80).toUInt8]
    else
      [(c.toNat / 2 ^ 18 + 0xF0).toUInt8, (c.toNat / 2 ^ 12 % 64 + 0x80).toUInt8,
        (c.toNat / 2 ^ 6 % 64 + 0x80).toUInt8, (c.toNat % 64 + 0x80).toUInt8] := by
  have hvalid := toNat_valid c
  show (if c.toNat ≤ 0x7F then [c.toNat.toUInt8] else if c.toNat ≤ 0x7FF then
    [(c.toNat / 64 % 32 + 0xC0).toUInt8, _] else if c.toNat ≤ 0xFFFF then
      [(c.toNat / 4096 % 16 + 0xE0).toUInt8, _, _] else
      [(c.toNat / 262144 % 8 + 0xF0).toUInt8, _, _, _]) = _
  split_ifs with h1 h2 h3
  · rfl
  · rw [Nat.mod_eq_of_lt (by omega : c.toNat / 64 < 32)]
    rfl
  · rw [Nat.mod_eq_of_lt (by omega : c.toNat / 4096 < 16)]
    rfl
  · rw [Nat.mod_eq_of_lt (by omega : c.toNat / 262144 < 8)]
    rfl

/-- A character is written as it is encoded. -/
theorem utf8WriteChar_char (c : Char) : utf8WriteChar c.toNat = some (String.utf8EncodeChar c) := by
  have hvalid := toNat_valid c
  rw [utf8WriteChar, if_neg (not_not.mpr hvalid), utf8EncodeChar_eq]
  simp only [Nat.shiftRight_eq_div_pow, tail_eq]
  split_ifs with h1 h2 h3
  · rfl
  · rw [or_of_lt 0xC0 6 5 rfl (by omega)]
  · rw [or_of_lt 0xE0 14 4 rfl (by omega)]
  · rw [or_of_lt 0xF0 30 3 rfl (by omega)]

theorem utf8WriteChar_eq_none_iff (n : ℕ) : utf8WriteChar n = none ↔ ¬n.isValidChar := by
  rw [utf8WriteChar, isValidChar_iff]
  split_ifs with h <;> simp_all

/-! ### Checking -/

theorem byteAt_cons_zero (b : UInt8) (s : Bytes) : byteAt (b :: s) 0 = b.toNat := rfl

theorem byteAt_cons_succ (b : UInt8) (s : Bytes) (i : ℕ) : byteAt (b :: s) (i + 1) = byteAt s i :=
  rfl

/-- A continuation byte passes its check. -/
theorem and_c0_tail (n : ℕ) : (n % 64 + 0x80) % 2 ^ 8 &&& 0xC0 = 0x80 := by
  have hiff := and_c0_eq_iff (UInt8.ofNat (n % 64 + 0x80))
  rw [UInt8.toNat_ofNat'] at hiff
  exact hiff.mpr (by omega)

/-- The bytes of a character are checked through to the last. -/
theorem utf8ValidateCz_encode (c : Char) (t : Bytes) :
    utf8ValidateCz (String.utf8EncodeChar c ++ t) = (String.utf8EncodeChar c).length := by
  have hvalid := toNat_valid c
  rw [utf8EncodeChar_eq]
  split_ifs with h1 h2 h3
  all_goals
    rw [utf8ValidateCz]
    simp only [List.cons_append, List.nil_append, byteAt_cons_zero, byteAt_cons_succ,
      Nat.and_comm 0xC0, ne_eq, Nat.toUInt8_eq, UInt8.toNat_ofNat', and_c0_tail, not_true, if_false,
      List.length_cons, List.length_nil]
    repeat first | rw [if_pos (by omega)] | rw [if_neg (by omega)]

theorem exists_toNat_eq {n : ℕ} (h : n ≤ 0x10FFFF ∧ ¬(n ≥ 0xD800 ∧ n ≤ 0xDFFF)) :
    ∃ c : Char, c.toNat = n :=
  ⟨Char.ofNat n, by rw [Char.toNat_ofNat, if_pos ((isValidChar_iff n).mpr h)]⟩

/-- A byte that is not the zero behind a text stands in it. -/
theorem exists_cons_of_byteAt {s : Bytes} (h : byteAt s 0 ≠ 0) : ∃ b t, s = b :: t := by
  cases s with
  | nil => exact absurd rfl h
  | cons b t => exact ⟨b, t, rfl⟩

theorem toUInt8_eq_iff (b : UInt8) (n : ℕ) : n.toUInt8 = b ↔ n % 256 = b.toNat := by
  rw [← UInt8.toNat_inj, Nat.toUInt8_eq, UInt8.toNat_ofNat']

theorem ite_zero_ne {p : Prop} [Decidable p] {n : ℕ} :
    (if p then 0 else n) ≠ 0 ↔ ¬p ∧ n ≠ 0 := by
  split_ifs with hp <;> simp [hp]

/-- A continuation byte stands where one is found. -/
theorem exists_tail {s : Bytes} (h : byteAt s 0 &&& 0xC0 = 0x80) :
    ∃ d t, s = d :: t ∧ 0x80 ≤ d.toNat ∧ d.toNat < 0xC0 := by
  obtain ⟨d, t, rfl⟩ := exists_cons_of_byteAt (s := s) fun h0 => by simp [h0] at h
  exact ⟨d, t, rfl, (and_c0_eq_iff d).mp h⟩

/-- **What is taken for a character is one.** -/
theorem exists_char {b : UInt8} {s : Bytes} (h : utf8ValidateCz (b :: s) ≠ 0) :
    ∃ c t, b :: s = String.utf8EncodeChar c ++ t := by
  have hb := b.toNat_lt
  have hc : byteAt (b :: s) 0 = b.toNat := rfl
  unfold utf8ValidateCz at h
  extract_lets c at h
  by_cases h1 : c ≤ 0x7F
  · obtain ⟨u, hu⟩ := exists_toNat_eq (n := b.toNat) (by omega)
    refine ⟨u, s, ?_⟩
    rw [utf8EncodeChar_eq, if_pos (by omega), hu, List.cons_append, List.nil_append,
      (toUInt8_eq_iff b _).mpr (by omega)]
  rw [if_neg h1, ite_zero_ne] at h
  obtain ⟨h2, h⟩ := h
  by_cases h3 : c ≤ 0xDF
  · rw [if_pos h3, ite_zero_ne, not_not, Nat.and_comm] at h
    obtain ⟨d, t, rfl, hd, hd'⟩ := exists_tail (s := s) h.1
    obtain ⟨u, hu⟩ := exists_toNat_eq (n := (b.toNat - 0xC0) * 64 + (d.toNat - 0x80)) (by omega)
    refine ⟨u, t, ?_⟩
    rw [utf8EncodeChar_eq, if_neg (by omega), if_pos (by omega),
      (toUInt8_eq_iff b _).mpr (by omega), (toUInt8_eq_iff d _).mpr (by omega)]
    rfl
  rw [if_neg h3] at h
  by_cases h4 : c ≤ 0xEF
  · rw [if_pos h4, ite_zero_ne, ite_zero_ne, ite_zero_ne, ite_zero_ne, not_not, not_not] at h
    obtain ⟨he0, hed, htail, htail', -⟩ := h
    obtain ⟨d, t, rfl, hd, hd'⟩ := exists_tail (s := s) htail
    obtain ⟨e, t, rfl, he, he'⟩ := exists_tail (s := t) htail'
    have hc' : byteAt (b :: d :: e :: t) 1 = d.toNat := rfl
    obtain ⟨u, hu⟩ := exists_toNat_eq
      (n := (b.toNat - 0xE0) * 2 ^ 12 + (d.toNat - 0x80) * 64 + (e.toNat - 0x80)) (by omega)
    refine ⟨u, t, ?_⟩
    rw [utf8EncodeChar_eq, if_neg (by omega), if_neg (by omega), if_pos (by omega),
      (toUInt8_eq_iff b _).mpr (by omega), (toUInt8_eq_iff d _).mpr (by omega),
      (toUInt8_eq_iff e _).mpr (by omega)]
    rfl
  rw [if_neg h4] at h
  by_cases h5 : c ≤ 0xF4
  · rw [if_pos h5, ite_zero_ne, ite_zero_ne, ite_zero_ne, ite_zero_ne, ite_zero_ne, not_not,
      not_not, not_not] at h
    obtain ⟨hf0, hf4, htail, htail', htail'', -⟩ := h
    obtain ⟨d, t, rfl, hd, hd'⟩ := exists_tail (s := s) htail
    obtain ⟨e, t, rfl, he, he'⟩ := exists_tail (s := t) htail'
    obtain ⟨f, t, rfl, hf, hf'⟩ := exists_tail (s := t) htail''
    have hc' : byteAt (b :: d :: e :: f :: t) 1 = d.toNat := rfl
    obtain ⟨u, hu⟩ := exists_toNat_eq (n := (b.toNat - 0xF0) * 2 ^ 18 + (d.toNat - 0x80) * 2 ^ 12 +
      (e.toNat - 0x80) * 64 + (f.toNat - 0x80)) (by omega)
    refine ⟨u, t, ?_⟩
    rw [utf8EncodeChar_eq, if_neg (by omega), if_neg (by omega), if_neg (by omega),
      (toUInt8_eq_iff b _).mpr (by omega), (toUInt8_eq_iff d _).mpr (by omega),
      (toUInt8_eq_iff e _).mpr (by omega), (toUInt8_eq_iff f _).mpr (by omega)]
    rfl
  · rw [if_neg h5] at h
    exact absurd rfl h

/-! ### Reading -/

/-- A character is read back from its bytes. -/
theorem utf8ReadChar_encode (c : Char) (t : Bytes) :
    utf8ReadChar (String.utf8EncodeChar c ++ t) =
      some (c.toNat, (String.utf8EncodeChar c).length) := by
  have hvalid := toNat_valid c
  have hne : utf8ValidateCz (String.utf8EncodeChar c ++ t) ≠ 0 := by
    rw [utf8ValidateCz_encode]
    exact (List.length_pos_of_ne_nil String.utf8EncodeChar_ne_nil).ne'
  rw [utf8ReadChar, if_neg hne]
  have hmod : ∀ n, n &&& 0x1F = n % 2 ^ 5 ∧ n &&& 0xF = n % 2 ^ 4 ∧ n &&& 0x7 = n % 2 ^ 3 :=
    fun n => ⟨Nat.and_two_pow_sub_one_eq_mod n 5, Nat.and_two_pow_sub_one_eq_mod n 4,
      Nat.and_two_pow_sub_one_eq_mod n 3⟩
  have henc := utf8EncodeChar_eq c
  split_ifs at henc with h1 h2 h3
  all_goals
    simp only [henc, List.cons_append, List.nil_append, byteAt_cons_zero, byteAt_cons_succ,
      Nat.toUInt8_eq, UInt8.toNat_ofNat', and_3f, hmod, List.length_cons, List.length_nil]
    repeat first | rw [if_pos (by omega)] | rw [if_neg (by omega)]
  · rw [Nat.mod_eq_of_lt (by omega)]
  · rw [shiftLeft_or 6 (by omega)]
    congr 2
    omega
  · rw [Nat.or_assoc, shiftLeft_or 6 (by omega), shiftLeft_or 12 (by omega)]
    congr 2
    omega
  · rw [Nat.or_assoc, Nat.or_assoc, shiftLeft_or 6 (by omega), shiftLeft_or 12 (by omega),
      shiftLeft_or 18 (by omega)]
    congr 2
    omega

/-! ### Whole texts -/

theorem encode_cons (c : Char) (cs : List Char) :
    encode (c :: cs) = String.utf8EncodeChar c ++ encode cs := List.flatMap_cons

/-- The bytes of a character. -/
theorem mem_utf8EncodeChar {c : Char} {b : UInt8} (h : b ∈ String.utf8EncodeChar c) :
    b.toNat = c.toNat ∧ c.toNat ≤ 0x7F ∨ 0x7F < b.toNat ∧ 0x7F < c.toNat := by
  have hvalid := toNat_valid c
  rw [utf8EncodeChar_eq] at h
  split_ifs at h with h1 h2 h3
  all_goals
    simp only [List.mem_cons, List.not_mem_nil, or_false] at h
    rcases h with rfl | rfl | rfl | rfl <;> rw [Nat.toUInt8_eq, UInt8.toNat_ofNat'] <;> omega

/-- The zero byte is the encoding of the zero character, and of nothing else. -/
theorem atEnd_encode (c : Char) (t : Bytes) :
    atEnd (String.utf8EncodeChar c ++ t) = decide (c.toNat = 0) := by
  have hvalid := toNat_valid c
  rw [atEnd, utf8EncodeChar_eq]
  split_ifs with h1 h2 h3
  all_goals
    rw [decide_eq_decide]
    simp only [List.cons_append, List.nil_append, byteAt_cons_zero, Nat.toUInt8_eq,
      UInt8.toNat_ofNat']
    omega

/-- The zero character is a zero byte. -/
theorem zero_mem_encode {c : Char} {cs : List Char} (hc : c ∈ cs) (h : c.toNat = 0) :
    0 ∈ encode cs := by
  refine List.mem_flatMap.mpr ⟨c, hc, ?_⟩
  rw [utf8EncodeChar_eq, if_pos (by omega), h]
  exact List.mem_singleton.mpr rfl

/-- The end of a text without zeros. -/
theorem atEnd_eq_true {s t : Bytes} (hs : 0 ∉ s ++ t) (h : atEnd t = true) : t = [] := by
  cases t with
  | nil => rfl
  | cons b t =>
    have hb : b = 0 := UInt8.toNat_inj.mp (of_decide_eq_true h)
    exact absurd (by simp [hb]) hs

theorem splitAt_encode (c : Char) (t : Bytes) :
    (String.utf8EncodeChar c ++ t).splitAt (utf8ValidateCz (String.utf8EncodeChar c ++ t)) =
      (String.utf8EncodeChar c, t) := by
  rw [utf8ValidateCz_encode, List.splitAt_eq, List.take_left, List.drop_left]

/-- The loop reads the characters that are not zero. -/
theorem reads_validateTurn : Reads atEnd validateTurn fun w b =>
    ∃ c : Char, (c.toNat ≠ 0 ∧ w = String.utf8EncodeChar c) ∧ b = String.utf8EncodeChar c where
  turn_iff := by
    intro s b t hs
    constructor
    · intro h
      obtain ⟨x, s, rfl⟩ := exists_cons_of_byteAt (s := s) (by simpa [atEnd] using hs)
      rw [validateTurn] at h
      split_ifs at h with hzero
      obtain ⟨c, u, hu⟩ := exists_char hzero
      rw [hu, splitAt_encode, Option.some.injEq, Prod.mk.injEq] at h
      obtain ⟨rfl, rfl⟩ := h
      rw [hu, atEnd_encode] at hs
      exact ⟨_, ⟨c, ⟨of_decide_eq_false hs, rfl⟩, rfl⟩, hu⟩
    · rintro ⟨w, ⟨c, ⟨-, rfl⟩, rfl⟩, rfl⟩
      have hne : utf8ValidateCz (String.utf8EncodeChar c ++ t) ≠ 0 := by
        rw [utf8ValidateCz_encode]
        exact (List.length_pos_of_ne_nil String.utf8EncodeChar_ne_nil).ne'
      rw [validateTurn, if_neg hne, splitAt_encode]
  ne_nil := by
    rintro w b ⟨c, ⟨-, rfl⟩, -⟩
    exact String.utf8EncodeChar_ne_nil
  not_stop := by
    rintro w b t ⟨c, ⟨hc, rfl⟩, -⟩
    rw [atEnd_encode]
    exact decide_eq_false hc

/-- **A text is valid when it is characters**, one behind the other, up to the zero. -/
theorem utf8Validate_iff (s : Bytes) : utf8Validate s = true ↔ ∃ (cs : List Char) (t : Bytes),
    (∀ c ∈ cs, c.toNat ≠ 0) ∧ s = encode cs ++ t ∧ atEnd t = true := by
  rw [utf8Validate, Option.isSome_iff_exists, Prod.exists]
  constructor
  · rintro ⟨bs, t, h⟩
    obtain ⟨ws, hws, rfl, ht⟩ := (turns_iff reads_validateTurn (Nat.lt_succ_self _)).mp h
    obtain ⟨cs, hcs, -⟩ := forall₂_map_iff.mp hws
    obtain ⟨hne, rfl⟩ := forall₂_and_eq_iff.mp hcs
    exact ⟨cs, t, hne, by rw [encode, List.flatMap_def], ht⟩
  · rintro ⟨cs, t, hne, rfl, ht⟩
    exact ⟨_, t, (turns_iff reads_validateTurn (Nat.lt_succ_self _)).mpr
      ⟨cs.map String.utf8EncodeChar,
        forall₂_map_iff.mpr ⟨cs, forall₂_and_eq_iff.mpr ⟨hne, rfl⟩, rfl⟩,
        by rw [encode, List.flatMap_def], ht⟩⟩

/-- The same for a text without zeros. -/
theorem utf8Validate_of_zero_free {s : Bytes} (hs : 0 ∉ s) :
    utf8Validate s = true ↔ ∃ cs, s = encode cs := by
  rw [utf8Validate_iff]
  constructor
  · rintro ⟨cs, t, -, rfl, ht⟩
    refine ⟨cs, ?_⟩
    rw [atEnd_eq_true hs ht, List.append_nil]
  · rintro ⟨cs, rfl⟩
    exact ⟨cs, [], fun c hc h0 => hs (zero_mem_encode hc h0), by simp, rfl⟩

/-! ### Surrogate pairs -/

theorem and_3ff (n : ℕ) : n &&& 0x3FF = n % 2 ^ 10 := Nat.and_two_pow_sub_one_eq_mod n 10

/-- What two halves are taken for. -/
theorem fromSurrogatePair_eq_some_iff (uc lc n : ℕ) : fromSurrogatePair uc lc = some n ↔
    (0xD800 ≤ uc ∧ uc ≤ 0xDBFF ∧ 0xDC00 ≤ lc ∧ lc ≤ 0xDFFF) ∧
      n = 0x10000 + (uc - 0xD800) * 2 ^ 10 + (lc - 0xDC00) := by
  rw [fromSurrogatePair, and_3ff, and_3ff, shiftLeft_or 10 (Nat.mod_lt _ (by decide))]
  split_ifs with h
  · rw [Option.some.injEq]
    omega
  · exact iff_of_false (by simp) fun hn => h hn.1

/-- A character beyond the first plane is put together again from its halves. -/
theorem fromSurrogatePair_toSurrogatePair (n uc lc : ℕ) :
    toSurrogatePair n = some (uc, lc) ↔ fromSurrogatePair uc lc = some n := by
  rw [fromSurrogatePair_eq_some_iff, toSurrogatePair]
  by_cases h : n ≥ 0x10000 ∧ n ≤ 0x10FFFF
  · rw [if_neg (not_not.mpr h)]
    dsimp only
    rw [and_3ff, and_3ff, Nat.shiftRight_eq_div_pow, Nat.or_comm,
      or_of_lt 0xD800 54 10 rfl (Nat.mod_lt _ (by decide)), Nat.or_comm,
      or_of_lt 0xDC00 55 10 rfl (Nat.mod_lt _ (by decide)), Option.some.injEq, Prod.mk.injEq]
    omega
  · rw [if_pos h]
    refine iff_of_false (by simp) ?_
    omega

/-! ### All of it -/

/-- **The characters**: the texts without a zero that are valid are the encoded ones; a number is
written when it is a character, as it is encoded, and is read back; the two halves of a number
are the ones that it is put together from. -/
theorem utf8_iff :
    (∀ s : Bytes, 0 ∉ s → (utf8Validate s = true ↔ ∃ cs, s = encode cs)) ∧
    (∀ n, utf8WriteChar n = none ↔ ¬n.isValidChar) ∧
    (∀ (c : Char) (t : Bytes), utf8WriteChar c.toNat = some (String.utf8EncodeChar c) ∧
      utf8ReadChar (String.utf8EncodeChar c ++ t) =
        some (c.toNat, (String.utf8EncodeChar c).length)) ∧
    ∀ n uc lc, toSurrogatePair n = some (uc, lc) ↔ fromSurrogatePair uc lc = some n := by
  exact ⟨fun s => utf8Validate_of_zero_free, utf8WriteChar_eq_none_iff, fun c t =>
    ⟨utf8WriteChar_char c, utf8ReadChar_encode c t⟩, fromSurrogatePair_toSurrogatePair⟩

end Suil.Utf8
