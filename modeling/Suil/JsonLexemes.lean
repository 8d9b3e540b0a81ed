/-
The pieces of a JSON text.

`parse_string` reads a string between quotes, with its escapes and surrogate pairs, and checks that
it is UTF-8; `parse_number` looks for the end of a number and leaves its value to `strtod`.  The
grammar says what strings (`Quoted`) and numbers (`Numeral`) are.

* `reads_parseChar` — one turn of the loop in `parse_string` reads one character as it is spelled;
* `parseString_iff` — which strings are read, and as what;
* `numberEnd_iff` — which numbers are read, when no part of a number stands behind;
* `Quoted.printable`, `Numeral.printable` — none of them has a control character in it.
-/
import Suil.Json
import Suil.Utf8

open Scanning Suil.Utf8

namespace Suil.JsonDecode

/-! ### The functions -/

/-- `is_space` -/
def isBlank (c : UInt8) : Bool := c = 9 ∨ c = 10 ∨ c = 13 ∨ c = 32

/-- `skip_space` -/
def skipSpace (s : Bytes) : Bytes := s.dropWhile isBlank

/-- `expect_literal` -/
def expectLiteral : Bytes → Bytes → Option Bytes
  | [], s => some s
  | _ :: _, [] => none
  | d :: str, c :: s => if c ≠ d then none else expectLiteral str s

/-- A hexadecimal digit of `parse_hex16`. -/
def hex16Digit (c : UInt8) : Option ℕ :=
  if 48 ≤ c ∧ c ≤ 57 then some (c.toNat - 48)
  else if 65 ≤ c ∧ c ≤ 70 then some (c.toNat - 65 + 10)
  else if 97 ≤ c ∧ c ≤ 102 then some (c.toNat - 97 + 10)
  else none

/-- The loop of `parse_hex16`, with the digits that are left and what has been read. -/
def parseHex : ℕ → ℕ → Bytes → Option (ℕ × Bytes)
  | 0, ret, s => some (ret, s)
  | _ + 1, _, [] => none
  | i + 1, ret, c :: s => (hex16Digit c).bind fun tmp => parseHex i ((ret <<< 4) % 2 ^ 16 + tmp) s

/-- `parse_hex16` -/
def parseHex16 (s : Bytes) : Option (ℕ × Bytes) := parseHex 4 0 s

/-- The escape with a `u`. -/
def parseUnicode (s : Bytes) : Option (Bytes × Bytes) :=
  (parseHex16 s).bind fun (uc, s) =>
    if uc ≥ 0xD800 ∧ uc ≤ 0xDFFF then
      match s with
      | 92 :: 117 :: s =>
        (parseHex16 s).bind fun (lc, s) =>
          (fromSurrogatePair uc lc).bind fun unicode => (utf8WriteChar unicode).map fun b => (b, s)
      | _ => none
    else if uc = 0 then none
    else (utf8WriteChar uc).map fun b => (b, s)

/-- What stands behind a backslash for one byte. -/
def shortEscape (c : UInt8) : Option UInt8 :=
  if c = 34 ∨ c = 92 ∨ c = 47 then some c
  else if c = 98 then some 8
  else if c = 102 then some 12
  else if c = 110 then some 10
  else if c = 114 then some 13
  else if c = 116 then some 9
  else none

/-- The escapes; the zero behind the text is none. -/
def parseEscape : Bytes → Option (Bytes × Bytes)
  | [] => none
  | c :: s => if c = 117 then parseUnicode s else (shortEscape c).map fun b => ([b], s)

/-- The body of the loop in `parse_string`: what is written, and where it goes on.  The zero behind
the text is a control character. -/
def parseChar : Bytes → Option (Bytes × Bytes)
  | [] => none
  | c :: s =>
    if c = 92 then parseEscape s
    else if c ≤ 0x1F then none
    else if utf8ValidateCz (c :: s) = 0 then none
    else some ((c :: s).splitAt (utf8ValidateCz (c :: s)))

/-- `*s == '"'` -/
def atQuote (s : Bytes) : Bool := s.head? = some 34

/-- The C string at the beginning of a buffer. -/
def bufferString (b : Bytes) : CString :=
  ⟨b.takeWhile (· ≠ 0), not_mem_takeWhile 0 b⟩

/-- `parse_string` -/
def parseString : Bytes → Option (CString × Bytes)
  | 34 :: s =>
    (turns atQuote parseChar (s.length + 1) s).map fun p => (bufferString p.1.flatten, p.2.tail)
  | _ => none

/-- One digit or more. -/
def digits : Bytes → Option Bytes
  | [] => none
  | c :: s => if isDigit c then some (s.dropWhile isDigit) else none

/-- `'-'?` -/
def skipMinus (s : Bytes) : Bytes := if s.head? = some 45 then s.tail else s

/-- `(0 | [1-9][0-9]*)` -/
def wholePart (s : Bytes) : Option Bytes := if s.head? = some 48 then some s.tail else digits s

/-- `('.' [0-9]+)?` -/
def fractionPart (s : Bytes) : Option Bytes :=
  if s.head? = some 46 then digits s.tail else some s

/-- `[+-]?` -/
def skipSign (s : Bytes) : Bytes :=
  if s.head? = some 43 ∨ s.head? = some 45 then s.tail else s

/-- `([Ee] [+-]? [0-9]+)?` -/
def exponentPart (s : Bytes) : Option Bytes :=
  if s.head? = some 69 ∨ s.head? = some 101 then digits (skipSign s.tail) else some s

/-- The end of the number that a text begins with. -/
def numberEnd (s : Bytes) : Option Bytes :=
  (wholePart (skipMinus s)).bind fun s => (fractionPart s).bind exponentPart

/-- `parse_number`; `strtod` looks at all of the text, too. -/
def parseNumber {N : Type} (strtod : Bytes → N) (s : Bytes) : Option (N × Bytes) :=
  (numberEnd s).map fun r => (strtod s, r)

/-! ### The grammar -/

/-- Four hexadecimal digits. -/
inductive Hex16 : Bytes → ℕ → Prop
  | mk {a b c d : UInt8} {w x y z : ℕ} (ha : hex16Digit a = some w) (hb : hex16Digit b = some x)
    (hc : hex16Digit c = some y) (hd : hex16Digit d = some z) :
    Hex16 [a, b, c, d] (w * 16 ^ 3 + x * 16 ^ 2 + y * 16 + z)

/-- What stands behind a backslash and a `u`: a character of the first plane, or the two halves of
another one. -/
inductive UnicodeEscape : Bytes → Char → Prop
  | unit {d : Bytes} {c : Char} (hd : Hex16 d c.toNat) (hzero : c.toNat ≠ 0) : UnicodeEscape d c
  | pair {d e : Bytes} {uc lc : ℕ} {c : Char} (hd : Hex16 d uc) (he : Hex16 e lc)
    (hc : fromSurrogatePair uc lc = some c.toNat) : UnicodeEscape (d ++ 92 :: 117 :: e) c

/-- How a character may be spelled in a string. -/
inductive Spelled : Bytes → Char → Prop
  | plain {c : Char} (hcontrol : 0x20 ≤ c.toNat) (hquote : c.toNat ≠ 34) (hescape : c.toNat ≠ 92) :
    Spelled (String.utf8EncodeChar c) c
  | short {e b : UInt8} {c : Char} (he : shortEscape e = some b) (hc : c.toNat = b.toNat) :
    Spelled [92, e] c
  | unicode {w : Bytes} {c : Char} (hw : UnicodeEscape w c) : Spelled (92 :: 117 :: w) c

/-- A string between quotes. -/
def Quoted (w : Bytes) (str : CString) : Prop :=
  ∃ ws cs, List.Forall₂ Spelled ws cs ∧ w = 34 :: (ws.flatten ++ [34]) ∧ str.bytes = encode cs

/-- One digit or more. -/
def Digits (w : Bytes) : Prop := w ≠ [] ∧ ∀ c ∈ w, isDigit c = true

/-- A number as the standard spells it. -/
inductive Numeral : Bytes → Prop
  | mk {minus whole fraction exponent : Bytes} (hminus : minus = [] ∨ minus = [45])
    (hwhole : whole = [48] ∨ Digits whole ∧ whole.head? ≠ some 48)
    (hfraction : fraction = [] ∨ ∃ d, Digits d ∧ fraction = 46 :: d)
    (hexponent : exponent = [] ∨ ∃ e sign d, (e = 69 ∨ e = 101) ∧
      (sign = [] ∨ sign = [43] ∨ sign = [45]) ∧ Digits d ∧ exponent = e :: (sign ++ d)) :
    Numeral (minus ++ (whole ++ (fraction ++ exponent)))

/-- No part of a number begins a text. -/
def EndsNumber (r : Bytes) : Prop :=
  ∀ c ∈ r.head?, isDigit c = false ∧ c ≠ 46 ∧ c ≠ 69 ∧ c ≠ 101

variable {s r t w d : Bytes} {n : ℕ} {c : Char}

/-! ### Characters -/

theorem hex16Digit_spec (c : UInt8) : ∀ n ∈ hex16Digit c, n < 16 ∧ 0x20 ≤ c := by
  revert c
  exact forall_byte (by decide +kernel)

/-- **Four digits are read**, whatever stands behind them. -/
theorem parseHex16_iff : parseHex16 s = some (n, r) ↔ ∃ w, Hex16 w n ∧ s = w ++ r := by
  have hdigit : ∀ i ret s, parseHex (i + 1) ret s = some (n, r) ↔
      ∃ c t x, hex16Digit c = some x ∧ s = c :: t ∧
        parseHex i ((ret <<< 4) % 2 ^ 16 + x) t = some (n, r) := by
    intro i ret s
    cases s with
    | nil => exact iff_of_false (fun h => by cases h) (by simp)
    | cons c t =>
      rw [parseHex, Option.bind_eq_some_iff]
      constructor
      · rintro ⟨x, hx, h⟩
        exact ⟨c, t, x, hx, rfl, h⟩
      · rintro ⟨_, _, x, hx, heq, h⟩
        obtain ⟨rfl, rfl⟩ := List.cons.inj heq
        exact ⟨x, hx, h⟩
  -- the number fits, so that no digit is shifted out
  have hvalue : ∀ w x y z : ℕ, w < 16 → x < 16 → y < 16 →
      (((((0 <<< 4) % 2 ^ 16 + w) <<< 4) % 2 ^ 16 + x) <<< 4 % 2 ^ 16 + y) <<< 4 % 2 ^ 16 + z =
        w * 16 ^ 3 + x * 16 ^ 2 + y * 16 + z := by
    intro w x y z hw hx hy
    simp only [Nat.shiftLeft_eq]
    omega
  rw [parseHex16]
  constructor
  · intro h
    obtain ⟨a, s1, w, ha, rfl, h1⟩ := (hdigit _ _ _).mp h
    obtain ⟨b, s2, x, hb, rfl, h2⟩ := (hdigit _ _ _).mp h1
    obtain ⟨c, s3, y, hc, rfl, h3⟩ := (hdigit _ _ _).mp h2
    obtain ⟨d, s4, z, hd, rfl, h4⟩ := (hdigit _ _ _).mp h3
    rw [parseHex, Option.some.injEq, Prod.mk.injEq,
      hvalue w x y z (hex16Digit_spec a w ha).1 (hex16Digit_spec b x hb).1
        (hex16Digit_spec c y hc).1] at h4
    obtain ⟨rfl, rfl⟩ := h4
    exact ⟨[a, b, c, d], .mk ha hb hc hd, rfl⟩
  · rintro ⟨_, hw, rfl⟩
    cases hw with
    | @mk a b c d w x y z ha hb hc hd =>
      refine (hdigit _ _ _).mpr ⟨a, _, w, ha, rfl, (hdigit _ _ _).mpr ⟨b, _, x, hb, rfl,
        (hdigit _ _ _).mpr ⟨c, _, y, hc, rfl, (hdigit _ _ _).mpr ⟨d, _, z, hd, rfl, ?_⟩⟩⟩⟩
      rw [parseHex, hvalue w x y z (hex16Digit_spec a w ha).1 (hex16Digit_spec b x hb).1
        (hex16Digit_spec c y hc).1]
      rfl

theorem Hex16.lt (h : Hex16 d n) : n < 2 ^ 16 := by
  cases h with
  | @mk a b c d w x y z ha hb hc hd =>
    have hw := (hex16Digit_spec a w ha).1
    have hx := (hex16Digit_spec b x hb).1
    have hy := (hex16Digit_spec c y hc).1
    have hz := (hex16Digit_spec d z hd).1
    omega

/-- What is put together from two halves is a character. -/
theorem exists_char_of_pair {uc lc : ℕ} (h : fromSurrogatePair uc lc = some n) :
    ∃ c : Char, c.toNat = n := by
  obtain ⟨hrange, hn⟩ := (fromSurrogatePair_eq_some_iff uc lc n).mp h
  exact exists_toNat_eq (by omega)

/-- **The escape with a `u`.** -/
theorem parseUnicode_iff {b : Bytes} : parseUnicode s = some (b, r) ↔
    ∃ c w, UnicodeEscape w c ∧ b = String.utf8EncodeChar c ∧ s = w ++ r := by
  rw [parseUnicode, Option.bind_eq_some_iff]
  constructor
  · rintro ⟨⟨uc, t⟩, huc, h⟩
    obtain ⟨d, hd, rfl⟩ := parseHex16_iff.mp huc
    dsimp only at h
    split_ifs at h with hpair hzero
    · split at h
      · obtain ⟨⟨lc, u⟩, hlc, hchar⟩ := Option.bind_eq_some_iff.mp h
        obtain ⟨e, he, rfl⟩ := parseHex16_iff.mp hlc
        obtain ⟨unicode, hu, hout⟩ := Option.bind_eq_some_iff.mp hchar
        obtain ⟨c, rfl⟩ := exists_char_of_pair hu
        rw [utf8WriteChar_char] at hout
        obtain ⟨rfl, rfl⟩ := Prod.mk.inj (Option.some.inj hout)
        exact ⟨c, _, .pair hd he hu, rfl, by simp⟩
      · cases h
    · have hlt := hd.lt
      obtain ⟨c, rfl⟩ := exists_toNat_eq (n := uc) (by omega)
      rw [utf8WriteChar_char] at h
      obtain ⟨rfl, rfl⟩ := Prod.mk.inj (Option.some.inj h)
      exact ⟨c, d, .unit hd hzero, rfl, rfl⟩
  · rintro ⟨c, w, hw, rfl, rfl⟩
    cases hw with
    | unit hd hzero =>
      have hvalid := toNat_valid c
      refine ⟨(c.toNat, r), parseHex16_iff.mpr ⟨w, hd, rfl⟩, ?_⟩
      dsimp only
      rw [if_neg hvalid.2, if_neg hzero, utf8WriteChar_char]
      rfl
    | @pair d e uc lc _ hd he hc =>
      have hrange := ((fromSurrogatePair_eq_some_iff _ _ _).mp hc).1
      refine ⟨(uc, 92 :: 117 :: (e ++ r)), parseHex16_iff.mpr ⟨d, hd, by simp⟩, ?_⟩
      dsimp only
      rw [if_pos (by omega)]
      show (parseHex16 (e ++ r)).bind _ = _
      rw [parseHex16_iff.mpr ⟨e, he, rfl⟩, Option.bind_some]
      dsimp only
      rw [hc, Option.bind_some, utf8WriteChar_char]
      rfl

/-- The first byte of a character. -/
theorem utf8EncodeChar_head (c : Char) : ∃ b t, String.utf8EncodeChar c = b :: t ∧
    (c.toNat ≤ 0x7F → b.toNat = c.toNat ∧ t = []) ∧ (0x7F < c.toNat → 0x7F < b.toNat) := by
  have hvalid := toNat_valid c
  rw [utf8EncodeChar_eq]
  split_ifs with h1 h2 h3
  · refine ⟨_, _, rfl, fun _ => ⟨?_, rfl⟩, fun h => absurd h1 (by omega)⟩
    rw [Nat.toUInt8_eq, UInt8.toNat_ofNat']
    omega
  all_goals
    refine ⟨_, _, rfl, fun h => absurd h (by omega), fun _ => ?_⟩
    rw [Nat.toUInt8_eq, UInt8.toNat_ofNat']
    omega

/-- A short escape stands for a character of one byte. -/
theorem shortEscape_spec {e b : UInt8} (h : shortEscape e = some b) :
    b.toNat ≤ 0x7F ∧ b ≠ 0 ∧ 0x20 ≤ e ∧ e ≠ 117 := by
  rw [shortEscape] at h
  split_ifs at h with h1 h2 h3 h4 h5 h6
  · obtain rfl := Option.some.inj h
    rcases h1 with rfl | rfl | rfl <;> decide
  all_goals
    obtain rfl := Option.some.inj h
    subst e
    decide

theorem utf8EncodeChar_of_byte {b : UInt8} (hb : b.toNat ≤ 0x7F) (hc : c.toNat = b.toNat) :
    String.utf8EncodeChar c = [b] := by
  rw [utf8EncodeChar_eq, if_pos (by omega), hc, (toUInt8_eq_iff b _).mpr (by omega)]

/-- Which characters are echoed, by their first byte. -/
theorem plain_iff {x : UInt8} {v : Bytes} (hv : String.utf8EncodeChar c = x :: v) :
    (0x20 ≤ c.toNat ∧ c.toNat ≠ 34 ∧ c.toNat ≠ 92) ↔ ¬x ≤ 0x1F ∧ x ≠ 34 ∧ x ≠ 92 := by
  obtain ⟨y, u, hu, hlow, hhigh⟩ := utf8EncodeChar_head c
  obtain ⟨rfl, rfl⟩ := List.cons.inj (hu.symm.trans hv)
  rw [UInt8.le_iff_toNat_le, ne_eq y, ← UInt8.toNat_inj, ne_eq y, ← UInt8.toNat_inj]
  show _ ↔ ¬y.toNat ≤ 0x1F ∧ ¬y.toNat = 34 ∧ ¬y.toNat = 92
  by_cases h : c.toNat ≤ 0x7F
  · rw [(hlow h).1]
    omega
  · have hy := hhigh (by omega)
    omega

/-- **One turn reads one character**, as it is spelled. -/
theorem reads_parseChar :
    Reads atQuote parseChar fun w b => ∃ c, Spelled w c ∧ b = String.utf8EncodeChar c where
  turn_iff := by
    intro s b t hs
    constructor
    · intro h
      rcases s with _ | ⟨x, s⟩
      · cases h
      rw [parseChar] at h
      split_ifs at h with hesc hctl hcz
      · subst hesc
        rcases s with _ | ⟨e, s⟩
        · cases h
        rw [parseEscape] at h
        split_ifs at h with he
        · obtain ⟨c, w, hw, rfl, rfl⟩ := parseUnicode_iff.mp h
          exact ⟨92 :: 117 :: w, ⟨c, .unicode hw, rfl⟩, by rw [he]; rfl⟩
        · obtain ⟨y, hy, hout⟩ := Option.map_eq_some_iff.mp h
          obtain ⟨rfl, rfl⟩ := Prod.mk.inj hout
          obtain ⟨hlow, -⟩ := shortEscape_spec hy
          obtain ⟨c, hc⟩ := exists_toNat_eq (n := y.toNat) (by omega)
          exact ⟨[92, e], ⟨c, .short hy hc, (utf8EncodeChar_of_byte hlow hc).symm⟩, rfl⟩
      · obtain ⟨c, u, hu⟩ := exists_char hcz
        rw [hu, splitAt_encode] at h
        obtain ⟨rfl, rfl⟩ := Prod.mk.inj (Option.some.inj h)
        obtain ⟨y, v, hv, -⟩ := utf8EncodeChar_head c
        have hxy : x = y := by
          rw [hv] at hu
          exact (List.cons.inj hu).1
        have hquote : x ≠ 34 := by simpa [atQuote] using hs
        obtain ⟨hlow, hq, he⟩ := (plain_iff (hxy ▸ hv)).mpr ⟨hctl, hquote, hesc⟩
        exact ⟨_, ⟨c, .plain hlow hq he, rfl⟩, hu⟩
    · rintro ⟨_, ⟨c, hw, rfl⟩, rfl⟩
      cases hw with
      | plain hctl hquote hesc =>
        obtain ⟨x, v, hv, -⟩ := utf8EncodeChar_head c
        obtain ⟨hlow, -, he⟩ := (plain_iff hv).mp ⟨hctl, hquote, hesc⟩
        have hne : utf8ValidateCz (x :: (v ++ t)) ≠ 0 := by
          rw [← List.cons_append, ← hv, utf8ValidateCz_encode]
          exact (List.length_pos_of_ne_nil String.utf8EncodeChar_ne_nil).ne'
        rw [hv, List.cons_append, parseChar, if_neg he, if_neg hlow, if_neg hne, ← List.cons_append,
          ← hv, splitAt_encode]
      | @short e b c he hc =>
        obtain ⟨hlow, -, -, hu⟩ := shortEscape_spec he
        show parseEscape (e :: t) = _
        rw [parseEscape, if_neg hu, he, utf8EncodeChar_of_byte hlow hc]
        rfl
      | @unicode w c hw =>
        show parseEscape (117 :: (w ++ t)) = _
        rw [parseEscape, if_pos rfl, parseUnicode_iff.mpr ⟨c, w, hw, rfl, rfl⟩]
  ne_nil := by
    rintro w b ⟨c, hw, -⟩
    cases hw with
    | plain _ _ _ => exact String.utf8EncodeChar_ne_nil
    | short _ _ => exact List.cons_ne_nil _ _
    | unicode _ => exact List.cons_ne_nil _ _
  not_stop := by
    rintro w b t ⟨c, hw, -⟩
    cases hw with
    | plain hctl hquote hesc =>
      obtain ⟨x, u, hu, -⟩ := utf8EncodeChar_head c
      have hne := ((plain_iff hu).mp ⟨hctl, hquote, hesc⟩).2.1
      rw [hu]
      exact decide_eq_false fun h => hne (Option.some.inj h)
    | short _ _ => rfl
    | unicode _ => rfl

/-! ### Strings -/

theorem Spelled.ne_zero (h : Spelled w c) : c.toNat ≠ 0 := by
  cases h with
  | plain hctl _ _ => omega
  | @short e b _ he hc =>
    obtain ⟨-, hb, -, -⟩ := shortEscape_spec he
    rw [hc]
    exact fun h0 => hb (UInt8.toNat_inj.mp h0)
  | unicode hw =>
    cases hw with
    | unit _ hzero => exact hzero
    | pair _ _ hc =>
      have hval := ((fromSurrogatePair_eq_some_iff _ _ _).mp hc).2
      omega

/-- The strings have no zero in them. -/
theorem zero_not_mem_encode {ws : List Bytes} {cs : List Char} (h : List.Forall₂ Spelled ws cs) :
    0 ∉ encode cs := by
  induction h with
  | nil => exact List.not_mem_nil
  | @cons w c ws cs hw _ ih =>
    rw [encode_cons, List.mem_append, not_or]
    refine ⟨fun h0 => ?_, ih⟩
    have hne := hw.ne_zero
    rcases mem_utf8EncodeChar h0 with ⟨hz, -⟩ | ⟨hz, -⟩
    · exact hne hz.symm
    · exact absurd hz (by decide)

theorem cstring_ext {a b : CString} (h : a.bytes = b.bytes) : a = b := by
  cases a
  cases b
  cases h
  rfl

/-- The string in the buffer is what has been written. -/
theorem bufferString_bytes {ws : List Bytes} {cs : List Char} (h : List.Forall₂ Spelled ws cs) :
    (bufferString (cs.map String.utf8EncodeChar).flatten).bytes = encode cs := by
  show List.takeWhile _ _ = _
  rw [← List.flatMap_def]
  exact takeWhile_of_not_mem (zero_not_mem_encode h)

/-- **Which strings are read, and as what.** -/
theorem parseString_iff {str : CString} :
    parseString s = some (str, r) ↔ ∃ w, Quoted w str ∧ s = w ++ r := by
  have hloop : ∀ {t bs u}, turns atQuote parseChar (t.length + 1) t = some (bs, u) ↔
      ∃ ws cs, List.Forall₂ Spelled ws cs ∧ bs = cs.map String.utf8EncodeChar ∧
        t = ws.flatten ++ u ∧ atQuote u = true := by
    intro t bs u
    rw [turns_iff reads_parseChar (Nat.lt_succ_self _)]
    constructor
    · rintro ⟨ws, hws, rfl, hu⟩
      obtain ⟨cs, hcs, rfl⟩ := forall₂_map_iff.mp hws
      exact ⟨ws, cs, hcs, rfl, rfl, hu⟩
    · rintro ⟨ws, cs, hcs, rfl, rfl, hu⟩
      exact ⟨ws, forall₂_map_iff.mpr ⟨cs, hcs, rfl⟩, rfl, hu⟩
  constructor
  · intro h
    rw [parseString.eq_def] at h
    split at h
    · obtain ⟨⟨bs, u⟩, hp, hout⟩ := Option.map_eq_some_iff.mp h
      obtain ⟨ws, cs, hcs, rfl, rfl, hu⟩ := hloop.mp hp
      obtain ⟨rfl, rfl⟩ := Prod.mk.inj hout
      obtain ⟨v, rfl⟩ : ∃ v, u = 34 :: v := by
        cases u with
        | nil => cases hu
        | cons c v => exact ⟨v, by rw [Option.some.inj (of_decide_eq_true hu)]⟩
      exact ⟨_, ⟨ws, cs, hcs, rfl, bufferString_bytes hcs⟩, by simp⟩
    · cases h
  · rintro ⟨_, ⟨ws, cs, hcs, rfl, hstr⟩, rfl⟩
    have hp := (@hloop (ws.flatten ++ 34 :: r) _ (34 :: r)).mpr ⟨ws, cs, hcs, rfl, rfl, rfl⟩
    have htext : 34 :: (ws.flatten ++ [34]) ++ r = 34 :: (ws.flatten ++ 34 :: r) := by simp
    rw [htext, parseString, hp, Option.map_some, Option.some.injEq, Prod.mk.injEq]
    exact ⟨cstring_ext ((bufferString_bytes hcs).trans hstr.symm), rfl⟩

/-! ### Numbers -/

/-- A text that no digit begins. -/
def NoDigit (r : Bytes) : Prop := ∀ c ∈ r.head?, isDigit c = false

theorem noDigit_cons {b : UInt8} (h : isDigit b = false) : NoDigit (b :: r) := by
  intro c hc
  rwa [← Option.some.inj hc]

/-- **All of the digits are read.** -/
theorem digits_iff : digits s = some r ↔ NoDigit r ∧ ∃ d, Digits d ∧ s = d ++ r := by
  constructor
  · intro h
    cases s with
    | nil => cases h
    | cons c s =>
      rw [digits] at h
      split_ifs at h with hc
      obtain rfl := Option.some.inj h
      refine ⟨fun x hx => ?_, c :: s.takeWhile isDigit, ⟨List.cons_ne_nil _ _, ?_⟩, ?_⟩
      · have hhead := List.head?_dropWhile_not isDigit s
        rw [Option.mem_def.mp hx] at hhead
        simpa using hhead
      · exact List.forall_mem_cons.mpr ⟨hc, fun x hx => List.mem_takeWhile_imp hx⟩
      · rw [List.cons_append, List.takeWhile_append_dropWhile]
  · rintro ⟨hr, d, ⟨hne, hd⟩, rfl⟩
    obtain ⟨c, d, rfl⟩ := List.exists_cons_of_ne_nil hne
    obtain ⟨hc, hd⟩ := List.forall_mem_cons.mp hd
    rw [List.cons_append, digits, if_pos hc, List.dropWhile_append_of_pos hd]
    cases r with
    | nil => rfl
    | cons b r =>
      have hb := hr b rfl
      rw [List.dropWhile_cons_of_neg (by rw [hb]; exact Bool.false_ne_true)]

theorem Digits.head (h : Digits d) : ∃ c t, d = c :: t ∧ isDigit c = true := by
  obtain ⟨c, t, rfl⟩ := List.exists_cons_of_ne_nil h.1
  exact ⟨c, t, rfl, h.2 c (List.mem_cons_self ..)⟩

theorem cons_of_head? {b : UInt8} (h : s.head? = some b) : s = b :: s.tail := by
  cases s with
  | nil => cases h
  | cons c s => rw [Option.some.inj h, List.tail_cons]

theorem skipMinus_spec (s : Bytes) : ∃ m, (m = [] ∨ m = [45]) ∧ s = m ++ skipMinus s := by
  rw [skipMinus]
  split_ifs with h
  · exact ⟨[45], .inr rfl, cons_of_head? h⟩
  · exact ⟨[], .inl rfl, rfl⟩

theorem skipSign_spec (s : Bytes) :
    ∃ m, (m = [] ∨ m = [43] ∨ m = [45]) ∧ s = m ++ skipSign s := by
  rw [skipSign]
  split_ifs with h
  · rcases h with h | h
    · exact ⟨[43], .inr (.inl rfl), cons_of_head? h⟩
    · exact ⟨[45], .inr (.inr rfl), cons_of_head? h⟩
  · exact ⟨[], .inl rfl, rfl⟩

/-- What is read as a number is one. -/
theorem numberEnd_sound (h : numberEnd s = some r) : ∃ w, Numeral w ∧ s = w ++ r := by
  obtain ⟨minus, hminus, hs⟩ := skipMinus_spec s
  rw [numberEnd] at h
  obtain ⟨s1, h1, hrest⟩ := Option.bind_eq_some_iff.mp h
  obtain ⟨s2, h2, h3⟩ := Option.bind_eq_some_iff.mp hrest
  have hwhole : ∃ w, (w = [48] ∨ Digits w ∧ w.head? ≠ some 48) ∧ skipMinus s = w ++ s1 := by
    rw [wholePart] at h1
    split_ifs at h1 with hzero
    · exact ⟨[48], .inl rfl, by rw [← Option.some.inj h1]; exact cons_of_head? hzero⟩
    · obtain ⟨-, d, hd, heq⟩ := digits_iff.mp h1
      refine ⟨d, .inr ⟨hd, ?_⟩, heq⟩
      obtain ⟨c, t, rfl, -⟩ := hd.head
      rw [heq] at hzero
      exact hzero
  have hfraction : ∃ f, (f = [] ∨ ∃ d, Digits d ∧ f = 46 :: d) ∧ s1 = f ++ s2 := by
    rw [fractionPart] at h2
    split_ifs at h2 with hdot
    · obtain ⟨-, d, hd, heq⟩ := digits_iff.mp h2
      exact ⟨46 :: d, .inr ⟨d, hd, rfl⟩, by rw [cons_of_head? hdot, heq]; rfl⟩
    · exact ⟨[], .inl rfl, Option.some.inj h2⟩
  have hexponent : ∃ x, (x = [] ∨ ∃ e sign d, (e = 69 ∨ e = 101) ∧
      (sign = [] ∨ sign = [43] ∨ sign = [45]) ∧ Digits d ∧ x = e :: (sign ++ d)) ∧ s2 = x ++ r := by
    rw [exponentPart] at h3
    split_ifs at h3 with he
    · obtain ⟨-, d, hd, heq⟩ := digits_iff.mp h3
      obtain ⟨sign, hsign, htail⟩ := skipSign_spec s2.tail
      rw [heq] at htail
      rcases he with he | he
      · exact ⟨_, .inr ⟨69, sign, d, .inl rfl, hsign, hd, rfl⟩, by
          rw [cons_of_head? he, htail]; simp⟩
      · exact ⟨_, .inr ⟨101, sign, d, .inr rfl, hsign, hd, rfl⟩, by
          rw [cons_of_head? he, htail]; simp⟩
    · exact ⟨[], .inl rfl, Option.some.inj h3⟩
  obtain ⟨whole, hwhole, hs1⟩ := hwhole
  obtain ⟨fraction, hfraction, hs2⟩ := hfraction
  obtain ⟨exponent, hexponent, hs3⟩ := hexponent
  refine ⟨_, .mk hminus hwhole hfraction hexponent, ?_⟩
  rw [hs, hs1, hs2, hs3]
  simp

/-- **Which numbers are read**, when no part of one stands behind. -/
theorem numberEnd_iff (hr : EndsNumber r) :
    numberEnd s = some r ↔ ∃ w, Numeral w ∧ s = w ++ r := by
  refine ⟨numberEnd_sound, ?_⟩
  rintro ⟨w, hw, rfl⟩
  have hdigit : NoDigit r := fun c hc => (hr c hc).1
  cases hw with
  | @mk minus whole fraction exponent hminus hwhole hfraction hexponent =>
  have hexp : exponentPart (exponent ++ r) = some r := by
    rw [exponentPart]
    rcases hexponent with rfl | ⟨e, sign, d, he, hsign, hd, rfl⟩
    · rw [if_neg]
      · rfl
      · rintro (h | h)
        · exact (hr _ h).2.2.1 rfl
        · exact (hr _ h).2.2.2 rfl
    · rw [if_pos (by rcases he with rfl | rfl <;> simp)]
      have hskip : skipSign (sign ++ (d ++ r)) = d ++ r := by
        obtain ⟨c, t, rfl, hc⟩ := hd.head
        rw [skipSign]
        rcases hsign with rfl | rfl | rfl
        · rw [if_neg]
          · rfl
          · rintro (h | h) <;> (obtain rfl := Option.some.inj h; cases hc)
        · rfl
        · rfl
      show digits (skipSign (sign ++ d ++ r)) = some r
      rw [List.append_assoc, hskip]
      exact digits_iff.mpr ⟨hdigit, d, hd, rfl⟩
  have hdigit' : NoDigit (exponent ++ r) := by
    rcases hexponent with rfl | ⟨e, sign, d, he, -, -, rfl⟩
    · exact hdigit
    · exact noDigit_cons (by rcases he with rfl | rfl <;> decide)
  have hfrac : fractionPart (fraction ++ (exponent ++ r)) = some (exponent ++ r) := by
    rw [fractionPart]
    rcases hfraction with rfl | ⟨d, hd, rfl⟩
    · rw [if_neg]
      · rfl
      · intro h
        rcases hexponent with rfl | ⟨e, sign, d, he, -, -, rfl⟩
        · exact (hr _ h).2.1 rfl
        · obtain rfl := Option.some.inj h
          rcases he with he | he <;> cases he
    · rw [if_pos (by simp)]
      exact digits_iff.mpr ⟨hdigit', d, hd, rfl⟩
  have hdigit'' : NoDigit (fraction ++ (exponent ++ r)) := by
    rcases hfraction with rfl | ⟨d, -, rfl⟩
    · exact hdigit'
    · exact noDigit_cons (by decide)
  have hint : wholePart (whole ++ (fraction ++ (exponent ++ r))) =
      some (fraction ++ (exponent ++ r)) := by
    rw [wholePart]
    rcases hwhole with rfl | ⟨hd, hzero⟩
    · rfl
    · obtain ⟨c, t, rfl, -⟩ := hd.head
      rw [if_neg (by simpa using hzero)]
      exact digits_iff.mpr ⟨hdigit'', _, hd, rfl⟩
  have hsign : skipMinus (minus ++ (whole ++ (fraction ++ (exponent ++ r)))) =
      whole ++ (fraction ++ (exponent ++ r)) := by
    rw [skipMinus]
    rcases hminus with rfl | rfl
    · rw [if_neg]
      · rfl
      · rcases hwhole with rfl | ⟨hd, -⟩
        · simp
        · obtain ⟨c, t, rfl, hc⟩ := hd.head
          intro h
          obtain rfl := Option.some.inj h
          cases hc
    · rfl
  rw [List.append_assoc, List.append_assoc, List.append_assoc, numberEnd, hsign, hint,
    Option.bind_some, hfrac, Option.bind_some, hexp]

/-! ### Control characters -/

/-- A text without control characters. -/
def Printable (w : Bytes) : Prop := ∀ b ∈ w, 0x20 ≤ b

instance (w : Bytes) : Decidable (Printable w) := List.decidableBAll _ w

theorem Printable.append {v w : Bytes} (hv : Printable v) (hw : Printable w) : Printable (v ++ w) :=
  List.forall_mem_append.mpr ⟨hv, hw⟩

theorem Printable.cons {b : UInt8} (hb : 0x20 ≤ b) (hw : Printable w) : Printable (b :: w) :=
  List.forall_mem_cons.mpr ⟨hb, hw⟩

theorem Hex16.printable (h : Hex16 d n) : Printable d := by
  cases h with
  | @mk a b c d w x y z ha hb hc hd =>
    intro e he
    simp only [List.mem_cons, List.not_mem_nil, or_false] at he
    rcases he with rfl | rfl | rfl | rfl
    · exact (hex16Digit_spec _ w ha).2
    · exact (hex16Digit_spec _ x hb).2
    · exact (hex16Digit_spec _ y hc).2
    · exact (hex16Digit_spec _ z hd).2

theorem Spelled.printable (h : Spelled w c) : Printable w := by
  cases h with
  | plain hctl _ _ =>
    intro b hb
    rw [UInt8.le_iff_toNat_le]
    show 0x20 ≤ b.toNat
    rcases mem_utf8EncodeChar hb with ⟨hbc, -⟩ | ⟨hbc, -⟩ <;> omega
  | short he _ =>
    obtain ⟨-, -, he, -⟩ := shortEscape_spec he
    exact .cons (by decide) (.cons he (List.forall_mem_nil _))
  | unicode hw =>
    refine .cons (by decide) (.cons (by decide) ?_)
    cases hw with
    | unit hd _ => exact hd.printable
    | pair hd he _ => exact hd.printable.append (.cons (by decide) (.cons (by decide) he.printable))

theorem Digits.printable (h : Digits d) : Printable d := by
  intro b hb
  have hdigit := h.2 b hb
  rw [isDigit, Bool.and_eq_true, decide_eq_true_eq] at hdigit
  exact UInt8.le_trans (show (0x20 : UInt8) ≤ 48 by decide) hdigit.1

theorem Numeral.printable (h : Numeral w) : Printable w := by
  have hnil : Printable [] := List.forall_mem_nil _
  cases h with
  | mk hminus hwhole hfraction hexponent =>
    refine .append ?_ (.append ?_ (.append ?_ ?_))
    · rcases hminus with rfl | rfl
      · exact hnil
      · exact .cons (by decide) hnil
    · rcases hwhole with rfl | ⟨hd, -⟩
      · exact .cons (by decide) hnil
      · exact hd.printable
    · rcases hfraction with rfl | ⟨d, hd, rfl⟩
      · exact hnil
      · exact .cons (by decide) hd.printable
    · rcases hexponent with rfl | ⟨e, sign, d, he, hsign, hd, rfl⟩
      · exact hnil
      · have hs : Printable sign := by
          rcases hsign with rfl | rfl | rfl
          · exact hnil
          · exact .cons (by decide) hnil
          · exact .cons (by decide) hnil
        exact .cons (by rcases he with rfl | rfl <;> decide) (hs.append hd.printable)

theorem Quoted.printable {str : CString} (h : Quoted w str) : Printable w := by
  obtain ⟨ws, cs, hcs, rfl, -⟩ := h
  have hws : Printable ws.flatten := by
    induction hcs with
    | nil => exact List.forall_mem_nil _
    | cons hw _ ih => exact hw.printable.append ih
  exact .cons (by decide) (hws.append (.cons (by decide) (List.forall_mem_nil _)))

end Suil.JsonDecode
