/-
Strings and the C string functions under them.

A `String` of the program is a pointer and a length; here it is the list of its
bytes.  What the C library is asked about it — `strncmp`, `strtoll`,
`strtoull` — is defined on the same lists: a list that ends stands for the
terminating zero byte.

* `startsWith_singleton`, `startsWith_iff` — prefixes of one character or
  without a zero byte are compared exactly;
* `strtoll_consumed`, `strtoull_consumed` — a conversion that succeeds consumes
  at least one byte and never more than there are;
* `decimal_decimalText`, `decimalText_mono` — a printed number is read back, and
  a larger number is not printed shorter;
* `bytes_hexText` — hexadecimal text is read back.
-/
import Suil.Core

namespace Suil

def isDigit (c : UInt8) : Bool := 48 ≤ c && c ≤ 57

/-- `isspace` in the C locale. -/
def isSpace (c : UInt8) : Bool := c == 32 || (9 ≤ c && c ≤ 13)

/-- `isalpha`. -/
def isAlpha (c : UInt8) : Bool := (65 ≤ c && c ≤ 90) || (97 ≤ c && c ≤ 122)

/-- `isalnum`. -/
def isAlnum (c : UInt8) : Bool := isAlpha c || isDigit c

/-- `strchr(s, c) != nullptr`: the zero byte behind the text is found as well. -/
def strchr (s : Bytes) (c : UInt8) : Bool := c == 0 || s.contains c

/-- `strncmp(a, b, n) == 0`: equal up to `n` bytes or a common zero byte. -/
def strncmpEq : ℕ → Bytes → Bytes → Bool
  | 0, _, _ => true
  | n + 1, a, b => a.headD 0 == b.headD 0 && (a.headD 0 == 0 || strncmpEq n a.tail b.tail)

/-- `String::startsWith`, case-sensitive. -/
def startsWith (s p : Bytes) : Bool := p.length ≤ s.length && strncmpEq p.length s p

/-- `String::operator==`. -/
def strEq (a b : Bytes) : Bool :=
  if a = [] ∨ b = [] then a = [] && b = [] else a.length = b.length && strncmpEq a.length a b

/-- `String::substr`, for `start` within the string; a count of zero stands for
the whole rest. -/
def substr (s : Bytes) (start count : ℕ) : Bytes :=
  let fits := s.length - start
  let n := if count = 0 then fits else count
  if n ≠ 0 ∧ n ≤ fits then (s.drop start).take n else []

/-- `String::back`: an empty string ends in a zero byte. -/
def back (s : Bytes) : UInt8 := s.getLastD 0

/-- The first separator is the one behind a string that has none. -/
theorem idxOf?_separator {c : UInt8} {a : Bytes} (h : c ∉ a) (b : Bytes) :
    (a ++ c :: b).idxOf? c = some a.length := by
  induction a with
  | nil => simp [List.idxOf?_cons]
  | cons d a ih =>
    have hd : (d == c) = false := by
      refine beq_false_of_ne fun heq => h ?_
      rw [heq]
      exact List.mem_cons_self
    rw [List.cons_append, List.idxOf?_cons, hd, if_neg Bool.false_ne_true,
      ih fun hmem => h (List.mem_cons_of_mem d hmem)]
    rfl

theorem substr_rest (s : Bytes) (start : ℕ) : substr s start 0 = s.drop start := by
  rw [substr, if_pos rfl]
  split_ifs with h
  · rw [← List.length_drop, List.take_length]
  · rw [List.drop_eq_nil_of_le (by omega)]

theorem startsWith_singleton {s : Bytes} {c : UInt8} :
    startsWith s [c] = true ↔ ∃ t, s = c :: t := by
  cases s with
  | nil => simp [startsWith]
  | cons b t => simp [startsWith, strncmpEq]

theorem strncmpEq_self (n : ℕ) (s : Bytes) : strncmpEq n s s = true := by
  induction n generalizing s with
  | zero => rfl
  | succ n ih => simp [strncmpEq, ih]

theorem strEq_self (s : Bytes) : strEq s s = true := by
  rw [strEq]
  split_ifs with hnil
  · simpa using hnil
  · simp [strncmpEq_self]

theorem strncmpEq_iff {s p : Bytes} (h0 : (0 : UInt8) ∉ p ∨ (0 : UInt8) ∉ s)
    (hlen : p.length ≤ s.length) : strncmpEq p.length s p = true ↔ p <+: s := by
  induction p generalizing s with
  | nil => simp [strncmpEq]
  | cons c p ih =>
    cases s with
    | nil => simp at hlen
    | cons b s =>
      simp only [List.mem_cons, not_or] at h0
      have hc : b = c → (b == 0) = false := by
        rintro rfl
        simpa using Ne.symm (h0.elim And.left And.left)
      simp only [List.length_cons, strncmpEq, List.headD_cons, List.tail_cons, Bool.and_eq_true,
        beq_iff_eq, List.cons_prefix_cons, eq_comm (a := c)]
      refine and_congr_right fun hb => ?_
      rw [hc hb, Bool.false_or, ih (h0.imp And.right And.right) (by simpa using hlen)]

/-- Without a zero byte on one side a prefix is compared exactly. -/
theorem startsWith_iff {s p : Bytes} (h0 : (0 : UInt8) ∉ p ∨ (0 : UInt8) ∉ s) :
    startsWith s p = true ↔ p <+: s := by
  simp only [startsWith, Bool.and_eq_true, decide_eq_true_eq]
  constructor
  · rintro ⟨hlen, h⟩
    exact (strncmpEq_iff h0 hlen).mp h
  · intro h
    exact ⟨h.length_le, (strncmpEq_iff h0 h.length_le).mpr h⟩

/-- The value of a run of decimal digits. -/
def decimal (ds : Bytes) : ℕ := ds.foldl (fun n d => 10 * n + (d.toNat - 48)) 0

/-- The number of sign characters at the front of a numeral. -/
def signLength (s : Bytes) : ℕ := if s.head? = some 43 ∨ s.head? = some 45 then 1 else 0

/-- What `strtoll` and `strtoull` scan in base 10: leading space, a sign and a
run of digits.  The result holds the sign, the digits and the number of bytes
consumed; `none` when there is no digit. -/
def scanInteger (s : Bytes) : Option (Bool × Bytes × ℕ) :=
  let body := s.dropWhile isSpace
  let digits := (body.drop (signLength body)).takeWhile isDigit
  if digits = [] then none
  else some (body.head? = some 45, digits,
    (s.takeWhile isSpace).length + signLength body + digits.length)

/-- `strtoll(s, &end, 10)`: the value and the bytes consumed, `none` when
nothing is converted or `errno` is `ERANGE`. -/
def strtoll (s : Bytes) : Option (ℤ × ℕ) :=
  match scanInteger s with
  | none => none
  | some (neg, digits, n) =>
    let v : ℤ := if neg then -(decimal digits : ℤ) else decimal digits
    if -2 ^ 63 ≤ v ∧ v < 2 ^ 63 then some (v, n) else none

/-- `strtoull(s, &end, 10)`; a minus sign negates modulo 2^64. -/
def strtoull (s : Bytes) : Option (ℕ × ℕ) :=
  match scanInteger s with
  | none => none
  | some (neg, digits, n) =>
    if decimal digits < 2 ^ 64 then
      some (if neg then (2 ^ 64 - decimal digits) % 2 ^ 64 else decimal digits, n)
    else none

theorem scanInteger_consumed {s digits : Bytes} {neg : Bool} {n : ℕ}
    (h : scanInteger s = some (neg, digits, n)) : 0 < n ∧ n ≤ s.length := by
  simp only [scanInteger] at h
  generalize signLength (s.dropWhile isSpace) = sign at h
  rw [Option.ite_none_left_eq_some] at h
  obtain ⟨hne, h⟩ := h
  simp only [Option.some.injEq, Prod.mk.injEq] at h
  obtain ⟨-, rfl, rfl⟩ := h
  have hpos := List.length_pos_iff.mpr hne
  have hlen := (List.takeWhile_prefix isDigit (l := (s.dropWhile isSpace).drop sign)).length_le
  have hsum := congrArg List.length (List.takeWhile_append_dropWhile (p := isSpace) (l := s))
  simp only [List.length_append, List.length_drop] at hsum hlen
  omega

theorem strtoll_consumed {s : Bytes} {v : ℤ} {n : ℕ} (h : strtoll s = some (v, n)) :
    0 < n ∧ n ≤ s.length := by
  rw [strtoll] at h
  rcases hs : scanInteger s with _ | ⟨neg, digits, m⟩
  · simp [hs] at h
  · rw [hs] at h
    simp only at h
    split_ifs at h
    all_goals
      simp only [Option.some.injEq, Prod.mk.injEq] at h
      obtain ⟨-, rfl⟩ := h
      exact scanInteger_consumed hs

theorem strtoull_consumed {s : Bytes} {v n : ℕ} (h : strtoull s = some (v, n)) :
    0 < n ∧ n ≤ s.length := by
  rw [strtoull] at h
  rcases hs : scanInteger s with _ | ⟨neg, digits, m⟩
  · simp [hs] at h
  · rw [hs] at h
    simp only at h
    split_ifs at h
    all_goals
      simp only [Option.some.injEq, Prod.mk.injEq] at h
      obtain ⟨-, rfl⟩ := h
      exact scanInteger_consumed hs

/-- The C library's `strtod`, on which the development assumes nothing but that
a conversion consumes at least one byte of its input and no more than there
are.  `none` stands for no conversion and for `ERANGE`. -/
structure Strtod (D : Type) where
  conv : Bytes → Option (D × ℕ)
  consumed : ∀ {s v n}, conv s = some (v, n) → 0 < n ∧ n ≤ s.length

/-- `strtod` as it is on numerals without a sign, a point or an exponent. -/
def Strtod.whole : Strtod ℕ := ⟨strtoull, strtoull_consumed⟩

theorem isDigit_range {d : UInt8} (h : isDigit d = true) : 48 ≤ d.toNat ∧ d.toNat ≤ 57 := by
  rw [isDigit, Bool.and_eq_true, decide_eq_true_eq, decide_eq_true_eq, UInt8.le_iff_toNat_le,
    UInt8.le_iff_toNat_le] at h
  exact h

theorem not_isSpace_of_isDigit {d : UInt8} (h : isDigit d = true) : isSpace d = false := by
  have hrange := isDigit_range h
  rw [isSpace, Bool.or_eq_false_iff, Bool.and_eq_false_iff, beq_eq_false_iff_ne]
  refine ⟨?_, Or.inr ?_⟩
  · rintro rfl
    exact absurd hrange.1 (by decide)
  · rw [decide_eq_false_iff_not, UInt8.le_iff_toNat_le]
    have h13 : (13 : UInt8).toNat = 13 := rfl
    omega

/-- A character is not before its first place. -/
theorem not_mem_takeWhile (c : UInt8) (text : Bytes) : c ∉ text.takeWhile (· ≠ c) := fun hmem => by
  simpa using List.mem_takeWhile_imp hmem

/-- What does not have a character comes before its first place. -/
theorem takeWhile_append_of_not_mem {c : UInt8} {a : Bytes} (h : c ∉ a) (b : Bytes) :
    (a ++ b).takeWhile (· ≠ c) = a ++ b.takeWhile (· ≠ c) :=
  List.takeWhile_append_of_pos fun x hx => decide_eq_true fun heq : x = c => h (heq ▸ hx)

theorem dropWhile_append_of_not_mem {c : UInt8} {a : Bytes} (h : c ∉ a) (b : Bytes) :
    (a ++ b).dropWhile (· ≠ c) = b.dropWhile (· ≠ c) :=
  List.dropWhile_append_of_pos fun x hx => decide_eq_true fun heq : x = c => h (heq ▸ hx)

theorem takeWhile_of_not_mem {c : UInt8} {a : Bytes} (h : c ∉ a) : a.takeWhile (· ≠ c) = a :=
  List.takeWhile_eq_self_iff.mpr fun x hx => decide_eq_true fun heq : x = c => h (heq ▸ hx)

/-- A text with a character, by what is before and behind it. -/
theorem eq_takeWhile_append {c : UInt8} {text : Bytes} (h : c ∈ text) :
    text = text.takeWhile (· ≠ c) ++ c :: (text.dropWhile (· ≠ c)).tail := by
  induction text with
  | nil => cases h
  | cons d text ih =>
    by_cases hc : d = c
    · simp [hc]
    · have hmem : c ∈ text := (List.mem_cons.mp h).resolve_left fun heq => hc heq.symm
      rw [List.takeWhile_cons_of_pos (by simpa using hc),
        List.dropWhile_cons_of_pos (by simpa using hc), List.cons_append, ← ih hmem]

theorem takeWhile_of_digits {ds tail : Bytes} (hds : ∀ d ∈ ds, isDigit d = true)
    (h : ∀ d ∈ tail.head?, isDigit d = false) : (ds ++ tail).takeWhile isDigit = ds := by
  rw [List.takeWhile_append_of_pos hds]
  cases tail with
  | nil => rw [List.takeWhile_nil, List.append_nil]
  | cons d tail => rw [List.takeWhile_cons_of_neg (by simp [h d rfl]), List.append_nil]

/-- Digits are scanned up to what does not go on with one. -/
theorem scanInteger_of_digits {ds tail : Bytes} (hne : ds ≠ [])
    (hds : ∀ d ∈ ds, isDigit d = true) (h : ∀ d ∈ tail.head?, isDigit d = false) :
    scanInteger (ds ++ tail) = some (false, ds, ds.length) := by
  have hdigits := takeWhile_of_digits hds h
  cases ds with
  | nil => exact absurd rfl hne
  | cons d ds =>
    have hd := hds d List.mem_cons_self
    have hspace := not_isSpace_of_isDigit hd
    have hsigns : d ≠ 43 ∧ d ≠ 45 := by
      have hrange := isDigit_range hd
      constructor
      · rintro rfl
        exact absurd hrange.1 (by decide)
      · rintro rfl
        exact absurd hrange.1 (by decide)
    have hsign : signLength (d :: ds ++ tail) = 0 := by
      rw [signLength, List.cons_append, List.head?_cons, if_neg (by simp [hsigns.1, hsigns.2])]
    have hbody : (d :: ds ++ tail).dropWhile isSpace = d :: ds ++ tail := by
      rw [List.cons_append, List.dropWhile_cons_of_neg (by simp [hspace])]
    have hspaces : (d :: ds ++ tail).takeWhile isSpace = [] := by
      rw [List.cons_append, List.takeWhile_cons_of_neg (by simp [hspace])]
    rw [scanInteger]
    simp only [hbody, hspaces, hsign, List.drop_zero, hdigits]
    rw [if_neg hne]
    simp [hsigns.2]

/-- A natural number as `printf` and `std::to_string` print it. -/
def decimalText (n : ℕ) : Bytes := (Nat.toDigits 10 n).map fun c => c.toNat.toUInt8

/-- An integer as `std::to_string` prints it. -/
def integerText : ℤ → Bytes
  | .ofNat n => decimalText n
  | .negSucc n => 45 :: decimalText (n + 1)

theorem decimal_decimalText (n : ℕ) : decimal (decimalText n) = n := by
  have hfold : ∀ (cs : List Char) (acc : ℕ), (∀ c ∈ cs, c.isDigit) →
      (cs.map fun c => c.toNat.toUInt8).foldl (fun n d => 10 * n + (d.toNat - 48)) acc
        = Nat.ofDigitChars 10 cs acc := by
    intro cs
    induction cs with
    | nil => intro acc _; rfl
    | cons c cs ih =>
      intro acc hdigits
      have hc := hdigits c List.mem_cons_self
      have hbyte : c.toNat.toUInt8.toNat = c.toNat := by
        have hle : c.toNat ≤ 57 := by
          simp only [Char.isDigit, Bool.and_eq_true, decide_eq_true_eq] at hc
          exact hc.2
        simp only [UInt8.toNat_ofNat', Nat.toUInt8]
        omega
      rw [List.map_cons, List.foldl_cons, Nat.ofDigitChars_cons, hbyte]
      exact ih _ fun c' hc' => hdigits c' (List.mem_cons_of_mem _ hc')
  rw [decimal, decimalText, hfold _ _ fun c hc =>
    Nat.isDigit_of_mem_toDigits (by decide) (by decide) hc]
  exact Nat.ofDigitChars_ten_toDigits

theorem isDigit_decimalText {n : ℕ} {d : UInt8} (h : d ∈ decimalText n) : isDigit d = true := by
  obtain ⟨c, hc, rfl⟩ := List.mem_map.mp h
  have hdigit := Nat.isDigit_of_mem_toDigits (by decide) (by decide) hc
  simp only [Char.isDigit, Bool.and_eq_true, decide_eq_true_eq] at hdigit
  obtain ⟨hlow, hhigh⟩ : 48 ≤ c.toNat ∧ c.toNat ≤ 57 := hdigit
  have hbyte : c.toNat.toUInt8.toNat = c.toNat := by
    simp only [UInt8.toNat_ofNat', Nat.toUInt8]
    omega
  rw [isDigit, Bool.and_eq_true, decide_eq_true_eq, decide_eq_true_eq, UInt8.le_iff_toNat_le,
    UInt8.le_iff_toNat_le, hbyte]
  exact ⟨hlow, hhigh⟩

theorem decimalText_ne_nil (n : ℕ) : decimalText n ≠ [] := by
  simp [decimalText]

theorem decimalText_injective : Function.Injective decimalText :=
  Function.LeftInverse.injective decimal_decimalText

theorem decimalText_mono {m n : ℕ} (h : m ≤ n) :
    (decimalText m).length ≤ (decimalText n).length := by
  rw [decimalText, decimalText, List.length_map, List.length_map,
    Nat.length_toDigits_le_iff (by decide) Nat.length_toDigits_pos]
  refine h.trans_lt ?_
  exact (Nat.length_toDigits_le_iff (by decide) Nat.length_toDigits_pos).mp le_rfl

/-- `i2c`: a hexadecimal digit, in lower case. -/
def i2c (n : UInt8) : UInt8 := if n ≤ 9 then n + 48 else n + 87

/-- `hexstr`: two digits a byte, nothing when `olen` bytes do not hold them. -/
def hexstr (data : Bytes) (olen : ℕ) : Bytes :=
  if olen < 2 * data.length then [] else data.flatMap fun b : UInt8 => [i2c (b >>> 4), i2c (b &&& 15)]

theorem length_hexstr {data : Bytes} {olen : ℕ} (h : 2 * data.length ≤ olen) :
    (hexstr data olen).length = 2 * data.length := by
  rw [hexstr, if_neg (by omega), List.length_flatMap]
  simp [Nat.mul_comm]

/-- The whole of the data in hexadecimal. -/
def hexText (data : Bytes) : Bytes := hexstr data (2 * data.length)

theorem hexstr_eq (data : Bytes) (olen : ℕ) :
    hexstr data olen = if olen < 2 * data.length then [] else hexText data := by
  rw [hexText, hexstr, hexstr, if_neg (lt_irrefl _)]

theorem length_hexText (data : Bytes) : (hexText data).length = 2 * data.length :=
  length_hexstr le_rfl

/-- `c2i`; it throws (`none`) on what is no digit. -/
def c2i (c : UInt8) : Option UInt8 :=
  if 48 ≤ c && c ≤ 57 then some (c - 48)
  else if 97 ≤ c && c ≤ 102 then some (c - 87)
  else if 65 ≤ c && c ≤ 70 then some (c - 55)
  else none

/-- The loop of `bytes`: two digits a byte, from left to right; a last digit is left. -/
def hexPairs : Bytes → Option Bytes
  | a :: b :: str => do
    let high ← c2i a
    let low ← c2i b
    let out ← hexPairs str
    some ((high <<< 4 ||| low) :: out)
  | _ => some []

/-- `bytes(str, out, olen)`: what is written to `out`. -/
def bytes (str : Bytes) (olen : ℕ) : Option Bytes :=
  if olen < str.length / 2 then none else hexPairs str

theorem length_hexPairs_le {str out : Bytes} (h : hexPairs str = some out) :
    out.length ≤ str.length / 2 := by
  induction str using hexPairs.induct generalizing out with
  | case1 a b str ih =>
    rw [hexPairs] at h
    obtain ⟨high, -, h⟩ := Option.bind_eq_some_iff.mp h
    obtain ⟨low, -, h⟩ := Option.bind_eq_some_iff.mp h
    obtain ⟨rest, hrest, h⟩ := Option.bind_eq_some_iff.mp h
    obtain rfl := Option.some.inj h
    have hlen := ih hrest
    simp only [List.length_cons]
    omega
  | case2 str hstr =>
    rw [hexPairs] at h
    · obtain rfl := Option.some.inj h
      exact Nat.zero_le _
    · exact hstr

theorem c2i_i2c (b : UInt8) :
    c2i (i2c (b >>> 4)) = some (b >>> 4) ∧ c2i (i2c (b &&& 15)) = some (b &&& 15) ∧
      (b >>> 4) <<< 4 ||| (b &&& 15) = b := by
  revert b
  exact forall_byte (by decide +kernel)

/-- Hexadecimal text is read back. -/
theorem bytes_hexText {data : Bytes} {olen : ℕ} (h : data.length ≤ olen) :
    bytes (hexText data) olen = some data := by
  rw [bytes, length_hexText, if_neg (by omega), hexText, hexstr, if_neg (lt_irrefl _)]
  clear h
  induction data with
  | nil => rfl
  | cons b data ih =>
    obtain ⟨hhigh, hlow, hb⟩ := c2i_i2c b
    simp [hexPairs, hhigh, hlow, ih, hb]

example : hexText [0, 171] = ascii "00ab" := by decide
example : strtoll (ascii "-12/x") = some (-12, 3) := by decide
example : strtoll (ascii "9223372036854775808") = none := by decide

end Suil
