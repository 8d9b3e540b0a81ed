/-
Numbers read from strings.

`strtonum` copies at most 19 characters and hands them to `strtoll`; it accepts a number that
a point or a zero byte follows.  `to_number` asks it for 64 bits, whatever the type is, and
casts what it gets.

* `scanInteger_of_denotes`, `exists_of_scanInteger` — what `strtoll` scans is a decimal integer;
* `convert_of_leading`, `begins_iff` — how a text begins that is read;
* `length_integerText_le_iff` — the numbers that are printed in 19 characters;
* `cast_of_holds` — a cast keeps the values of the type;
* `comesBack_iff`, `strict_iff` — the numbers that come back, and the texts that are read
  as what they are;
* `numbers_iff` — both.
-/
import Suil.Strings

namespace Suil.Numbers

/-- What `strtonum` throws. -/
inductive NumberError where
  | OutOfRange
  | InvalidArguments
  | IndexOutOfBounds
deriving DecidableEq

section

-- Whether `strtoll` sets `errno` when there is nothing to convert.
variable (einval : Bool)

/-- `strtoll(s, &ep, 10)`: the number, and where it ends; none when `errno` is set. -/
def convert (s : Bytes) : Option (ℤ × ℕ) :=
  match scanInteger s with
  | none => if einval then none else some (0, 0)
  | some _ => strtoll s

/-- The character that `strtoll` stops at is one of `'.'` and `'\0'`. -/
def Stops (s : Bytes) (ep : ℕ) : Prop := (s.drop ep).headD 0 = 46 ∨ (s.drop ep).headD 0 = 0

instance (s : Bytes) (ep : ℕ) : Decidable (Stops s ep) := inferInstanceAs (Decidable (_ ∨ _))

/-- `strtonum`, in base 10.  The end is one of the copy, and never the start of the string. -/
def strtonum (str : Bytes) (min max : ℤ) : Except NumberError ℤ :=
  if str.length > 19 then .error .OutOfRange
  else if min > max then .error .OutOfRange
  else if str = [] then .error .IndexOutOfBounds
  else
    match convert einval str with
    | none => .error .InvalidArguments
    | some (l, ep) =>
      if ¬ Stops str ep then .error .InvalidArguments
      else if l < min then .error .OutOfRange
      else if l > max then .error .OutOfRange
      else .ok l

inductive Width where
  | w8
  | w16
  | w32
  | w64

def Width.bits : Width → ℕ
  | w8 => 8
  | w16 => 16
  | w32 => 32
  | w64 => 64

/-- The types of `std::integral`. -/
inductive IntegralType where
  | bool
  | signed (w : Width)
  | unsigned (w : Width)

namespace IntegralType

/-- The values of the type. -/
def Holds : IntegralType → ℤ → Prop
  | bool, v => v = 0 ∨ v = 1
  | signed w, v => -2 ^ (w.bits - 1) ≤ v ∧ v < 2 ^ (w.bits - 1)
  | unsigned w, v => 0 ≤ v ∧ v < 2 ^ w.bits

/-- `T(l)` -/
def cast : IntegralType → ℤ → ℤ
  | bool, l => if l = 0 then 0 else 1
  | signed w, l => l.bmod (2 ^ w.bits)
  | unsigned w, l => l % 2 ^ w.bits

end IntegralType

/-- `to_number<T>` -/
def to_number (T : IntegralType) (str : Bytes) : Except NumberError ℤ :=
  (strtonum einval str (-2 ^ 63) (2 ^ 63 - 1)).map T.cast

/-- The whole text is a decimal integer: digits, which a sign may precede. -/
inductive Denotes : Bytes → ℤ → Prop
  | plain {ds : Bytes} (hne : ds ≠ []) (hds : ∀ d ∈ ds, isDigit d = true) : Denotes ds (decimal ds)
  | plus {ds : Bytes} (hne : ds ≠ []) (hds : ∀ d ∈ ds, isDigit d = true) :
    Denotes (43 :: ds) (decimal ds)
  | minus {ds : Bytes} (hne : ds ≠ []) (hds : ∀ d ∈ ds, isDigit d = true) :
    Denotes (45 :: ds) (-decimal ds)

/-- A printed number is read again. -/
def RoundTrips (T : IntegralType) (v : ℤ) : Prop := to_number einval T (integerText v) = .ok v

/-- What is returned is what the whole text says, and a value of the type. -/
def Strict (T : IntegralType) (str : Bytes) : Prop :=
  ∀ v, to_number einval T str = .ok v → Denotes str v ∧ T.Holds v

/-- The text begins, behind spaces, with a decimal integer of 64 bits that ends it, or that a point
or a zero byte follows; or with one of these, when `strtoll` does not mind. -/
def Begins (str : Bytes) : Prop :=
  (∃ spaces n rest v, str = spaces ++ n ++ rest ∧ (∀ c ∈ spaces, isSpace c = true) ∧
      Denotes n v ∧ (-2 ^ 63 ≤ v ∧ v < 2 ^ 63) ∧ Stops rest 0) ∨
    einval = false ∧ Stops str 0

/-- The text is empty, too long, or begins with something else. -/
def Refused (str : Bytes) : Prop := str = [] ∨ 19 < str.length ∨ ¬ Begins einval str

variable {einval : Bool} {s ds spaces n rest : Bytes} {v l : ℤ} {ep : ℕ} {T : IntegralType}

/-- What ends a number is neither a digit nor a space nor a sign. -/
theorem Stops.head (h : Stops rest 0) :
    ∀ d ∈ rest.head?, isDigit d = false ∧ isSpace d = false ∧ d ≠ 43 ∧ d ≠ 45 := by
  intro d hd
  obtain ⟨t, rfl⟩ := List.head?_eq_some_iff.mp hd
  rcases h with h | h
  · obtain rfl : d = 46 := h
    decide
  · obtain rfl : d = 0 := h
    decide

/-- Spaces are scanned first. -/
theorem scanInteger_spaces (hspaces : ∀ c ∈ spaces, isSpace c = true) (s : Bytes) :
    scanInteger (spaces ++ s) =
      (scanInteger s).map fun (neg, ds, k) => (neg, ds, spaces.length + k) := by
  rw [scanInteger, scanInteger]
  simp only [List.dropWhile_append_of_pos hspaces, List.takeWhile_append_of_pos hspaces,
    List.length_append]
  split_ifs
  · rfl
  · simp only [Option.map_some, Nat.add_assoc]

/-- A sign is scanned before the digits. -/
theorem scanInteger_signed {sign : UInt8} (hsign : sign = 43 ∨ sign = 45) (hne : ds ≠ [])
    (hds : ∀ d ∈ ds, isDigit d = true) (hrest : ∀ d ∈ rest.head?, isDigit d = false) :
    scanInteger (sign :: ds ++ rest) = some (decide (sign = 45), ds, ds.length + 1) := by
  have hspace : isSpace sign = false := by rcases hsign with rfl | rfl <;> rfl
  rw [List.cons_append]
  have hbody : (sign :: (ds ++ rest)).dropWhile isSpace = sign :: (ds ++ rest) :=
    List.dropWhile_cons_of_neg (by simp [hspace])
  have hspaces : (sign :: (ds ++ rest)).takeWhile isSpace = [] :=
    List.takeWhile_cons_of_neg (by simp [hspace])
  have hlen : signLength (sign :: (ds ++ rest)) = 1 := if_pos (by simpa using hsign)
  have hdigits : (ds ++ rest).takeWhile isDigit = ds := takeWhile_of_digits hds hrest
  rw [scanInteger]
  simp only [hbody, hspaces, hlen, List.drop_succ_cons, List.drop_zero, hdigits]
  rw [if_neg hne, List.head?_cons, List.length_nil, Nat.zero_add, Nat.add_comm]
  simp

/-- A decimal integer is scanned to its end. -/
theorem scanInteger_of_denotes (h : Denotes n v) (hrest : Stops rest 0) :
    ∃ neg ds, scanInteger (n ++ rest) = some (neg, ds, n.length) ∧
      v = if neg then -(decimal ds : ℤ) else decimal ds := by
  have hhead : ∀ d ∈ rest.head?, isDigit d = false := fun d hd => (hrest.head d hd).1
  cases h with
  | plain hne hds => exact ⟨false, _, scanInteger_of_digits hne hds hhead, rfl⟩
  | plus hne hds => exact ⟨false, _, scanInteger_signed (.inl rfl) hne hds hhead, rfl⟩
  | minus hne hds => exact ⟨true, _, scanInteger_signed (.inr rfl) hne hds hhead, rfl⟩

/-- What is scanned is a decimal integer behind spaces. -/
theorem exists_of_scanInteger {neg : Bool} {k : ℕ} (h : scanInteger s = some (neg, ds, k)) :
    ∃ spaces n rest, s = spaces ++ n ++ rest ∧ (∀ c ∈ spaces, isSpace c = true) ∧
      Denotes n (if neg then -(decimal ds : ℤ) else decimal ds) ∧
      k = spaces.length + n.length := by
  rw [scanInteger, Option.ite_none_left_eq_some] at h
  obtain ⟨hne, h⟩ := h
  have hspaces : ∀ c ∈ s.takeWhile isSpace, isSpace c = true :=
    fun c hc => List.mem_takeWhile_imp hc
  have hsplit := List.takeWhile_append_dropWhile (p := isSpace) (l := s)
  generalize s.takeWhile isSpace = spaces at *
  generalize s.dropWhile isSpace = body at *
  generalize hrun : (body.drop (signLength body)).takeWhile isDigit = digits at *
  have hdigits : ∀ d ∈ digits, isDigit d = true := by
    rw [← hrun]
    exact fun d hd => List.mem_takeWhile_imp hd
  obtain ⟨rest, hrest⟩ : ∃ rest, digits ++ rest = body.drop (signLength body) := by
    rw [← hrun]
    exact List.takeWhile_prefix _
  obtain ⟨rfl, rfl, rfl⟩ : decide (body.head? = some 45) = neg ∧ digits = ds ∧
    spaces.length + signLength body + digits.length = k := by simpa using h
  have hjoin : body.take (signLength body) ++ digits ++ rest = body := by
    rw [List.append_assoc, hrest, List.take_append_drop]
  refine ⟨spaces, body.take (signLength body) ++ digits, rest, ?_, hspaces, ?_, ?_⟩
  · rw [List.append_assoc, hjoin, hsplit]
  · -- the sign, if there is one, is the first character behind the spaces
    cases body with
    | nil => exact absurd (List.append_eq_nil_iff.mp (hrest.trans List.drop_nil)).1 hne
    | cons c body =>
      by_cases hplus : c = 43
      · subst hplus
        exact .plus hne hdigits
      by_cases hminus : c = 45
      · subst hminus
        exact .minus hne hdigits
      · have hlen : signLength (c :: body) = 0 := if_neg (by simp [hplus, hminus])
        rw [hlen, if_neg (by simp [hminus])]
        exact .plain hne hdigits
  · rw [List.length_append, List.length_take_of_le, Nat.add_assoc]
    rw [signLength]
    split_ifs with hsign
    · cases body with
      | nil => simp at hsign
      | cons c body => exact Nat.succ_pos _
    · exact Nat.zero_le _

/-- Nothing is scanned of a text that begins with what ends a number. -/
theorem scanInteger_of_stops (h : Stops s 0) : scanInteger s = none := by
  cases s with
  | nil => rfl
  | cons d t =>
    obtain ⟨hdigit, hspace, hplus, hminus⟩ := h.head d rfl
    have hbody : (d :: t).dropWhile isSpace = d :: t :=
      List.dropWhile_cons_of_neg (by simp [hspace])
    have hlen : signLength (d :: t) = 0 := if_neg (by simp [hplus, hminus])
    rw [scanInteger]
    simp only [hbody, hlen, List.drop_zero]
    exact if_pos (List.takeWhile_cons_of_neg (by simp [hdigit]))

theorem convert_of_scan {scanned : Bool × Bytes × ℕ} (einval : Bool)
    (h : scanInteger s = some scanned) : convert einval s = strtoll s := by
  rw [convert, h]

/-- **A decimal integer** is read to its end, when it has 64 bits. -/
theorem convert_of_leading (einval : Bool) (hspaces : ∀ c ∈ spaces, isSpace c = true)
    (h : Denotes n v) (hrest : Stops rest 0) :
    convert einval (spaces ++ n ++ rest) =
      if -2 ^ 63 ≤ v ∧ v < 2 ^ 63 then some (v, spaces.length + n.length) else none := by
  obtain ⟨neg, ds, hscan, rfl⟩ := scanInteger_of_denotes h hrest
  have hall := scanInteger_spaces hspaces (n ++ rest)
  rw [hscan, Option.map_some, ← List.append_assoc] at hall
  rw [convert_of_scan einval hall, strtoll, hall]

theorem convert_of_denotes (einval : Bool) (h : Denotes s v) :
    convert einval s = if -2 ^ 63 ≤ v ∧ v < 2 ^ 63 then some (v, s.length) else none := by
  have hwhole := convert_of_leading einval (List.forall_mem_nil _) h (.inr rfl : Stops [] 0)
  rwa [List.nil_append, List.append_nil, List.length_nil, Nat.zero_add] at hwhole

/-- **How a text begins** that is read up to a point or a zero byte, or to its end. -/
theorem begins_iff : (∃ l ep, convert einval s = some (l, ep) ∧ Stops s ep) ↔ Begins einval s := by
  constructor
  · rintro ⟨l, ep, hconvert, hstops⟩
    cases hscan : scanInteger s with
    | none =>
      rw [convert, hscan, Option.ite_none_left_eq_some] at hconvert
      obtain ⟨heinval, heq⟩ := hconvert
      cases heq
      exact .inr ⟨Bool.eq_false_iff.mpr heinval, hstops⟩
    | some scanned =>
      obtain ⟨neg, ds, k⟩ := scanned
      obtain ⟨spaces, n, rest, rfl, hspaces, hdenotes, rfl⟩ := exists_of_scanInteger hscan
      rw [convert_of_scan einval hscan, strtoll, hscan] at hconvert
      dsimp only at hconvert
      generalize (if neg = true then -(decimal ds : ℤ) else decimal ds) = v at hconvert hdenotes
      split_ifs at hconvert with hin
      cases hconvert
      refine .inl ⟨spaces, n, rest, _, rfl, hspaces, hdenotes, hin, ?_⟩
      rwa [Stops, ← List.length_append, List.drop_left] at hstops
  · rintro (⟨spaces, n, rest, v, rfl, hspaces, hdenotes, hin, hrest⟩ | ⟨rfl, hstops⟩)
    · refine ⟨v, spaces.length + n.length, ?_, ?_⟩
      · rw [convert_of_leading einval hspaces hdenotes hrest, if_pos hin]
      · rwa [Stops, ← List.length_append, List.drop_left]
    · exact ⟨0, 0, by rw [convert, scanInteger_of_stops hstops]; rfl, hstops⟩

/-- What is read has 64 bits. -/
theorem bounds_of_convert (h : convert einval s = some (l, ep)) : -2 ^ 63 ≤ l ∧ l < 2 ^ 63 := by
  cases hscan : scanInteger s with
  | none =>
    rw [convert, hscan] at h
    dsimp only at h
    split_ifs at h
    cases h
    exact ⟨by decide, by decide⟩
  | some scanned =>
    rw [convert_of_scan einval hscan, strtoll, hscan] at h
    dsimp only at h
    generalize (if scanned.1 = true then -(decimal scanned.2.1 : ℤ) else decimal scanned.2.1) = n
      at h
    split_ifs at h with hin
    cases h
    exact hin

theorem to_number_eq_ok_iff : to_number einval T s = .ok v ↔
    s ≠ [] ∧ s.length ≤ 19 ∧
      ∃ l ep, convert einval s = some (l, ep) ∧ Stops s ep ∧ T.cast l = v := by
  rw [to_number, strtonum]
  by_cases hlen : s.length > 19
  · rw [if_pos hlen]
    exact iff_of_false (by simp [Except.map]) fun h => absurd h.2.1 (not_le.mpr hlen)
  rw [if_neg hlen, if_neg (by decide)]
  by_cases hs : s = []
  · rw [if_pos hs]
    exact iff_of_false (by simp [Except.map]) fun h => h.1 hs
  rw [if_neg hs, and_iff_right hs, and_iff_right (not_lt.mp hlen)]
  cases hconvert : convert einval s with
  | none => exact iff_of_false (by simp [Except.map]) (by simp)
  | some found =>
    obtain ⟨l, ep⟩ := found
    obtain ⟨hlow, hhigh⟩ := bounds_of_convert hconvert
    dsimp only
    by_cases hstops : Stops s ep
    · rw [if_neg (not_not.mpr hstops), if_neg (not_lt.mpr hlow), if_neg (by omega)]
      constructor
      · exact fun h => ⟨l, ep, rfl, hstops, Except.ok.inj h⟩
      · rintro ⟨l', ep', heq, -, hcast⟩
        cases heq
        exact congrArg _ hcast
    · rw [if_pos hstops]
      refine iff_of_false (by simp [Except.map]) ?_
      rintro ⟨l', ep', heq, hstops', -⟩
      cases heq
      exact hstops hstops'

/-- **A cast** keeps the values of the type. -/
theorem cast_of_holds (h : T.Holds v) : T.cast v = v := by
  cases T with
  | bool => rcases h with rfl | rfl <;> rfl
  | signed w =>
    have hbits : (2 : ℤ) ^ w.bits = 2 * 2 ^ (w.bits - 1) := by cases w <;> rfl
    obtain ⟨hlow, hhigh⟩ := h
    refine Int.bmod_eq_of_le_mul_two ?_ ?_
    · push_cast
      omega
    · push_cast
      omega
  | unsigned w => exact Int.emod_eq_of_lt h.1 h.2

theorem denotes_integerText (v : ℤ) : Denotes (integerText v) v := by
  cases v with
  | ofNat n =>
    have h := Denotes.plain (decimalText_ne_nil n) fun d hd => isDigit_decimalText hd
    rwa [decimal_decimalText] at h
  | negSucc n =>
    have h := Denotes.minus (decimalText_ne_nil (n + 1)) fun d hd => isDigit_decimalText hd
    rwa [decimal_decimalText] at h

/-- **The numbers** that are printed in 19 characters. -/
theorem length_integerText_le_iff (v : ℤ) :
    (integerText v).length ≤ 19 ↔ -10 ^ 18 < v ∧ v < 10 ^ 19 := by
  have hlen : ∀ n k : ℕ, 0 < k → ((decimalText n).length ≤ k ↔ n < 10 ^ k) := by
    intro n k hk
    rw [decimalText, List.length_map]
    exact Nat.length_toDigits_le_iff (by decide) hk
  cases v with
  | ofNat n =>
    rw [integerText, hlen n 19 (by decide), Int.ofNat_eq_natCast]
    omega
  | negSucc n =>
    show (decimalText (n + 1)).length + 1 ≤ 18 + 1 ↔ _
    rw [Nat.add_le_add_iff_right, hlen (n + 1) 18 (by decide), Int.negSucc_eq]
    omega

/-- **The numbers that come back**: those that are printed in 19 characters, and have 64 bits with
a sign. -/
theorem comesBack_iff (einval : Bool) (hv : T.Holds v) :
    RoundTrips einval T v ↔ -10 ^ 18 < v ∧ v < 2 ^ 63 := by
  -- what is printed is read to its end, so that its length and its bits decide
  have hdenotes := denotes_integerText v
  have hne : integerText v ≠ [] := by
    intro hnil
    rw [hnil] at hdenotes
    cases hdenotes with
    | plain hne => exact hne rfl
  have hend : Stops (integerText v) (integerText v).length := by
    refine .inr ?_
    rw [List.drop_length]
    rfl
  rw [RoundTrips, to_number_eq_ok_iff, and_iff_right hne, length_integerText_le_iff,
    convert_of_denotes einval hdenotes]
  constructor
  · rintro ⟨hlen, l, ep, hconvert, -⟩
    split_ifs at hconvert with hin
    exact ⟨hlen.1, hin.2⟩
  · rintro ⟨hlow, hhigh⟩
    refine ⟨⟨hlow, by omega⟩, v, _, if_pos ⟨by omega, hhigh⟩, hend, cast_of_holds hv⟩

/-- **The texts that are read as what they are**: decimal integers of the type, and what is
refused. -/
theorem strict_iff (einval : Bool) (T : IntegralType) (s : Bytes) :
    Strict einval T s ↔ Refused einval s ∨ ∃ v, Denotes s v ∧ T.Holds v := by
  constructor
  · intro hstrict
    by_contra hnot
    obtain ⟨hrefused, hnone⟩ := not_or.mp hnot
    simp only [Refused, not_or, not_not, not_lt] at hrefused
    obtain ⟨hne, hlen, hbegins⟩ := hrefused
    obtain ⟨l, ep, hconvert, hstops⟩ := begins_iff.mpr hbegins
    have hok : to_number einval T s = .ok (T.cast l) :=
      to_number_eq_ok_iff.mpr ⟨hne, hlen, l, ep, hconvert, hstops, rfl⟩
    exact hnone ⟨_, hstrict _ hok⟩
  · rintro (hrefused | ⟨v, hdenotes, hholds⟩) w hw
    · obtain ⟨hne, hlen, l, ep, hconvert, hstops, -⟩ := to_number_eq_ok_iff.mp hw
      rcases hrefused with hnil | hlong | hnot
      · exact absurd hnil hne
      · exact absurd hlen (not_le.mpr hlong)
      · exact absurd (begins_iff.mp ⟨l, ep, hconvert, hstops⟩) hnot
    · obtain ⟨-, -, l, ep, hconvert, -, rfl⟩ := to_number_eq_ok_iff.mp hw
      rw [convert_of_denotes einval hdenotes] at hconvert
      split_ifs at hconvert
      cases hconvert
      rw [cast_of_holds hholds]
      exact ⟨hdenotes, hholds⟩

/-- **Numbers printed and texts read.** -/
theorem numbers_iff (einval : Bool) (hv : T.Holds v) (s : Bytes) :
    (RoundTrips einval T v ↔ -10 ^ 18 < v ∧ v < 2 ^ 63) ∧
      (Strict einval T s ↔ Refused einval s ∨ ∃ v, Denotes s v ∧ T.Holds v) :=
  ⟨comesBack_iff einval hv, strict_iff einval T s⟩

theorem numbers_short :
    (IntegralType.signed .w32).Holds (-7) ∧ RoundTrips false (.signed .w32) (-7) ∧
      Strict false (.signed .w32) (ascii "12") := by
  have hiff := numbers_iff (T := .signed .w32) (v := -7) false ⟨by decide, by decide⟩ (ascii "12")
  have hdenotes : Denotes (ascii "12") (decimal (ascii "12")) :=
    .plain (by decide) (by simp [ascii, isDigit])
  refine ⟨⟨by decide, by decide⟩, hiff.1.mpr (by omega), hiff.2.mpr (.inr ⟨_, hdenotes, ?_⟩)⟩
  exact ⟨by decide, by decide⟩

/-- The least number of 64 bits has 20 characters; 300 is cast to 44, and `12.5` is read as 12. -/
theorem not_numbers :
    ¬ RoundTrips false (.signed .w64) (-2 ^ 63) ∧ ¬ Strict false (.unsigned .w8) (ascii "300") ∧
      to_number false (.unsigned .w8) (ascii "300") = .ok 44 ∧
      to_number false (.signed .w32) (ascii "12.5") = .ok 12 := by
  have hcast : to_number false (.unsigned .w8) (ascii "300") = .ok 44 := rfl
  refine ⟨fun h => ?_, fun h => ?_, hcast, rfl⟩
  · have hholds : (IntegralType.signed .w64).Holds (-2 ^ 63) := ⟨le_rfl, by decide⟩
    have hlow := ((comesBack_iff false hholds).mp h).1
    omega
  · obtain ⟨hdenotes, -⟩ := h 44 hcast
    have hread : convert false (ascii "300") = some (300, 3) := rfl
    rw [convert_of_denotes false hdenotes, if_pos (by omega)] at hread
    exact absurd (congrArg Prod.fst (Option.some.inj hread)) (by decide)

end

end Suil.Numbers
