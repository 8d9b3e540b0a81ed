/-
The validators of numbers and of sizes in bytes.

Both hand the text to the C library and look at `errno`, which nobody resets, and `cmdParseByteSize`
then looks at the character behind the number.  What is accepted is stored as a `double`, but a size
without a unit, or with `b`, is not stored at all.

* `scan_written`, `written_of_scan` — what the library scans is an integer literal;
* `errnoAfter_eq` — what earlier calls leave in `errno`;
* `integerRight_iff`, `sizeRight_iff` — for which texts the validators do what they should;
* `numbers_right_iff` — both, after any earlier calls.
-/
import Suil.CmdBitFlags
import Suil.Lib.Rounding

open Rounding

namespace Suil.CmdNumbers

open Cmd (Parsed refuse)

/-! ### The C library -/

def ERANGE : ℤ := 34

def EINVAL : ℤ := 22

/-- The value of a digit in a base up to 36. -/
def digitValue (c : UInt8) : ℕ :=
  if isDigit c then c.toNat - 48
  else if 97 ≤ c ∧ c ≤ 122 then c.toNat - 87
  else if 65 ≤ c ∧ c ≤ 90 then c.toNat - 55
  else 36

def ofDigits (base : ℕ) (ds : Bytes) : ℕ := ds.foldl (fun n d => base * n + digitValue d) 0

/-- The prefix of a hexadecimal literal, before a digit. -/
def hexPrefix (s : Bytes) : Bool :=
  s.head? == some 48 && (s[1]? == some 120 || s[1]? == some 88) &&
    s[2]?.any fun c => digitValue c < 16

/-- The base that a literal has when none is given, and the length of the prefix that says so. -/
def baseOf (s : Bytes) : ℕ × ℕ :=
  if hexPrefix s then (16, 2) else if s.head? = some 48 then (8, 0) else (10, 0)

/-- What `strtoll` and `strtoull` scan in base 0: whether there is a minus sign, the number, and
where it ends. -/
def scan (s : Bytes) : Option (Bool × ℕ × ℕ) :=
  let body := s.dropWhile isSpace
  let numeral := body.drop (signLength body)
  let (base, skip) := baseOf numeral
  let digits := (numeral.drop skip).takeWhile (digitValue · < base)
  if digits = [] then none
  else some (body.head? = some 45, ofDigits base digits,
    (s.takeWhile isSpace).length + signLength body + skip + digits.length)

/-- `(double)` of an integer of 64 bits. -/
def toDouble (v : ℤ) : ℤ := v.sign * round 53 v.natAbs

/-- The product of two `double`s that are integers. -/
def times (a b : ℤ) : ℤ := toDouble (a * b)

section

-- Whether the library sets `errno` to `EINVAL` when there is nothing to convert.
variable (einval : Bool)

/-- `strtoll(str, &end, 0)`: the number, where it ends, and `errno` then. -/
def strtoll (errno : ℤ) (s : Bytes) : ℤ × ℕ × ℤ :=
  match scan s with
  | none => (0, 0, if einval then EINVAL else errno)
  | some (neg, m, n) =>
    let v : ℤ := if neg then -m else m
    if v < -2 ^ 63 then (-2 ^ 63, n, ERANGE)
    else if 2 ^ 63 ≤ v then (2 ^ 63 - 1, n, ERANGE)
    else (v, n, errno)

/-- `strtoull(str, &end, 0)`; a minus sign negates modulo `2 ^ 64`. -/
def strtoull (errno : ℤ) (s : Bytes) : ℤ × ℕ × ℤ :=
  match scan s with
  | none => (0, 0, if einval then EINVAL else errno)
  | some (neg, m, n) =>
    if 2 ^ 64 ≤ m then (2 ^ 64 - 1, n, ERANGE)
    else (if neg then (-(m : ℤ)) % 2 ^ 64 else m, n, errno)

/-! ### The validators -/

/-- What a call leaves: the number in the destination (none for anything else), `errno`, and what it
returns. -/
structure Left where
  dst : Option ℤ
  errno : ℤ
  result : Parsed Unit

def notNumber (str name : Bytes) : Bytes :=
  ascii "error: value '" ++ str ++ ascii "' passed to flag '" ++ name ++
    ascii "' cannot be parsed as a number\n"

def notUnit (suffix : Bytes) : Bytes :=
  ascii "'" ++ suffix ++ ascii "' is not a supported data size unit " ++
    ascii "(use g,G for gigabytes, m,M for megabytes, " ++
    ascii "k,K for kilobytes or b, B for bytes)"

def cmdParseInteger (errno : ℤ) (str name : Bytes) : Left :=
  let (l, n, errno) := strtoll einval errno str
  { dst := some (toDouble l)
    errno
    result := if errno = ERANGE ∨ str.drop n ≠ [] then refuse (notNumber str name) else .set () }

/-- The units, in either case. -/
def unitOf (c : UInt8) : Option ℕ :=
  if c = 98 ∨ c = 66 then some 0
  else if c = 107 ∨ c = 75 then some 1
  else if c = 109 ∨ c = 77 then some 2
  else if c = 103 ∨ c = 71 then some 3
  else none

/-- `size * 1024 * … * 1024` -/
def scaled (size : ℤ) : ℕ → ℤ
  | 0 => size
  | k + 1 => times (scaled size k) 1024

def cmdParseByteSize (errno : ℤ) (dst : Option ℤ) (str name : Bytes) : Left :=
  let (l, n, errno) := strtoull einval errno str
  let size := toDouble l
  if errno = ERANGE then { dst, errno, result := refuse (notNumber str name) }
  else
    match str.drop n with
    | [] => { dst, errno, result := .set () }
    | [c] =>
      match unitOf c with
      | some 0 => { dst, errno, result := .set () }  -- `case 'b'`, which stores nothing
      | some k => { dst := some (scaled size k), errno, result := .set () }
      | none => { dst, errno, result := refuse (notUnit [c]) }
    | suffix => { dst, errno, result := refuse (notUnit suffix) }

/-- The calls that may come before; of one with a floating-point number it is told what it sets
`errno` to. -/
inductive Call where
  | integer (str name : CString)
  | byteSize (dst : Option ℤ) (str name : CString)
  | double (errno : Option ℤ)

def Call.errno (errno : ℤ) : Call → ℤ
  | integer str name => (cmdParseInteger einval errno str.bytes name.bytes).errno
  | byteSize dst str name => (cmdParseByteSize einval errno dst str.bytes name.bytes).errno
  | double set => set.getD errno

/-- What is in `errno` after some calls. -/
def errnoAfter (errno : ℤ) (calls : List Call) : ℤ := calls.foldl (Call.errno einval) errno

end

/-! ### What they should do -/

/-- An integer literal of a base, and its number. -/
inductive Literal : ℕ → Bytes → ℕ → Prop
  | decimal {ds : Bytes} (hne : ds ≠ []) (hhead : ds.head? ≠ some 48)
    (hds : ∀ d ∈ ds, digitValue d < 10) : Literal 10 ds (ofDigits 10 ds)
  | octal {ds : Bytes} (hds : ∀ d ∈ ds, digitValue d < 8) : Literal 8 (48 :: ds) (ofDigits 8 ds)
  | hex {x : UInt8} {ds : Bytes} (hx : x = 120 ∨ x = 88) (hne : ds ≠ [])
    (hds : ∀ d ∈ ds, digitValue d < 16) : Literal 16 (48 :: x :: ds) (ofDigits 16 ds)

/-- A literal, which a sign may precede, and spaces before that, as the library reads them. -/
def Written (base : ℕ) (s : Bytes) (v : ℤ) : Prop :=
  ∃ spaces sign lit m, s = spaces ++ sign ++ lit ∧ (∀ c ∈ spaces, isSpace c = true) ∧
    (sign = [] ∨ sign = [43] ∨ sign = [45]) ∧ Literal base lit m ∧
    v = if sign = [45] then -(m : ℤ) else m

/-- The whole text is an integer. -/
def Denotes (s : Bytes) (v : ℤ) : Prop := ∃ base, Written base s v

/-- The text is an integer and nothing else, or a unit behind it that is not one of its digits. -/
def OfSize (s : Bytes) (v : ℤ) (k : ℕ) : Prop :=
  ∃ base t unit, s = t ++ unit ∧ Written base t v ∧
    (unit = [] ∧ k = 0 ∨ ∃ c, unit = [c] ∧ unitOf c = some k ∧ base ≤ digitValue c)

/-- The values of `long long`. -/
def InRange (v : ℤ) : Prop := -2 ^ 63 ≤ v ∧ v < 2 ^ 63

/-- The values of `unsigned long long`. -/
def InSize (v : ℤ) : Prop := 0 ≤ v ∧ v < 2 ^ 64

/-- An integer in range is accepted and stored, and anything else is refused. -/
def IntegerRight (einval : Bool) (errno : ℤ) (str name : Bytes) : Prop :=
  let left := cmdParseInteger einval errno str name
  (∀ v, Denotes str v → InRange v → left.result = .set () ∧ left.dst = some v) ∧
    ((¬ ∃ v, Denotes str v ∧ InRange v) → ∃ error, left.result = .failed error)

def SizeRight (einval : Bool) (errno : ℤ) (dst : Option ℤ) (str name : Bytes) : Prop :=
  let left := cmdParseByteSize einval errno dst str name
  (∀ v k, OfSize str v k → InSize v → left.result = .set () ∧ left.dst = some (v * 1024 ^ k)) ∧
    ((¬ ∃ v k, OfSize str v k ∧ InSize v) → ∃ error, left.result = .failed error)

/-! ### When they do -/

/-- `errno` is clear and 53 bits hold the number; or the text is not empty, or `errno` is not, and
the error is short enough. -/
def IntegerGood (einval : Bool) (errno : ℤ) (str name : Bytes) : Prop :=
  (∀ v, Denotes str v → InRange v → errno ≠ ERANGE ∧ Representable 53 v.natAbs) ∧
    ((¬ ∃ v, Denotes str v ∧ InRange v) →
      (str = [] → einval = false ∧ errno = ERANGE) ∧ (notNumber str name).length < 128)

/-- A unit without a number, or nothing. -/
def Bare (str : Bytes) : Prop := str = [] ∨ ∃ c k, str = [c] ∧ unitOf c = some k

/-- `errno` is clear, and there is a unit and 53 bits hold the number, or there is none and the
destination has the number; or the text is neither bare nor a negative number, or `errno` is not
clear, and the error is short enough. -/
def SizeGood (einval : Bool) (errno : ℤ) (dst : Option ℤ) (str name : Bytes) : Prop :=
  (∀ v k, OfSize str v k → InSize v →
    errno ≠ ERANGE ∧ if k = 0 then dst = some v else Representable 53 v.natAbs) ∧
    ((¬ ∃ v k, OfSize str v k ∧ InSize v) →
      (Bare str → einval = false ∧ errno = ERANGE) ∧
      (∀ v k, OfSize str v k → -2 ^ 64 < v → v < 0 → errno = ERANGE) ∧
      (if (strtoull einval errno str).2.2 = ERANGE then notNumber str name
        else notUnit (str.drop (strtoull einval errno str).2.1)).length < 128)

variable {einval neg : Bool} {s t ds lit rest spaces sign str name : Bytes} {v errno : ℤ}
  {base m n k : ℕ} {dst : Option ℤ} {c : UInt8}

/-! ### Literals -/

theorem digitValue_lt (h : digitValue c < 16) :
    isSpace c = false ∧ c ≠ 43 ∧ c ≠ 45 ∧ c ≠ 120 ∧ c ≠ 88 := by
  have hall : ∀ c : UInt8, digitValue c < 16 →
      isSpace c = false ∧ c ≠ 43 ∧ c ≠ 45 ∧ c ≠ 120 ∧ c ≠ 88 := forall_byte (by decide +kernel)
  exact hall c h

theorem takeWhile_digits (hds : ∀ d ∈ ds, digitValue d < base)
    (hrest : ∀ c ∈ rest.head?, base ≤ digitValue c) :
    (ds ++ rest).takeWhile (digitValue · < base) = ds := by
  rw [List.takeWhile_append_of_pos fun d hd => decide_eq_true (hds d hd)]
  cases rest with
  | nil => exact List.append_nil ds
  | cons c rest =>
    rw [List.takeWhile_cons_of_neg, List.append_nil]
    simpa using hrest c rfl

/-- A literal tells its base, and where its digits are. -/
theorem Literal.scanned (h : Literal base lit m) (hrest : ∀ c ∈ rest.head?, base ≤ digitValue c)
    (hshort : rest.length ≤ 1) : ∃ skip, baseOf (lit ++ rest) = (base, skip) ∧
      ofDigits base (((lit ++ rest).drop skip).takeWhile (digitValue · < base)) = m ∧
      skip + (((lit ++ rest).drop skip).takeWhile (digitValue · < base)).length = lit.length ∧
      ((lit ++ rest).drop skip).takeWhile (digitValue · < base) ≠ [] := by
  cases h with
  | decimal hne hhead hds =>
    obtain ⟨d, ds, rfl⟩ := List.exists_cons_of_ne_nil hne
    have hd : d ≠ 48 := fun heq => hhead (congrArg some heq)
    have hbase : baseOf (d :: ds ++ rest) = (10, 0) := by
      simp [baseOf, hexPrefix, hd]
    refine ⟨0, hbase, ?_⟩
    rw [List.drop_zero, takeWhile_digits hds hrest]
    exact ⟨rfl, Nat.zero_add _, hne⟩
  | octal hds =>
    rename_i ds
    have hdigits : ∀ d ∈ 48 :: ds, digitValue d < 8 := List.forall_mem_cons.mpr ⟨by decide, hds⟩
    have hbase : baseOf (48 :: ds ++ rest) = (8, 0) := by
      have hno : hexPrefix (48 :: ds ++ rest) = false := by
        cases ds with
        | nil =>
          -- two more characters would be needed behind the zero
          have hthird : (48 :: [] ++ rest)[2]? = none := by
            rw [List.getElem?_eq_none]
            simpa using hshort
          rw [hexPrefix, hthird]
          exact Bool.and_false _
        | cons d ds =>
          obtain ⟨-, -, -, hx, hX⟩ :=
            digitValue_lt ((hds d List.mem_cons_self).trans (by decide))
          simp [hexPrefix, hx, hX]
      rw [baseOf, hno, if_neg Bool.false_ne_true]
      exact if_pos rfl
    refine ⟨0, hbase, ?_⟩
    rw [List.drop_zero, takeWhile_digits hdigits hrest]
    exact ⟨rfl, Nat.zero_add _, List.cons_ne_nil _ _⟩
  | hex hx hne hds =>
    rename_i x ds
    obtain ⟨d, ds, rfl⟩ := List.exists_cons_of_ne_nil hne
    have hd := hds d List.mem_cons_self
    have hyes : hexPrefix (48 :: x :: d :: ds ++ rest) = true := by
      rcases hx with rfl | rfl
      · simpa [hexPrefix] using hd
      · simpa [hexPrefix] using hd
    refine ⟨2, if_pos hyes, ?_⟩
    rw [show (48 :: x :: d :: ds ++ rest).drop 2 = d :: ds ++ rest from rfl,
      takeWhile_digits hds hrest]
    exact ⟨rfl, by simp only [List.length_cons]; omega, hne⟩

/-- A literal begins with a digit. -/
theorem Literal.head (h : Literal base lit m) : ∃ d t, lit = d :: t ∧ digitValue d < 16 := by
  cases h with
  | decimal hne hhead hds =>
    obtain ⟨d, ds, rfl⟩ := List.exists_cons_of_ne_nil hne
    exact ⟨d, ds, rfl, (hds d List.mem_cons_self).trans (by decide)⟩
  | octal hds => exact ⟨48, _, rfl, by decide⟩
  | hex hx hne hds => exact ⟨48, _, rfl, by decide⟩

/-- **A literal is scanned**, up to a character that is not one of its digits. -/
theorem scan_written (h : Written base s v) (hrest : ∀ c ∈ rest.head?, base ≤ digitValue c)
    (hshort : rest.length ≤ 1) :
    ∃ neg m, scan (s ++ rest) = some (neg, m, s.length) ∧ v = if neg then -(m : ℤ) else m := by
  obtain ⟨spaces, sign, lit, m, rfl, hspaces, hsign, hlit, rfl⟩ := h
  obtain ⟨skip, hbase, hvalue, hlen, hne⟩ := hlit.scanned hrest hshort
  obtain ⟨d, t, rfl, hd⟩ := hlit.head
  obtain ⟨hblank, hplus, hminus, -⟩ := digitValue_lt hd
  -- what is left behind the spaces begins with the sign, or with a digit
  have hbody : (spaces ++ sign ++ (d :: t) ++ rest).dropWhile isSpace =
      sign ++ (d :: t ++ rest) := by
    rw [List.append_assoc, List.append_assoc, List.dropWhile_append_of_pos hspaces]
    rcases hsign with rfl | rfl | rfl
    · exact List.dropWhile_cons_of_neg (by rw [hblank]; decide)
    · rfl
    · rfl
  have htake : (spaces ++ sign ++ (d :: t) ++ rest).takeWhile isSpace = spaces := by
    rw [List.append_assoc, List.append_assoc, List.takeWhile_append_of_pos hspaces]
    rcases hsign with rfl | rfl | rfl
    · rw [List.nil_append, List.cons_append,
        List.takeWhile_cons_of_neg (by rw [hblank]; decide), List.append_nil]
    · exact List.append_nil spaces
    · exact List.append_nil spaces
  have hsignLength : signLength (sign ++ (d :: t ++ rest)) = sign.length := by
    rcases hsign with rfl | rfl | rfl
    · simp [signLength, hplus, hminus]
    · rfl
    · rfl
  have hneg : ((sign ++ (d :: t ++ rest)).head? = some 45) = (sign = [45]) := by
    rcases hsign with rfl | rfl | rfl
    · simp [hminus]
    · simp
    · simp
  refine ⟨decide (sign = [45]), m, ?_, by simp⟩
  rw [scan, hbody, htake, hsignLength]
  dsimp only
  rw [List.drop_left, hbase]
  dsimp only
  rw [if_neg hne, hvalue, Option.some_inj]
  simp only [hneg, List.length_append, Prod.mk.injEq, true_and]
  omega

/-- The digits behind the prefix, and the prefix, are a literal. -/
theorem Literal.of_baseOf {skip : ℕ} (hbase : baseOf s = (base, skip))
    (hne : (s.drop skip).takeWhile (digitValue · < base) ≠ []) :
    ∃ lit rest, s = lit ++ rest ∧
      lit.length = skip + ((s.drop skip).takeWhile (digitValue · < base)).length ∧
      Literal base lit (ofDigits base ((s.drop skip).takeWhile (digitValue · < base))) ∧
      ∀ c ∈ rest.head?, base ≤ digitValue c := by
  have hrest : ∀ c ∈ ((s.drop skip).dropWhile (digitValue · < base)).head?,
      base ≤ digitValue c := by
    intro c hc
    have hnot := List.head?_dropWhile_not (digitValue · < base) (s.drop skip)
    rw [Option.mem_def.mp hc] at hnot
    simpa using hnot
  have hsplit := @List.takeWhile_append_dropWhile _ (digitValue · < base) (s.drop skip)
  have hdigits : ∀ d ∈ (s.drop skip).takeWhile (digitValue · < base), digitValue d < base :=
    fun d hd => of_decide_eq_true (@List.mem_takeWhile_imp _ (digitValue · < base) _ _ hd)
  rw [baseOf] at hbase
  by_cases hhex : hexPrefix s = true
  · rw [if_pos hhex] at hbase
    obtain ⟨rfl, rfl⟩ := Prod.mk.inj hbase
    match s, hhex with
    | c :: x :: tail, hhex =>
      simp only [hexPrefix, List.head?_cons, List.getElem?_cons_succ, List.getElem?_cons_zero,
        Bool.and_eq_true, Bool.or_eq_true, beq_iff_eq, Option.some_inj] at hhex
      obtain ⟨⟨rfl, hx⟩, -⟩ := hhex
      refine ⟨_, _, ?_, ?_, .hex hx hne hdigits, hrest⟩
      · exact congrArg (48 :: x :: ·) hsplit.symm
      · simp only [List.length_cons]
        omega
  · rw [if_neg hhex] at hbase
    by_cases hzero : s.head? = some 48
    · rw [if_pos hzero] at hbase
      obtain ⟨rfl, rfl⟩ := Prod.mk.inj hbase
      obtain ⟨tail, rfl⟩ := List.head?_eq_some_iff.mp hzero
      rw [List.drop_zero] at hsplit hdigits hrest ⊢
      have htake : (48 :: tail).takeWhile (digitValue · < 8) =
          48 :: tail.takeWhile (digitValue · < 8) := List.takeWhile_cons_of_pos (by decide)
      rw [htake] at hsplit hdigits ⊢
      exact ⟨_, _, hsplit.symm, (Nat.zero_add _).symm,
        .octal (List.forall_mem_cons.mp hdigits).2, hrest⟩
    · rw [if_neg hzero] at hbase
      obtain ⟨rfl, rfl⟩ := Prod.mk.inj hbase
      rw [List.drop_zero] at hne hsplit hdigits hrest ⊢
      refine ⟨_, _, hsplit.symm, (Nat.zero_add _).symm, .decimal hne ?_ hdigits, hrest⟩
      rw [List.head?_takeWhile]
      exact fun h => hzero (Option.eq_some_of_filter_eq_some h)

/-- The sign before a number. -/
theorem exists_sign (s : Bytes) : ∃ sign, s = sign ++ s.drop (signLength s) ∧
    sign.length = signLength s ∧ (sign = [] ∨ sign = [43] ∨ sign = [45]) ∧
    (s.head? = some 45 ↔ sign = [45]) := by
  by_cases hplus : s.head? = some 43
  · obtain ⟨t, rfl⟩ := List.head?_eq_some_iff.mp hplus
    exact ⟨[43], rfl, rfl, .inr (.inl rfl), by simp⟩
  · by_cases hminus : s.head? = some 45
    · obtain ⟨t, rfl⟩ := List.head?_eq_some_iff.mp hminus
      exact ⟨[45], rfl, rfl, .inr (.inr rfl), by simp⟩
    · rw [signLength, if_neg (not_or.mpr ⟨hplus, hminus⟩)]
      exact ⟨[], rfl, rfl, .inl rfl, by simp [hminus]⟩

/-- **What is scanned is a literal**, up to the first character that is not one of its digits. -/
theorem written_of_scan (h : scan s = some (neg, m, n)) :
    ∃ base t rest, s = t ++ rest ∧ t.length = n ∧
      Written base t (if neg then -(m : ℤ) else m) ∧ ∀ c ∈ rest.head?, base ≤ digitValue c := by
  have hspaces := @List.takeWhile_append_dropWhile _ isSpace s
  rw [scan] at h
  generalize s.dropWhile isSpace = body at *
  obtain ⟨sign, hsign, hsignLength, hsigns, hminus⟩ := exists_sign body
  generalize body.drop (signLength body) = numeral at *
  cases hbase : baseOf numeral with
  | mk base skip =>
    dsimp only at h
    rw [hbase] at h
    dsimp only at h
    split_ifs at h with hne
    obtain ⟨hneg, rfl, rfl⟩ : decide (body.head? = some 45) = neg ∧ _ ∧ _ := by simpa using h
    obtain ⟨lit, rest, rfl, hlen, hlit, hrest⟩ := Literal.of_baseOf hbase hne
    refine ⟨base, s.takeWhile isSpace ++ sign ++ lit, rest, ?_, ?_, ?_, hrest⟩
    · rw [List.append_assoc, List.append_assoc, ← hsign, hspaces]
    · simp only [List.length_append, hlen, hsignLength]
      omega
    · refine ⟨_, sign, lit, _, rfl, fun c hc => List.mem_takeWhile_imp hc, hsigns, hlit, ?_⟩
      rw [← hneg]
      simp only [decide_eq_true_eq, hminus]

/-- A whole text is an integer when it is scanned to its end. -/
theorem denotes_iff : Denotes s v ↔
    ∃ neg m, scan s = some (neg, m, s.length) ∧ v = if neg then -(m : ℤ) else m := by
  constructor
  · rintro ⟨base, hwritten⟩
    have hscan := @scan_written s [] v base hwritten (fun c hc => by cases hc) (Nat.zero_le 1)
    rw [List.append_nil] at hscan
    exact hscan
  · rintro ⟨neg, m, hscan, rfl⟩
    obtain ⟨base, t, rest, hs, hlen, hwritten, -⟩ := written_of_scan hscan
    obtain rfl : rest = [] := by
      rw [← List.length_eq_zero_iff]
      have hall := congrArg List.length hs
      rw [List.length_append] at hall
      omega
    rw [List.append_nil] at hs
    exact ⟨base, hs ▸ hwritten⟩

/-- A text is a size when nothing or a unit is left behind what is scanned. -/
theorem ofSize_iff : OfSize s v k ↔ ∃ neg m n, scan s = some (neg, m, n) ∧
    (v = if neg then -(m : ℤ) else m) ∧
    (s.drop n = [] ∧ k = 0 ∨ ∃ c, s.drop n = [c] ∧ unitOf c = some k) := by
  constructor
  · rintro ⟨base, t, unit, rfl, hwritten, hunit⟩
    have hends : (∀ c ∈ unit.head?, base ≤ digitValue c) ∧ unit.length ≤ 1 := by
      rcases hunit with ⟨rfl, -⟩ | ⟨c, rfl, -, hdigit⟩
      · exact ⟨fun c hc => absurd hc (Option.not_mem_none c), Nat.zero_le 1⟩
      · exact ⟨fun c' hc => Option.some.inj hc ▸ hdigit, le_rfl⟩
    obtain ⟨neg, m, hscan, rfl⟩ := scan_written hwritten hends.1 hends.2
    refine ⟨neg, m, _, hscan, rfl, ?_⟩
    rw [List.drop_left]
    exact hunit.imp_right fun ⟨c, hc, hk, _⟩ => ⟨c, hc, hk⟩
  · rintro ⟨neg, m, n, hscan, rfl, hunit⟩
    obtain ⟨base, t, rest, rfl, rfl, hwritten, hrest⟩ := written_of_scan hscan
    rw [List.drop_left] at hunit
    refine ⟨base, t, rest, rfl, hwritten, hunit.imp_right ?_⟩
    rintro ⟨c, rfl, hk⟩
    exact ⟨c, rfl, hk, hrest c rfl⟩

/-! ### `double`s -/

theorem toDouble_eq_self_iff : toDouble v = v ↔ Representable 53 v.natAbs := by
  rw [← round_eq_self_iff (by decide)]
  constructor
  · intro h
    rw [toDouble] at h
    rcases eq_or_ne v 0 with rfl | hne
    · rfl
    · have habs := congrArg Int.natAbs h
      rwa [Int.natAbs_mul, Int.natAbs_sign_of_ne_zero hne, one_mul, Int.natAbs_natCast] at habs
  · intro h
    rw [toDouble, h]
    exact Int.sign_mul_natAbs v

theorem representable_toDouble (v : ℤ) : Representable 53 (toDouble v).natAbs := by
  rcases eq_or_ne v 0 with rfl | hne
  · exact ⟨0, 0, by decide, rfl⟩
  · rw [toDouble, Int.natAbs_mul, Int.natAbs_sign_of_ne_zero hne, one_mul, Int.natAbs_natCast]
    exact representable_round (by decide) _

/-- A unit is multiplied exactly. -/
theorem scaled_eq (h : Representable 53 v.natAbs) (k : ℕ) : scaled v k = v * 1024 ^ k := by
  induction k with
  | zero => exact (mul_one v).symm
  | succ k ih =>
    have hrep : Representable 53 (v * 1024 ^ k * 1024).natAbs := by
      rw [mul_assoc, ← pow_succ, Int.natAbs_mul, Int.natAbs_pow,
        show (1024 : ℤ).natAbs = 2 ^ 10 from rfl, ← pow_mul]
      exact h.mul_two_pow _
    rw [scaled, ih, times, toDouble_eq_self_iff.mpr hrep, pow_succ, mul_assoc]

theorem scaled_toDouble_iff : scaled (toDouble v) k = v * 1024 ^ k ↔ Representable 53 v.natAbs := by
  rw [scaled_eq (representable_toDouble v), ← toDouble_eq_self_iff]
  exact mul_left_inj' (pow_ne_zero k (by decide))

/-! ### The validators, for one call -/

theorem refuse_eq_failed_iff {error : Bytes} :
    (∃ e, (refuse error : Parsed Unit) = .failed e) ↔ error.length < 128 := by
  rw [refuse]
  split_ifs with h
  · exact iff_of_true ⟨_, rfl⟩ h
  · refine iff_of_false ?_ h
    rintro ⟨e, heq⟩
    cases heq

theorem refuse_ne_set {error : Bytes} : (refuse error : Parsed Unit) ≠ .set () := by
  rw [refuse]
  split_ifs
  · exact fun heq => by cases heq
  · exact fun heq => by cases heq

/-- Nothing is converted of the empty text and of a unit. -/
theorem scan_bare (h : Bare s) : scan s = none := by
  rcases h with rfl | ⟨c, k, rfl, hk⟩
  · rfl
  · have hall : ∀ c : UInt8, (unitOf c).isSome = true → scan [c] = none :=
      forall_byte (by decide +kernel)
    exact hall c (by rw [hk]; rfl)

/-- What `strtoll` comes to when it ends at the end of the text and leaves `errno` clear. -/
theorem strtoll_accepts (herr : (strtoll einval errno s).2.2 ≠ ERANGE)
    (hend : s.drop (strtoll einval errno s).2.1 = []) :
    s = [] ∧ ¬ (einval = false ∧ errno = ERANGE) ∨ ∃ v, Denotes s v ∧ InRange v := by
  rw [strtoll] at herr hend
  cases hscan : scan s with
  | none =>
    rw [hscan] at herr hend
    refine .inl ⟨hend, fun ⟨he, hstale⟩ => herr ?_⟩
    rw [he, hstale]
    rfl
  | some found =>
    obtain ⟨neg, m, n⟩ := found
    rw [hscan] at herr hend
    dsimp only at herr hend
    generalize hv : (if neg = true then -(m : ℤ) else m) = v at herr hend
    split_ifs at herr hend with hlow hhigh
    · exact absurd rfl herr
    · exact absurd rfl herr
    · have hle : s.length ≤ n := List.drop_eq_nil_iff.mp hend
      obtain ⟨base, t, rest, rfl, rfl, -, -⟩ := written_of_scan hscan
      have hn : t.length = (t ++ rest).length := by
        rw [List.length_append] at hle ⊢
        omega
      exact .inr ⟨v, denotes_iff.mpr ⟨neg, m, hn ▸ hscan, hv.symm⟩, not_lt.mp hlow,
        not_le.mp hhigh⟩

/-- **`cmdParseInteger`.** -/
theorem integerRight_iff (einval : Bool) (errno : ℤ) (str name : Bytes) :
    IntegerRight einval errno str name ↔ IntegerGood einval errno str name := by
  have hclear : EINVAL ≠ ERANGE := by decide
  rw [IntegerRight, IntegerGood]
  refine and_congr ?_ ?_
  · -- an integer in range is what `strtoll` returns
    refine forall_congr' fun v => imp_congr_right fun hden => imp_congr_right fun hrange => ?_
    obtain ⟨neg, m, hscan, rfl⟩ := denotes_iff.mp hden
    obtain ⟨hlow, hhigh⟩ := hrange
    have hstrtoll : strtoll einval errno str =
        (if neg then -(m : ℤ) else m, str.length, errno) := by
      rw [strtoll, hscan]
      dsimp only
      rw [if_neg (not_lt.mpr hlow), if_neg (not_le.mpr hhigh)]
    rw [cmdParseInteger, hstrtoll]
    dsimp only
    rw [List.drop_length, Option.some_inj, toDouble_eq_self_iff]
    refine and_congr_left fun _ => ?_
    split_ifs with herr
    · refine iff_of_false refuse_ne_set fun hne => ?_
      rcases herr with herr | herr
      · exact hne herr
      · exact herr rfl
    · exact iff_of_true rfl fun h => herr (.inl h)
  · refine imp_congr_right fun hnot => ?_
    rw [cmdParseInteger]
    dsimp only
    split_ifs with herr
    · rw [refuse_eq_failed_iff]
      refine (and_iff_right fun hnil => ?_).symm
      -- of the empty text nothing is converted
      rw [hnil, strtoll, scan_bare (.inl rfl)] at herr
      cases einval with
      | true => exact absurd herr (not_or.mpr ⟨hclear, fun h => h rfl⟩)
      | false => exact ⟨rfl, herr.resolve_right fun h => h rfl⟩
    · obtain ⟨herr, hend⟩ := not_or.mp herr
      refine iff_of_false (fun ⟨_, heq⟩ => by cases heq) fun ⟨hempty, _⟩ => ?_
      rcases strtoll_accepts herr (not_not.mp hend) with ⟨hnil, hstale⟩ | hden
      · exact hstale (hempty hnil)
      · exact hnot hden

/-- A number in range, as `strtoull` returns it. -/
theorem strtoull_of_inSize (hscan : scan s = some (neg, m, n))
    (h : InSize (if neg then -(m : ℤ) else m)) :
    strtoull einval errno s = (if neg then -(m : ℤ) else m, n, errno) := by
  obtain ⟨hlow, hhigh⟩ := h
  rw [strtoull, hscan]
  cases neg with
  | true =>
    rw [if_pos rfl] at hlow ⊢
    obtain rfl : m = 0 := by omega
    rfl
  | false =>
    rw [if_neg Bool.false_ne_true] at hhigh ⊢
    exact if_neg (by omega)

section

variable {l errno' : ℤ}

/-- A number with nothing or a unit behind it is accepted. -/
theorem byteSize_of_bare (hconv : strtoull einval errno s = (l, n, errno'))
    (hclear : errno' ≠ ERANGE)
    (hunit : s.drop n = [] ∧ k = 0 ∨ ∃ c, s.drop n = [c] ∧ unitOf c = some k) :
    cmdParseByteSize einval errno dst s name =
      ⟨if k = 0 then dst else some (scaled (toDouble l) k), errno', .set ()⟩ := by
  rw [cmdParseByteSize, hconv]
  dsimp only
  rw [if_neg hclear]
  rcases hunit with ⟨hnil, rfl⟩ | ⟨c, hc, hk⟩
  · rw [hnil]
    rfl
  · rw [hc]
    dsimp only
    rw [hk]
    cases k with
    | zero => rfl
    | succ k => rfl

/-- With anything else behind it, it is refused. -/
theorem byteSize_of_not_bare (hconv : strtoull einval errno s = (l, n, errno'))
    (hclear : errno' ≠ ERANGE) (hunit : ¬ Bare (s.drop n)) :
    (cmdParseByteSize einval errno dst s name).result = refuse (notUnit (s.drop n)) := by
  rw [cmdParseByteSize, hconv]
  dsimp only
  rw [if_neg hclear]
  generalize s.drop n = suffix at hunit ⊢
  match suffix with
  | [] => exact absurd (.inl rfl) hunit
  | [c] =>
    have hc : unitOf c = none := by
      by_contra hne
      obtain ⟨k, hk⟩ := Option.ne_none_iff_exists'.mp hne
      exact hunit (.inr ⟨c, k, rfl, hk⟩)
    dsimp only
    rw [hc]
  | _ :: _ :: _ => rfl

theorem byteSize_of_range (hconv : strtoull einval errno s = (l, n, ERANGE)) :
    (cmdParseByteSize einval errno dst s name).result = refuse (notNumber s name) := by
  rw [cmdParseByteSize, hconv]
  exact congrArg Left.result (if_pos rfl)

/-- What is converted when `errno` is left clear: nothing, or a number of at most 64 bits, which a
minus sign may precede. -/
theorem strtoull_clear (hconv : strtoull einval errno s = (l, n, errno'))
    (hclear : errno' ≠ ERANGE) :
    scan s = none ∧ n = 0 ∧ ¬ (einval = false ∧ errno = ERANGE) ∨
      ∃ neg m, scan s = some (neg, m, n) ∧ m < 2 ^ 64 ∧ errno = errno' := by
  rw [strtoull] at hconv
  cases hscan : scan s with
  | none =>
    rw [hscan] at hconv
    obtain ⟨-, rfl, rfl⟩ := by simpa using hconv
    refine .inl ⟨rfl, rfl, fun ⟨he, hstale⟩ => hclear ?_⟩
    rw [he, hstale]
    rfl
  | some found =>
    obtain ⟨neg, m, n'⟩ := found
    rw [hscan] at hconv
    dsimp only at hconv
    by_cases hm : 2 ^ 64 ≤ m
    · rw [if_pos hm] at hconv
      obtain ⟨-, -, rfl⟩ := by simpa using hconv
      exact absurd rfl hclear
    · rw [if_neg hm] at hconv
      obtain ⟨-, rfl, rfl⟩ := by simpa using hconv
      exact .inr ⟨neg, m, rfl, not_le.mp hm, rfl⟩

theorem bare_iff : Bare s ↔ ∃ k, s = [] ∧ k = 0 ∨ ∃ c, s = [c] ∧ unitOf c = some k := by
  constructor
  · rintro (rfl | ⟨c, k, rfl, hk⟩)
    · exact ⟨0, .inl ⟨rfl, rfl⟩⟩
    · exact ⟨k, .inr ⟨c, rfl, hk⟩⟩
  · rintro ⟨k, ⟨rfl, -⟩ | ⟨c, rfl, hk⟩⟩
    · exact .inl rfl
    · exact .inr ⟨c, k, rfl, hk⟩

/-- What a bare unit, and a number of 64 bits, leave in `errno`. -/
theorem strtoull_errno (hconv : strtoull einval errno s = (l, n, errno')) :
    (Bare s → errno' = if einval then EINVAL else errno) ∧
      ∀ v k, OfSize s v k → -2 ^ 64 < v → v < 2 ^ 64 → errno' = errno := by
  constructor
  · intro hbare
    rw [strtoull, scan_bare hbare] at hconv
    exact (congrArg (fun x => x.2.2) hconv).symm
  · intro v k hsize hlow hhigh
    obtain ⟨neg, m, n', hscan, rfl, -⟩ := ofSize_iff.mp hsize
    have hm : ¬ 2 ^ 64 ≤ m := by
      split_ifs at hlow hhigh <;> omega
    rw [strtoull, hscan] at hconv
    dsimp only at hconv
    rw [if_neg hm] at hconv
    exact (congrArg (fun x => x.2.2) hconv).symm

end

/-- **`cmdParseByteSize`.** -/
theorem sizeRight_iff (einval : Bool) (errno : ℤ) (dst : Option ℤ) (str name : Bytes) :
    SizeRight einval errno dst str name ↔ SizeGood einval errno dst str name := by
  rw [SizeRight, SizeGood]
  refine and_congr ?_ ?_
  · refine forall₂_congr fun v k => imp_congr_right fun hsize => imp_congr_right fun hrange => ?_
    obtain ⟨neg, m, n, hscan, rfl, hunit⟩ := ofSize_iff.mp hsize
    have hconv := @strtoull_of_inSize einval neg str errno m n hscan hrange
    by_cases hclear : errno = ERANGE
    · subst hclear
      rw [byteSize_of_range hconv]
      exact iff_of_false (fun h => refuse_ne_set h.1) fun h => h.1 rfl
    · rw [byteSize_of_bare hconv hclear hunit]
      dsimp only
      rw [and_iff_right rfl, and_iff_right hclear]
      by_cases hk : k = 0
      · rw [if_pos hk, if_pos hk, hk, pow_zero, mul_one]
      · rw [if_neg hk, if_neg hk, Option.some_inj]
        exact scaled_toDouble_iff
  · refine imp_congr_right fun hnot => ?_
    generalize hconv : strtoull einval errno str = found
    obtain ⟨l, n, errno'⟩ := found
    obtain ⟨hbare, hnumber⟩ := strtoull_errno hconv
    dsimp only
    by_cases hclear : errno' = ERANGE
    · subst hclear
      rw [byteSize_of_range hconv, refuse_eq_failed_iff, if_pos rfl]
      refine ⟨fun hlen => ⟨fun hb => ?_, fun v k hsize hlow hneg => ?_, hlen⟩, fun h => h.2.2⟩
      · have herr := hbare hb
        cases einval with
        | true =>
          rw [if_pos rfl] at herr
          exact absurd herr (by decide)
        | false => exact ⟨rfl, herr.symm⟩
      · exact (hnumber v k hsize hlow (by omega)).symm
    · rw [if_neg hclear]
      by_cases hunit : Bare (str.drop n)
      · -- it is accepted, and should be refused
        obtain ⟨k, hk⟩ := bare_iff.mp hunit
        rw [byteSize_of_bare hconv hclear hk]
        refine iff_of_false (fun ⟨_, heq⟩ => by cases heq) fun ⟨hempty, hminus, _⟩ => ?_
        rcases strtoull_clear hconv hclear with ⟨-, rfl, hstale⟩ | ⟨neg, m, hscan, hm, rfl⟩
        · exact hstale (hempty hunit)
        · have hsize := ofSize_iff.mpr ⟨neg, m, n, hscan, rfl, hk⟩
          by_cases hneg : (if neg = true then -(m : ℤ) else m) < 0
          · refine hclear (hminus _ k hsize ?_ hneg)
            split_ifs <;> omega
          · refine hnot ⟨_, k, hsize, not_lt.mp hneg, ?_⟩
            split_ifs <;> omega
      · rw [byteSize_of_not_bare hconv hclear hunit, refuse_eq_failed_iff]
        refine ⟨fun hlen => ⟨fun hb => ?_, fun v k hsize hlow hneg => ?_, hlen⟩, fun h => h.2.2⟩
        · rcases strtoull_clear hconv hclear with ⟨-, rfl, -⟩ | ⟨neg, m, hscan, -⟩
          · exact absurd hb hunit
          · rw [scan_bare hb] at hscan
            cases hscan
        · obtain ⟨neg, m, n', hscan, -, hk⟩ := ofSize_iff.mp hsize
          rcases strtoull_clear hconv hclear with ⟨hnone, -⟩ | ⟨neg', m', hscan', -⟩
          · rw [hnone] at hscan
            cases hscan
          · rw [hscan] at hscan'
            cases hscan'
            exact absurd (bare_iff.mpr ⟨k, hk⟩) hunit

/-! ### Earlier calls -/

/-- What a call sets `errno` to, if it does. -/
def Call.sets (einval : Bool) : Call → Option ℤ
  | integer str _ =>
    match scan str.bytes with
    | none => if einval then some EINVAL else none
    | some (neg, m, _) =>
      let v : ℤ := if neg then -m else m
      if v < -2 ^ 63 ∨ 2 ^ 63 ≤ v then some ERANGE else none
  | byteSize _ str _ =>
    match scan str.bytes with
    | none => if einval then some EINVAL else none
    | some (_, m, _) => if 2 ^ 64 ≤ m then some ERANGE else none
  | double set => set

theorem byteSize_errno (einval : Bool) (errno : ℤ) (dst : Option ℤ) (str name : Bytes) :
    (cmdParseByteSize einval errno dst str name).errno = (strtoull einval errno str).2.2 := by
  rw [cmdParseByteSize]
  dsimp only
  split_ifs
  · rfl
  · split
    · rfl
    · split <;> rfl
    · rfl

/-- No call clears `errno`. -/
theorem Call.errno_eq (einval : Bool) (errno : ℤ) (call : Call) :
    call.errno einval errno = (call.sets einval).getD errno := by
  cases call with
  | integer str name =>
    show (strtoll einval errno str.bytes).2.2 = _
    rw [strtoll, Call.sets]
    cases scan str.bytes with
    | none => cases einval <;> rfl
    | some found =>
      obtain ⟨neg, m, n⟩ := found
      dsimp only
      generalize (if neg = true then -(m : ℤ) else m) = v
      by_cases hlow : v < -2 ^ 63
      · rw [if_pos hlow, if_pos (.inl hlow)]
        rfl
      · by_cases hhigh : 2 ^ 63 ≤ v
        · rw [if_neg hlow, if_pos hhigh, if_pos (.inr hhigh)]
          rfl
        · rw [if_neg hlow, if_neg hhigh, if_neg (not_or.mpr ⟨hlow, hhigh⟩)]
          rfl
  | byteSize dst str name =>
    rw [Call.errno, byteSize_errno, strtoull, Call.sets]
    cases scan str.bytes with
    | none => cases einval <;> rfl
    | some found =>
      obtain ⟨neg, m, n⟩ := found
      dsimp only
      split_ifs <;> rfl
  | double set => rfl

/-- **What earlier calls leave in `errno`** is what the last of them set that set it at all. -/
theorem errnoAfter_eq (einval : Bool) (errno : ℤ) (calls : List Call) :
    errnoAfter einval errno calls =
      (calls.filterMap (Call.sets einval)).getLast?.getD errno := by
  induction calls using List.reverseRecOn with
  | nil => rfl
  | append_singleton calls call ih =>
    rw [errnoAfter, List.foldl_append, List.filterMap_append]
    show call.errno einval (errnoAfter einval errno calls) = _
    rw [Call.errno_eq, ih]
    cases hset : call.sets einval with
    | none => rw [List.filterMap_cons_none hset, List.filterMap_nil, List.append_nil]; rfl
    | some e =>
      rw [List.filterMap_cons_some hset, List.filterMap_nil, List.getLast?_concat]
      rfl

/-- **When a text is accepted as what it is**, after any earlier calls. -/
theorem numbers_right_iff (einval : Bool) (errno : ℤ) (calls : List Call) (dst : Option ℤ)
    (str name : CString) :
    let before := (calls.filterMap (Call.sets einval)).getLast?.getD errno
    (IntegerRight einval (errnoAfter einval errno calls) str.bytes name.bytes ↔
      IntegerGood einval before str.bytes name.bytes) ∧
    (SizeRight einval (errnoAfter einval errno calls) dst str.bytes name.bytes ↔
      SizeGood einval before dst str.bytes name.bytes) := by
  rw [← errnoAfter_eq]
  exact ⟨integerRight_iff _ _ _ _, sizeRight_iff _ _ _ _ _⟩

/-- A number too large, which fails and leaves `ERANGE`. -/
def tooLarge : Call := .integer ⟨ascii "9223372036854775808", by decide⟩ ⟨ascii "n", by decide⟩

/-- `5` is refused after a number that was too large; the empty text is accepted; `2 ^ 53 + 1` is
rounded; `512` bytes are not stored; `-1` is accepted as a size. -/
theorem not_numbers_right :
    ¬ IntegerRight false (errnoAfter false 0 [tooLarge]) (ascii "5") (ascii "n") ∧
    ¬ IntegerRight false 0 [] (ascii "n") ∧
    ¬ IntegerRight false 0 (ascii "9007199254740993") (ascii "n") ∧
    ¬ SizeRight false 0 none (ascii "512") (ascii "n") ∧
    ¬ SizeRight false 0 none (ascii "-1k") (ascii "n") := by
  simp only [integerRight_iff, sizeRight_iff]
  have hnil : ¬ ∃ v, Denotes [] v ∧ InRange v := by
    rintro ⟨v, hden, -⟩
    obtain ⟨neg, m, hscan, -⟩ := denotes_iff.mp hden
    cases hscan
  have hminus : ∀ v k, OfSize (ascii "-1k") v k → v = -1 := by
    intro v k h
    obtain ⟨neg, m, n, hscan, hv, -⟩ := ofSize_iff.mp h
    rw [show scan (ascii "-1k") = some (true, 1, 2) by decide] at hscan
    cases hscan
    exact hv
  refine ⟨fun h => ?_, fun h => ?_, fun h => ?_, fun h => ?_, fun h => ?_⟩
  · exact (h.1 5 (denotes_iff.mpr ⟨false, 5, by decide, rfl⟩) ⟨by decide, by decide⟩).1 (by decide)
  · exact absurd ((h.2 hnil).1 rfl).2 (by decide)
  · have hrep := (h.1 9007199254740993
      (denotes_iff.mpr ⟨false, 9007199254740993, by decide, rfl⟩) ⟨by decide, by decide⟩).2
    rw [← round_eq_self_iff (by decide)] at hrep
    revert hrep
    decide +kernel
  · have hdst := (h.1 512 0 (ofSize_iff.mpr ⟨false, 512, 3, by decide, rfl, .inl ⟨by decide, rfl⟩⟩)
      ⟨by decide, by decide⟩).2
    cases hdst
  · have hone : OfSize (ascii "-1k") (-1) 1 :=
      ofSize_iff.mpr ⟨true, 1, 2, by decide, rfl, .inr ⟨107, by decide, by decide⟩⟩
    refine absurd ((h.2 fun ⟨v, k, hsize, hin⟩ => ?_).2.1 (-1) 1 hone (by decide) (by decide))
      (by decide)
    rw [hminus v k hsize] at hin
    exact absurd hin.1 (by decide)

end Suil.CmdNumbers
