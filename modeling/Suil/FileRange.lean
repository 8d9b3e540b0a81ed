/-
Ranges of a file (`FileServer::buildRangeResponse`).

The header is read through a view that moves along it: behind the unit, behind
the dash of a range, behind the comma.  A search that finds nothing answers
`npos`, which the code also uses as a position to go on from.

* `parse_items` — how a list of ranges is read;
* `answers_iff` — when that is what the ranges mean, with the right
  announcements;
* `outside_iff`, `inside_of_build` — when the view is read in front of the
  header, and where the chunks lie;
* `range_right_iff` — all of it, for every header.
-/
import Suil.Strings

namespace Suil.FileRange

/-- `std::strtoul(s, nullptr, 10)`: a minus sign negates modulo 2^64, and what is too large
gives the largest value. -/
def strtoul (s : Bytes) : ℕ :=
  match scanInteger s with
  | none => 0
  | some (neg, digits, _) =>
    if decimal digits < 2 ^ 64 then if neg then (2 ^ 64 - decimal digits) % 2 ^ 64 else decimal digits
    else 2 ^ 64 - 1

/-- `find(c)` and `substr` behind it; none for `npos`. -/
def cut (c : UInt8) : Bytes → Option Bytes
  | [] => none
  | x :: xs => if x = c then some xs else cut c xs

/-- How the loop over the ranges ends: with a list of offsets and sizes, with 416, with
the exception that `operator[]` throws, or with a read in front of the header. -/
inductive Parsed where
  | ranges (rs : List (ℕ × ℕ))
  | invalid
  | thrown
  | outside
deriving DecidableEq, Repr

/-- One more range in front. -/
def Parsed.cons (r : ℕ × ℕ) : Parsed → Parsed
  | ranges rs => ranges (r :: rs)
  | p => p

/-- `from > to or from > cf.len or to > cf.len`. -/
def outOfBounds (len first upTo : ℕ) : Bool := upTo < first ∨ len < first ∨ len < upTo

/-- `... + 1` on `size_t`. -/
def succ (n : ℕ) : ℕ := if n + 1 < 2 ^ 64 then n + 1 else n + 1 - 2 ^ 64

/-- How a turn of the loop ends: with the loop, or with a range and the view behind the
next comma. -/
inductive Turn where
  | stop (p : Parsed)
  | again (r : ℕ × ℕ) (it : Bytes)

/-- The range is checked and added; `more` is what is behind the next comma. -/
def add (len first upTo : ℕ) (more : Option Bytes) : Turn :=
  if outOfBounds len first upTo then .stop .invalid
  else
    match more with
    | none => .stop (.ranges [(first, upTo - first)])
    | some it => .again (first, upTo - first) it

/-- A turn of the loop, at the view `it` of the header; `before` is the byte of the header in
front of it, none at the start of the header. -/
def turn (len : ℕ) (before : Option UInt8) (it : Bytes) : Turn :=
  let digits := it.dropWhile isSpace
  if digits = [] then .stop .thrown
  else
    let first := strtoul digits
    match cut 45 it, before with
    | some it, _ => add len first (if it = [] then len else succ (strtoul it)) (cut 44 it)
    -- `it.substr(npos)`: the view moves back by one
    | none, some c => add len first len (cut 44 (c :: it))
    | none, none => if outOfBounds len first len then .stop .invalid else .stop .outside

/-- The loop; the second argument bounds the number of turns. -/
def loop (len : ℕ) : ℕ → Option UInt8 → Bytes → Option Parsed
  | 0, _, _ => none
  | n + 1, before, it =>
    match turn len before it with
    | .stop p => some p
    | .again r it => (loop len n (some 44) it).map (Parsed.cons r)

/-- The loop from its start: behind the equals sign, or, when there is none, at the first
byte again. -/
def parse (len fuel : ℕ) (range : Bytes) : Option Parsed :=
  match cut 61 range with
  | some it => loop len fuel (some 61) it
  | none => loop len fuel none range

/-- A chunk of the response. -/
inductive Chunk where
  | text (data : Bytes)
  | file (offset size : ℕ)
deriving DecidableEq, Repr

/-- What `buildRangeResponse` does to the response. -/
inductive Outcome where
  | invalid
  | thrown
  | outside
  | queued (chunks : List Chunk) (contentRange contentType : Option Bytes)
deriving DecidableEq, Repr

/-- `"%lu-%lu/%lu"`. -/
def positions (first last len : ℕ) : Bytes :=
  decimalText first ++ ascii "-" ++ decimalText last ++ ascii "/" ++ decimalText len

/-- `size-1` on `size_t`. -/
def lastOf (_ size : ℕ) : ℕ := if size = 0 then 2 ^ 64 - 1 else size - 1

section Response

variable (last : ℕ → ℕ → ℕ) (len : ℕ) (boundary mime : Bytes)

/-- The chunks of `buildPartialContent`, where `last` is the last position announced. -/
def partChunks (isFirst : Bool) : List (ℕ × ℕ) → List Chunk
  | [] => [.text (ascii "--" ++ boundary ++ ascii "--")]
  | (first, size) :: rs =>
    .text ((if isFirst then ascii "--" else ascii "\r\n--") ++ boundary ++ ascii "\r\n" ++
        (ascii "Content-Type: " ++ mime ++ ascii "\r\n") ++
        (ascii "Content-Range: " ++ positions first (last first size) len) ++ ascii "\r\n\r\n") ::
      .file first size :: partChunks false rs

/-- The response to a list of ranges. -/
def respond : List (ℕ × ℕ) → Outcome
  | [] => .queued [] none none
  | [(first, size)] =>
    .queued [.file first size] (some (ascii "bytes " ++ positions first (last first size) len)) none
  | rs =>
    .queued (partChunks last len boundary mime true rs) none
      (some (ascii "multipart/byteranges; boundary=" ++ boundary))

end Response

/-- The end of the loop, and what follows it. -/
def Parsed.outcome (len : ℕ) (boundary mime : Bytes) : Parsed → Outcome
  | .ranges rs => respond lastOf len boundary mime rs
  | .invalid => .invalid
  | .thrown => .thrown
  | .outside => .outside

/-- `buildRangeResponse`, for a file of `len` bytes. -/
def buildRangeResponse (len : ℕ) (boundary mime : Bytes) (fuel : ℕ) (range : Bytes) :
    Option Outcome :=
  (parse len fuel range).map (Parsed.outcome len boundary mime)

/-! ### What a header means -/

structure Numeral where
  digits : Bytes
  nonempty : digits ≠ []
  isDigits : ∀ d ∈ digits, isDigit d = true

def Numeral.value (n : Numeral) : ℕ := decimal n.digits

/-- One range of a header. -/
inductive RangeSpec where
  | span (first last : Numeral)
  | rest (first : Numeral)
  | suffix (n : Numeral)

def RangeSpec.text : RangeSpec → Bytes
  | .span first last => first.digits ++ 45 :: last.digits
  | .rest first => first.digits ++ [45]
  | .suffix n => 45 :: n.digits

/-- A range with the space in front of it. -/
structure Item where
  space : Bytes
  isSpaces : ∀ c ∈ space, isSpace c = true
  spec : RangeSpec

def Item.text (r : Item) : Bytes := r.space ++ r.spec.text

/-- The ranges, between commas. -/
def itemsText : List Item → Bytes
  | [] => []
  | [r] => r.text
  | r :: rs => r.text ++ 44 :: itemsText rs

def headerText (rs : List Item) : Bytes := ascii "bytes=" ++ itemsText rs

/-- The ranges, each with whether it is the last one. -/
def withLast : List Item → List (Bool × RangeSpec)
  | [] => []
  | [r] => [(true, r.spec)]
  | r :: rs => (false, r.spec) :: withLast rs

/-- The first and the last position that a range stands for, none if it is not
satisfiable. -/
def RangeSpec.wanted (len : ℕ) : RangeSpec → Option (ℕ × ℕ)
  | .span first last =>
    if first.value ≤ last.value ∧ first.value < len then
      some (first.value, min last.value (len - 1))
    else none
  | .rest first => if first.value < len then some (first.value, len - 1) else none
  | .suffix n => if 0 < n.value ∧ 0 < len then some (len - min n.value len, len - 1) else none

/-- The right response: 416 if some range is not satisfiable, else every range in order,
announced from its first to its last position. -/
def wantedResponse (len : ℕ) (boundary mime : Bytes) (rs : List Item) : Outcome :=
  if ∀ q ∈ withLast rs, q.2.wanted len ≠ none then
    respond (fun first size => first + size - 1) len boundary mime
      ((withLast rs).filterMap fun q => (q.2.wanted len).map fun p => (p.1, p.2 + 1 - p.1))
  else .invalid

/-! ### Reading one range -/

variable {len : ℕ} {c : UInt8} {xs ys tail : Bytes}

theorem cut_append (h : c ∉ xs) : cut c (xs ++ c :: ys) = some ys := by
  induction xs with
  | nil => exact if_pos rfl
  | cons x xs ih =>
    rw [List.mem_cons, not_or] at h
    rw [List.cons_append, cut, if_neg (Ne.symm h.1)]
    exact ih h.2

theorem cut_eq_none_iff : cut c xs = none ↔ c ∉ xs := by
  induction xs with
  | nil => simp [cut]
  | cons x xs ih =>
    rw [cut, List.mem_cons, not_or]
    split_ifs with hx
    · simp [hx]
    · rw [ih]
      exact ⟨fun h => ⟨Ne.symm hx, h⟩, fun h => h.2⟩

theorem Numeral.not_mem (n : Numeral) (h : isDigit c = false) : c ∉ n.digits := by
  intro hmem
  rw [n.isDigits c hmem] at h
  cases h

/-- A tail that does not go on with a digit. -/
def Stops (tail : Bytes) : Prop := ∀ d ∈ tail.head?, isDigit d = false

theorem takeWhile_digits (n : Numeral) (h : Stops tail) :
    (n.digits ++ tail).takeWhile isDigit = n.digits :=
  takeWhile_of_digits n.isDigits h

/-- A numeral is read up to its end. -/
theorem scanInteger_digits (n : Numeral) (h : Stops tail) :
    scanInteger (n.digits ++ tail) = some (false, n.digits, n.digits.length) :=
  scanInteger_of_digits n.nonempty n.isDigits h

/-- So is one behind a dash. -/
theorem scanInteger_dash (n : Numeral) (h : Stops tail) :
    scanInteger (45 :: (n.digits ++ tail)) = some (true, n.digits, 1 + n.digits.length) := by
  have hspace : (45 :: (n.digits ++ tail)).dropWhile isSpace = 45 :: (n.digits ++ tail) :=
    List.dropWhile_cons_of_neg (by decide)
  have hspaces : (45 :: (n.digits ++ tail)).takeWhile isSpace = [] :=
    List.takeWhile_cons_of_neg (by decide)
  have hsign : signLength (45 :: (n.digits ++ tail)) = 1 := by
    rw [signLength]
    exact if_pos (Or.inr rfl)
  rw [scanInteger]
  simp only [hspace, hspaces, hsign, List.drop_succ_cons, List.drop_zero, takeWhile_digits n h]
  rw [if_neg n.nonempty]
  simp

/-- The number read, which is the largest one when the numeral is too large. -/
def clamp (n : ℕ) : ℕ := min n (2 ^ 64 - 1)

theorem strtoul_digits (n : Numeral) (h : Stops tail) :
    strtoul (n.digits ++ tail) = clamp n.value := by
  rw [strtoul, scanInteger_digits n h]
  simp only [Bool.false_eq_true, if_false]
  rw [clamp, Numeral.value]
  split_ifs <;> omega

/-- Behind a dash the number is negated. -/
def negated (n : ℕ) : ℕ := if n = 0 then 0 else 2 ^ 64 - clamp n

theorem strtoul_dash (n : Numeral) (h : Stops tail) :
    strtoul (45 :: (n.digits ++ tail)) =
      if n.value < 2 ^ 64 then negated n.value else 2 ^ 64 - 1 := by
  rw [strtoul, scanInteger_dash n h]
  simp only [if_true]
  rw [negated, clamp, Numeral.value]
  split_ifs <;> omega

/-- What the loop makes of a range: `from` and `to`. -/
def RangeSpec.read (len : ℕ) (isLast : Bool) : RangeSpec → ℕ × ℕ
  | .span first last => (clamp first.value, succ (clamp last.value))
  | .rest first => (clamp first.value, if isLast then len else 1)
  | .suffix n => (if n.value < 2 ^ 64 then negated n.value else 2 ^ 64 - 1, succ (clamp n.value))

/-- What follows a range: nothing, or a comma and the other ranges. -/
def tailOf : Option Bytes → Bytes
  | none => []
  | some more => 44 :: more

theorem stops_tailOf (more : Option Bytes) : Stops (tailOf more) := by
  intro d hd
  cases more with
  | none => cases hd
  | some more =>
    obtain rfl := Option.some.inj hd
    decide

theorem cut_comma (n : Numeral) (more : Option Bytes) : cut 44 (n.digits ++ tailOf more) = more := by
  have hcomma := n.not_mem (c := 44) (by decide)
  cases more with
  | none =>
    rw [tailOf, List.append_nil]
    exact cut_eq_none_iff.mpr hcomma
  | some more => exact cut_append hcomma

/-- A range around its dash. -/
theorem RangeSpec.parts (r : RangeSpec) (len : ℕ) (more : Option Bytes) :
    ∃ lead back, r.text ++ tailOf more = lead ++ 45 :: back ∧ (∀ d ∈ lead, isDigit d = true) ∧
      strtoul (lead ++ 45 :: back) = (r.read len more.isNone).1 ∧
      (if back = [] then len else succ (strtoul back)) = (r.read len more.isNone).2 ∧
      cut 44 back = more := by
  have hstops := stops_tailOf more
  have hdash : ∀ back : Bytes, Stops (45 :: back) := by
    rintro back d hd
    obtain rfl := Option.some.inj hd
    decide
  have hne : ∀ n : Numeral, n.digits ++ tailOf more ≠ [] := by
    intro n hnil
    exact n.nonempty (List.append_eq_nil_iff.mp hnil).1
  cases r with
  | span first last =>
    refine ⟨first.digits, last.digits ++ tailOf more, ?_, first.isDigits, ?_, ?_, ?_⟩
    · rw [RangeSpec.text, List.append_assoc]
      rfl
    · exact strtoul_digits first (hdash _)
    · rw [if_neg (hne last), strtoul_digits last hstops]
      rfl
    · exact cut_comma last more
  | rest first =>
    refine ⟨first.digits, tailOf more, ?_, first.isDigits, ?_, ?_, ?_⟩
    · rw [RangeSpec.text, List.append_assoc]
      rfl
    · exact strtoul_digits first (hdash _)
    · -- nothing behind the dash, or a comma, which is read as zero
      cases more with
      | none => rfl
      | some more =>
        have hzero : scanInteger (44 :: more) = none := by
          rw [scanInteger, List.dropWhile_cons_of_neg (by decide)]
          rfl
        rw [tailOf, if_neg (List.cons_ne_nil _ _), strtoul, hzero]
        rfl
    · cases more with
      | none => rfl
      | some more => exact if_pos rfl
  | suffix n =>
    refine ⟨[], n.digits ++ tailOf more, rfl, ?_, ?_, ?_, ?_⟩
    · intro d hd
      cases hd
    · exact strtoul_dash n hstops
    · rw [if_neg (hne n), strtoul_digits n hstops]
      rfl
    · exact cut_comma n more

/-- **One turn** of the loop reads one range. -/
theorem turn_item (r : Item) (more : Option Bytes) (before : Option UInt8) :
    turn len before (r.text ++ tailOf more) =
      add len (r.spec.read len more.isNone).1 (r.spec.read len more.isNone).2 more := by
  obtain ⟨lead, back, htext, hlead, hfirst, hupTo, hcut⟩ := r.spec.parts len more
  have hhead : isSpace ((lead ++ 45 :: back).head (by simp)) = false := by
    cases lead with
    | nil => exact show isSpace 45 = false by decide
    | cons d ds => exact not_isSpace_of_isDigit (hlead d List.mem_cons_self)
  have hspace : (r.text ++ tailOf more).dropWhile isSpace = lead ++ 45 :: back := by
    rw [Item.text, List.append_assoc, htext, List.dropWhile_append_of_pos r.isSpaces]
    obtain ⟨d, ds, hcons⟩ := List.exists_cons_of_ne_nil (show lead ++ 45 :: back ≠ [] by simp)
    simp only [hcons, List.head_cons] at hhead ⊢
    exact List.dropWhile_cons_of_neg (by simp [hhead])
  have hdash : cut 45 (r.text ++ tailOf more) = some back := by
    have hnot : (45 : UInt8) ∉ r.space ++ lead := by
      intro hmem
      rcases List.mem_append.mp hmem with hmem | hmem
      · exact absurd (r.isSpaces 45 hmem) (by decide)
      · exact absurd (hlead 45 hmem) (by decide)
    rw [Item.text, List.append_assoc, htext, ← List.append_assoc]
    exact cut_append hnot
  rw [turn]
  simp only [hspace, hdash, hfirst, hupTo, hcut]
  exact if_neg (by simp)

/-- What the loop makes of the ranges; the last one is known by the end of the header. -/
def reads (len : ℕ) (qs : List (Bool × RangeSpec)) : List (ℕ × ℕ) := qs.map fun q => q.2.read len q.1

theorem itemsText_cons (r r' : Item) (rs : List Item) :
    itemsText (r :: r' :: rs) = r.text ++ tailOf (some (itemsText (r' :: rs))) := rfl

/-- How the loop ends for these offsets. -/
def parsed (len : ℕ) (ps : List (ℕ × ℕ)) : Parsed :=
  if ps.any fun p => outOfBounds len p.1 p.2 then .invalid
  else .ranges (ps.map fun p => (p.1, p.2 - p.1))

theorem parsed_cons (p : ℕ × ℕ) (ps : List (ℕ × ℕ)) :
    parsed len (p :: ps) =
      if outOfBounds len p.1 p.2 then .invalid else (parsed len ps).cons (p.1, p.2 - p.1) := by
  by_cases hfirst : outOfBounds len p.1 p.2 = true
  · simp [parsed, hfirst]
  · simp only [parsed, List.any_cons, hfirst, Bool.false_or, List.map_cons, Bool.false_eq_true,
      if_false]
    split_ifs <;> rfl

/-- **The whole list**, with a turn for every range. -/
theorem loop_items {rs : List Item} (hne : rs ≠ []) {n : ℕ} (hn : rs.length ≤ n)
    (before : Option UInt8) :
    loop len n before (itemsText rs) = some (parsed len (reads len (withLast rs))) := by
  induction rs generalizing n before with
  | nil => exact absurd rfl hne
  | cons r rs ih =>
    obtain ⟨n, rfl⟩ : ∃ m, n = m + 1 := by
      rw [List.length_cons] at hn
      exact ⟨n - 1, by omega⟩
    cases rs with
    | nil =>
      have hone : turn len before (r.text ++ tailOf none) =
          add len (r.spec.read len true).1 (r.spec.read len true).2 none := turn_item r none before
      rw [show r.text ++ tailOf none = itemsText [r] from List.append_nil _] at hone
      rw [loop, hone, add, withLast, reads, List.map_singleton, parsed_cons]
      split_ifs <;> rfl
    | cons r' rs =>
      have hrest := ih (List.cons_ne_nil r' rs) (n := n) (by rw [List.length_cons] at hn; omega)
        (some 44)
      have hreads : reads len (withLast (r :: r' :: rs)) =
          r.spec.read len false :: reads len (withLast (r' :: rs)) := rfl
      rw [itemsText_cons, loop, turn_item, add, hreads, parsed_cons, Option.isNone_some]
      split_ifs
      · rfl
      · simp only [hrest, Option.map_some]

theorem parse_items {rs : List Item} (hne : rs ≠ []) {n : ℕ} (hn : rs.length ≤ n) :
    parse len n (headerText rs) = some (parsed len (reads len (withLast rs))) := by
  have hcut : cut 61 (ascii "bytes" ++ 61 :: itemsText rs) = some (itemsText rs) :=
    cut_append (by decide)
  have htext : headerText rs = ascii "bytes" ++ 61 :: itemsText rs := rfl
  rw [parse, htext, hcut]
  exact loop_items hne hn _

/-- More turns change nothing. -/
theorem loop_mono {n : ℕ} {before : Option UInt8} {it : Bytes} {p : Parsed}
    (h : loop len n before it = some p) : loop len (n + 1) before it = some p := by
  induction n generalizing before it p with
  | zero => cases h
  | succ n ih =>
    rw [loop] at h ⊢
    rcases hturn : turn len before it with p' | ⟨r, it'⟩
    · rw [hturn] at h
      exact h
    · rw [hturn] at h
      obtain ⟨p', hloop, hcons⟩ := Option.map_eq_some_iff.mp h
      simp only [ih hloop, Option.map_some, hcons]

theorem parse_mono {n m : ℕ} {range : Bytes} {p : Parsed} (h : parse len n range = some p)
    (hnm : n ≤ m) : parse len m range = some p := by
  induction m, hnm using Nat.le_induction with
  | base => exact h
  | succ m _ ih =>
    rw [parse] at ih ⊢
    split at ih
    · exact loop_mono ih
    · exact loop_mono ih

/-! ### When the response is right -/

/-- The ranges that the code answers with 416. -/
def RangeSpec.Rejected (len : ℕ) (isLast : Bool) : RangeSpec → Prop
  | .span first last =>
    if last.value + 1 < 2 ^ 64 then last.value + 1 < first.value ∨ len ≤ last.value
    else 0 < first.value
  | .rest first => if isLast then len < first.value else 1 < first.value ∨ len = 0
  | .suffix n => 0 < n.value ∨ len = 0

/-- The ranges that it queues and announces rightly: they begin with the first byte. -/
def RangeSpec.Simple (len : ℕ) (isLast : Bool) : RangeSpec → Prop
  | .span first last => first.value = 0 ∧ last.value < len
  | .rest first => first.value = 0 ∧ (isLast = true ∨ len = 1)
  | .suffix _ => False

/-- The lists of ranges that are answered rightly: all are satisfiable and simple, or some is
not satisfiable and some is rejected. -/
def Plain (len : ℕ) (rs : List Item) : Prop :=
  if ∀ q ∈ withLast rs, q.2.wanted len ≠ none then ∀ q ∈ withLast rs, q.2.Simple len q.1
  else ∃ q ∈ withLast rs, q.2.Rejected len q.1

theorem outOfBounds_iff {first upTo : ℕ} :
    outOfBounds len first upTo = true ↔ upTo < first ∨ len < first ∨ len < upTo :=
  decide_eq_true_iff

theorem succ_clamp (n : ℕ) : succ (clamp n) = if n + 1 < 2 ^ 64 then n + 1 else 0 := by
  rw [succ, clamp]
  split_ifs <;> omega

/-- A suffix ends before it begins, or behind the file. -/
theorem suffix_out (hlen : len < 2 ^ 63) {n : ℕ} (hn : 0 < n) :
    succ (clamp n) < (if n < 2 ^ 64 then negated n else 2 ^ 64 - 1) ∨ len < succ (clamp n) := by
  rw [succ_clamp, negated, clamp]
  by_cases hsmall : n + 1 < 2 ^ 64
  · rw [if_pos hsmall, if_pos (by omega), if_neg (by omega)]
    omega
  · rw [if_neg hsmall, if_neg (show ¬n = 0 by omega)]
    split_ifs <;> omega

theorem rejected_iff (hlen : len < 2 ^ 63) (isLast : Bool) (r : RangeSpec) :
    outOfBounds len (r.read len isLast).1 (r.read len isLast).2 = true ↔ r.Rejected len isLast := by
  rw [outOfBounds_iff]
  cases r with
  | span first last =>
    simp only [RangeSpec.read, RangeSpec.Rejected, succ_clamp]
    rw [clamp]
    split_ifs <;> omega
  | rest first =>
    simp only [RangeSpec.read, RangeSpec.Rejected, clamp]
    split_ifs <;> omega
  | suffix n =>
    simp only [RangeSpec.read, RangeSpec.Rejected]
    rcases Nat.eq_zero_or_pos n.value with hzero | hpos
    · rw [hzero, show succ (clamp 0) = 1 from rfl, show negated 0 = 0 from rfl, if_pos (by norm_num)]
      omega
    · exact iff_of_true ((suffix_out hlen hpos).imp_right Or.inr) (Or.inl hpos)

/-- A range that is satisfiable. -/
theorem simple_iff (hlen : len < 2 ^ 63) (isLast : Bool) {r : RangeSpec} {p : ℕ × ℕ}
    (hwanted : r.wanted len = some p) :
    (¬r.Rejected len isLast ∧
      (r.read len isLast).1 = p.1 ∧ (r.read len isLast).2 - (r.read len isLast).1 = p.2 + 1 - p.1 ∧
      lastOf (r.read len isLast).1 ((r.read len isLast).2 - (r.read len isLast).1) =
        (r.read len isLast).1 + ((r.read len isLast).2 - (r.read len isLast).1) - 1) ↔
      r.Simple len isLast := by
  cases r with
  | span first last =>
    rw [RangeSpec.wanted, Option.ite_none_right_eq_some] at hwanted
    obtain ⟨hsat, hp⟩ := hwanted
    obtain rfl := Option.some.inj hp
    simp only [RangeSpec.read, RangeSpec.Rejected, RangeSpec.Simple, succ_clamp, lastOf]
    rw [clamp]
    split_ifs <;> omega
  | rest first =>
    rw [RangeSpec.wanted, Option.ite_none_right_eq_some] at hwanted
    obtain ⟨hsat, hp⟩ := hwanted
    obtain rfl := Option.some.inj hp
    simp only [RangeSpec.read, RangeSpec.Rejected, RangeSpec.Simple, clamp, lastOf]
    cases isLast <;> simp only [Bool.false_eq_true, if_false, if_true, false_or, true_or, and_true] <;>
      split_ifs <;> omega
  | suffix n =>
    rw [RangeSpec.wanted, Option.ite_none_right_eq_some] at hwanted
    obtain ⟨hsat, -⟩ := hwanted
    exact iff_of_false (fun h => h.1 (Or.inl hsat.1)) id

/-! ### Responses -/

variable {boundary mime : Bytes} {g h : ℕ → ℕ → ℕ} {ps qs : List (ℕ × ℕ)}

theorem positions_inj {first last last' : ℕ} :
    positions first last len = positions first last' len ↔ last = last' := by
  simp only [positions, List.append_cancel_right_eq, List.append_cancel_left_eq]
  exact decimalText_injective.eq_iff

theorem partChunks_inj {isFirst : Bool} :
    partChunks g len boundary mime isFirst ps = partChunks h len boundary mime isFirst qs ↔
      ps = qs ∧ ∀ p ∈ ps, g p.1 p.2 = h p.1 p.2 := by
  induction ps generalizing qs isFirst with
  | nil =>
    cases qs with
    | nil => exact iff_of_true rfl ⟨rfl, by simp⟩
    | cons q qs => simp [partChunks]
  | cons p ps ih =>
    cases qs with
    | nil => simp [partChunks]
    | cons q qs =>
      simp only [partChunks, List.cons.injEq, Chunk.text.injEq, Chunk.file.injEq, ih,
        List.append_cancel_right_eq, List.append_cancel_left_eq, List.forall_mem_cons]
      constructor
      · rintro ⟨hpos, ⟨hfirst, hsize⟩, rfl, hall⟩
        obtain rfl : p = q := Prod.ext hfirst hsize
        exact ⟨⟨rfl, rfl⟩, positions_inj.mp hpos, hall⟩
      · rintro ⟨⟨rfl, rfl⟩, hlast, hall⟩
        exact ⟨positions_inj.mpr hlast, ⟨rfl, rfl⟩, rfl, hall⟩

/-- A response tells its ranges and what is announced. -/
theorem respond_inj (hlength : ps.length = qs.length) :
    respond g len boundary mime ps = respond h len boundary mime qs ↔
      ps = qs ∧ ∀ p ∈ ps, g p.1 p.2 = h p.1 p.2 := by
  match ps, qs with
  | [], [] => exact iff_of_true rfl ⟨rfl, by simp⟩
  | [p], [q] =>
    simp only [respond, Outcome.queued.injEq, List.cons.injEq, Chunk.file.injEq, and_true,
      Option.some.injEq, List.append_cancel_left_eq, List.forall_mem_singleton]
    constructor
    · rintro ⟨⟨hfirst, hsize⟩, hpos⟩
      obtain rfl : p = q := Prod.ext hfirst hsize
      exact ⟨rfl, positions_inj.mp hpos⟩
    · rintro ⟨rfl, hlast⟩
      exact ⟨⟨rfl, rfl⟩, positions_inj.mpr hlast⟩
  | p :: p' :: ps, q :: q' :: qs =>
    simp only [respond, Outcome.queued.injEq, and_true]
    exact partChunks_inj

theorem wanted_cons {q : Bool × RangeSpec} {qs : List (Bool × RangeSpec)} {p : ℕ × ℕ}
    (hp : q.2.wanted len = some p) :
    (q :: qs).filterMap (fun q => (q.2.wanted len).map fun p => (p.1, p.2 + 1 - p.1)) =
      (p.1, p.2 + 1 - p.1) ::
        qs.filterMap fun q => (q.2.wanted len).map fun p => (p.1, p.2 + 1 - p.1) :=
  List.filterMap_cons_some (by rw [hp]; rfl)

/-- Ranges that are all satisfiable. -/
theorem simple_all_iff (hlen : len < 2 ^ 63) {qs : List (Bool × RangeSpec)}
    (hall : ∀ q ∈ qs, q.2.wanted len ≠ none) :
    ((∀ p ∈ reads len qs, ¬outOfBounds len p.1 p.2 = true) ∧
      (reads len qs).map (fun p => (p.1, p.2 - p.1)) =
        qs.filterMap (fun q => (q.2.wanted len).map fun p => (p.1, p.2 + 1 - p.1)) ∧
      ∀ p ∈ (reads len qs).map fun p => (p.1, p.2 - p.1), lastOf p.1 p.2 = p.1 + p.2 - 1) ↔
      ∀ q ∈ qs, q.2.Simple len q.1 := by
  induction qs with
  | nil => simp [reads]
  | cons q qs ih =>
    rw [List.forall_mem_cons] at hall
    obtain ⟨hq, hqs⟩ := hall
    obtain ⟨p, hp⟩ := Option.ne_none_iff_exists'.mp hq
    have hone := simple_iff hlen q.1 hp
    have hreads : reads len (q :: qs) = q.2.read len q.1 :: reads len qs := rfl
    rw [hreads, wanted_cons hp, List.map_cons, List.forall_mem_cons, List.forall_mem_cons,
      List.forall_mem_cons, ← ih hqs, ← hone, List.cons.injEq, Prod.mk.injEq, rejected_iff hlen]
    tauto

theorem length_wanted {qs : List (Bool × RangeSpec)} (hall : ∀ q ∈ qs, q.2.wanted len ≠ none) :
    (qs.filterMap fun q => (q.2.wanted len).map fun p => (p.1, p.2 + 1 - p.1)).length =
      qs.length := by
  induction qs with
  | nil => rfl
  | cons q qs ih =>
    rw [List.forall_mem_cons] at hall
    obtain ⟨p, hp⟩ := Option.ne_none_iff_exists'.mp hall.1
    rw [wanted_cons hp, List.length_cons, List.length_cons, ih hall.2]

theorem respond_ne_invalid {ps : List (ℕ × ℕ)} : respond g len boundary mime ps ≠ .invalid := by
  match ps with
  | [] => exact fun h => nomatch h
  | [p] => exact fun h => nomatch h
  | p :: p' :: ps => exact fun h => nomatch h

theorem parsed_eq_invalid_iff {ps : List (ℕ × ℕ)} :
    (parsed len ps).outcome len boundary mime = .invalid ↔
      ∃ p ∈ ps, outOfBounds len p.1 p.2 = true := by
  rw [parsed]
  split_ifs with hany
  · exact iff_of_true rfl (List.any_eq_true.mp hany)
  · refine iff_of_false respond_ne_invalid fun hex => hany (List.any_eq_true.mpr hex)

/-- **A list of ranges** is answered rightly iff it is plain. -/
theorem outcome_iff (hlen : len < 2 ^ 63) (boundary mime : Bytes) (rs : List Item) :
    (parsed len (reads len (withLast rs))).outcome len boundary mime =
      wantedResponse len boundary mime rs ↔ Plain len rs := by
  rw [wantedResponse, Plain]
  split_ifs with hall
  · rw [← simple_all_iff hlen hall]
    by_cases hout : ∃ p ∈ reads len (withLast rs), outOfBounds len p.1 p.2 = true
    · -- rejected, though all are satisfiable
      rw [parsed_eq_invalid_iff.mpr hout]
      refine iff_of_false (fun h => respond_ne_invalid h.symm) fun h => ?_
      obtain ⟨p, hp, hpout⟩ := hout
      exact h.1 p hp hpout
    · have hnone : ∀ p ∈ reads len (withLast rs), ¬outOfBounds len p.1 p.2 = true :=
        fun p hp hpout => hout ⟨p, hp, hpout⟩
      have hlength := length_wanted hall
      have hlength' : (reads len (withLast rs)).length = (withLast rs).length := List.length_map _
      rw [parsed, if_neg fun hany => hout (List.any_eq_true.mp hany), Parsed.outcome,
        respond_inj (by rw [List.length_map, hlength, hlength'])]
      exact (and_iff_right hnone).symm
  · rw [parsed_eq_invalid_iff]
    constructor
    · rintro ⟨p, hp, hout⟩
      obtain ⟨q, hq, rfl⟩ := List.mem_map.mp hp
      exact ⟨q, hq, (rejected_iff hlen q.1 q.2).mp hout⟩
    · rintro ⟨q, hq, hrejected⟩
      exact ⟨_, List.mem_map_of_mem hq, (rejected_iff hlen q.1 q.2).mpr hrejected⟩

/-- The response does not depend on the number of turns. -/
theorem build_unique {n m : ℕ} {range : Bytes} {a b : Outcome}
    (ha : buildRangeResponse len boundary mime n range = some a)
    (hb : buildRangeResponse len boundary mime m range = some b) : a = b := by
  obtain ⟨p, hp, rfl⟩ := Option.map_eq_some_iff.mp ha
  obtain ⟨q, hq, rfl⟩ := Option.map_eq_some_iff.mp hb
  have hp' := parse_mono hp (le_max_left n m)
  rw [parse_mono hq (le_max_right n m), Option.some.injEq] at hp'
  rw [hp']

/-- So is a header, with turns enough. -/
theorem answers_iff (hlen : len < 2 ^ 63) {rs : List Item} (hne : rs ≠ []) :
    (∃ n, buildRangeResponse len boundary mime n (headerText rs) =
      some (wantedResponse len boundary mime rs)) ↔ Plain len rs := by
  have hiff := outcome_iff hlen boundary mime rs
  have hbuild : buildRangeResponse len boundary mime rs.length (headerText rs) =
      some ((parsed len (reads len (withLast rs))).outcome len boundary mime) := by
    rw [buildRangeResponse, parse_items hne le_rfl, Option.map_some]
  rw [← hiff]
  constructor
  · rintro ⟨n, hn⟩
    exact build_unique hbuild hn
  · intro houtcome
    exact ⟨rs.length, houtcome ▸ hbuild⟩

/-! ### Where the code reads and what it queues -/

/-- What adding a range comes to. -/
theorem add_cases (len first upTo : ℕ) (more : Option Bytes) :
    add len first upTo more = .stop .invalid ∨ ∃ r : ℕ × ℕ, r.1 + r.2 ≤ len ∧
      (add len first upTo more = .stop (.ranges [r]) ∨ ∃ it, add len first upTo more = .again r it) := by
  by_cases hout : outOfBounds len first upTo = true
  · exact Or.inl (if_pos hout)
  · right
    have hin := outOfBounds_iff.not.mp hout
    refine ⟨(first, upTo - first), by simp only; omega, ?_⟩
    cases more with
    | none => exact Or.inl (if_neg hout)
    | some it => exact Or.inr ⟨it, if_neg hout⟩

/-- What a turn comes to: only at the start of the header it reads outside. -/
theorem turn_cases (len : ℕ) (before : Option UInt8) (it : Bytes) :
    turn len before it = .stop .thrown ∨ turn len before it = .stop .invalid ∨
      (before = none ∧ cut 45 it = none ∧ turn len before it = .stop .outside) ∨
      ∃ r : ℕ × ℕ, r.1 + r.2 ≤ len ∧
        (turn len before it = .stop (.ranges [r]) ∨ ∃ it', turn len before it = .again r it') := by
  rw [turn]
  simp only
  by_cases hnil : it.dropWhile isSpace = []
  · exact Or.inl (if_pos hnil)
  · right
    rw [if_neg hnil]
    rcases hcut : cut 45 it with _ | back
    · cases before with
      | none =>
        simp only
        by_cases hout : outOfBounds len (strtoul (it.dropWhile isSpace)) len = true
        · exact Or.inl (if_pos hout)
        · exact Or.inr (Or.inl ⟨trivial, trivial, if_neg hout⟩)
      | some c =>
        exact (add_cases len _ _ _).imp_right Or.inr
    · exact (add_cases len _ _ _).imp_right Or.inr

/-- A turn that starts behind a byte of the header, or before a dash, stays inside. -/
theorem loop_ne_outside (n : ℕ) (before : Option UInt8) (it : Bytes)
    (h : before ≠ none ∨ cut 45 it ≠ none) : loop len n before it ≠ some .outside := by
  induction n generalizing before it with
  | zero => exact fun hout => nomatch hout
  | succ n ih =>
    intro hout
    rw [loop] at hout
    rcases turn_cases len before it with hturn | hturn | ⟨hnone, hcut, -⟩ | ⟨r, -, hturn | ⟨it', hturn⟩⟩
    · rw [hturn] at hout
      cases hout
    · rw [hturn] at hout
      cases hout
    · exact h.elim (fun hne => hne hnone) fun hne => hne hcut
    · rw [hturn] at hout
      cases hout
    · rw [hturn] at hout
      obtain ⟨p, hloop, hcons⟩ := Option.map_eq_some_iff.mp hout
      cases p with
      | outside => exact ih (some 44) it' (Or.inl (Option.some_ne_none 44)) hloop
      | ranges rs => cases hcons
      | invalid => cases hcons
      | thrown => cases hcons

/-- A header without an equals sign and without a dash that begins with an offset inside the
file, or with none. -/
def ReadsBefore (len : ℕ) (range : Bytes) : Prop :=
  61 ∉ range ∧ 45 ∉ range ∧ range.dropWhile isSpace ≠ [] ∧ strtoul (range.dropWhile isSpace) ≤ len

theorem outside_iff (range : Bytes) :
    (∃ n, buildRangeResponse len boundary mime n range = some .outside) ↔ ReadsBefore len range := by
  have houtcome : ∀ n, buildRangeResponse len boundary mime n range = some .outside ↔
      parse len n range = some .outside := by
    intro n
    rw [buildRangeResponse, Option.map_eq_some_iff]
    constructor
    · rintro ⟨p, hp, hout⟩
      cases p with
      | outside => exact hp
      | ranges rs =>
        rw [Parsed.outcome] at hout
        match rs with
        | [] => cases hout
        | [r] => cases hout
        | r :: r' :: rs => cases hout
      | invalid => cases hout
      | thrown => cases hout
    · exact fun h => ⟨_, h, rfl⟩
  simp only [houtcome]
  rw [ReadsBefore]
  rcases hequals : cut 61 range with _ | it
  · have hno := cut_eq_none_iff.mp hequals
    rcases hdash : cut 45 range with _ | back
    · have hnodash := cut_eq_none_iff.mp hdash
      -- the loop reads the whole header, and then one byte more in front
      have hturn : turn len none range =
          if range.dropWhile isSpace = [] then .stop .thrown
          else if outOfBounds len (strtoul (range.dropWhile isSpace)) len then .stop .invalid
          else .stop .outside := by
        rw [turn, hdash]
      have hloop : ∀ n, parse len (n + 1) range = some .outside ↔
          range.dropWhile isSpace ≠ [] ∧ strtoul (range.dropWhile isSpace) ≤ len := by
        intro n
        rw [parse, hequals]
        simp only
        rw [loop, hturn]
        by_cases hnil : range.dropWhile isSpace = []
        · simp [hnil]
        · by_cases hout : outOfBounds len (strtoul (range.dropWhile isSpace)) len = true
          · rw [if_neg hnil, if_pos hout]
            rw [outOfBounds_iff] at hout
            exact iff_of_false (fun h => nomatch h) fun h => by omega
          · rw [if_neg hnil, if_neg hout]
            rw [outOfBounds_iff] at hout
            exact iff_of_true rfl ⟨hnil, by omega⟩
      constructor
      · rintro ⟨n, hn⟩
        exact ⟨hno, hnodash, (hloop n).mp (parse_mono hn (Nat.le_succ n))⟩
      · rintro ⟨-, -, hrest⟩
        exact ⟨1, (hloop 0).mpr hrest⟩
    · refine iff_of_false ?_ fun h => ?_
      · rintro ⟨n, hn⟩
        rw [parse, hequals] at hn
        exact loop_ne_outside n none range (Or.inr (by simp [hdash])) hn
      · rw [cut_eq_none_iff.mpr h.2.1] at hdash
        cases hdash
  · refine iff_of_false ?_ fun h => ?_
    · rintro ⟨n, hn⟩
      rw [parse, hequals] at hn
      exact loop_ne_outside n (some 61) it (Or.inl (Option.some_ne_none 61)) hn
    · rw [cut_eq_none_iff.mpr h.1] at hequals
      cases hequals

/-- What is queued lies inside the file. -/
theorem loop_inside {n : ℕ} {before : Option UInt8} {it : Bytes} {rs : List (ℕ × ℕ)}
    (h : loop len n before it = some (.ranges rs)) : ∀ r ∈ rs, r.1 + r.2 ≤ len := by
  induction n generalizing before it rs with
  | zero => cases h
  | succ n ih =>
    rw [loop] at h
    rcases turn_cases len before it with hturn | hturn | ⟨-, -, hturn⟩ | ⟨r, hr, hturn | ⟨it', hturn⟩⟩
    · rw [hturn] at h
      cases h
    · rw [hturn] at h
      cases h
    · rw [hturn] at h
      cases h
    · rw [hturn] at h
      obtain rfl := Parsed.ranges.inj (Option.some.inj h)
      exact List.forall_mem_singleton.mpr hr
    · rw [hturn] at h
      obtain ⟨p, hloop, hcons⟩ := Option.map_eq_some_iff.mp h
      cases p with
      | ranges rs' =>
        obtain rfl := Parsed.ranges.inj hcons
        exact List.forall_mem_cons.mpr ⟨hr, ih hloop⟩
      | invalid => cases hcons
      | thrown => cases hcons
      | outside => cases hcons

theorem mem_partChunks {isFirst : Bool} {offset size : ℕ}
    (h : Chunk.file offset size ∈ partChunks g len boundary mime isFirst ps) : (offset, size) ∈ ps := by
  induction ps generalizing isFirst with
  | nil =>
    rw [partChunks, List.mem_singleton] at h
    cases h
  | cons p ps ih =>
    rw [partChunks, List.mem_cons, List.mem_cons] at h
    rcases h with h | h | h
    · cases h
    · obtain ⟨rfl, rfl⟩ := Chunk.file.inj h
      exact List.mem_cons_self
    · exact List.mem_cons_of_mem p (ih h)

theorem mem_respond {chunks : List Chunk} {contentRange contentType : Option Bytes}
    {offset size : ℕ}
    (h : respond g len boundary mime ps = .queued chunks contentRange contentType)
    (hmem : Chunk.file offset size ∈ chunks) : (offset, size) ∈ ps := by
  match ps with
  | [] =>
    obtain ⟨rfl, -, -⟩ := Outcome.queued.inj h
    cases hmem
  | [p] =>
    obtain ⟨rfl, -, -⟩ := Outcome.queued.inj h
    obtain ⟨rfl, rfl⟩ := Chunk.file.inj (List.mem_singleton.mp hmem)
    exact List.mem_singleton_self _
  | p :: p' :: ps =>
    obtain ⟨rfl, -, -⟩ := Outcome.queued.inj h
    exact mem_partChunks hmem

theorem inside_of_build {n offset size : ℕ} {range : Bytes} {chunks : List Chunk}
    {contentRange contentType : Option Bytes}
    (h : buildRangeResponse len boundary mime n range = some (.queued chunks contentRange contentType))
    (hmem : Chunk.file offset size ∈ chunks) : offset + size ≤ len := by
  obtain ⟨p, hp, hout⟩ := Option.map_eq_some_iff.mp h
  cases p with
  | ranges rs =>
    have hin := mem_respond hout hmem
    rw [parse] at hp
    split at hp
    · exact loop_inside hp _ hin
    · exact loop_inside hp _ hin
  | invalid => cases hout
  | thrown => cases hout
  | outside => cases hout

/-- What a header is meant to lead to: a list of ranges to its response, and any header to
no read outside it and no chunk outside the file. -/
def Right (len : ℕ) (boundary mime range : Bytes) : Prop :=
  (∀ rs, rs ≠ [] → range = headerText rs → ∃ n, buildRangeResponse len boundary mime n range =
    some (wantedResponse len boundary mime rs)) ∧
  (¬∃ n, buildRangeResponse len boundary mime n range = some .outside) ∧
  ∀ n chunks contentRange contentType, buildRangeResponse len boundary mime n range =
    some (.queued chunks contentRange contentType) →
      ∀ offset size, .file offset size ∈ chunks → offset + size ≤ len

/-- **The headers that are answered rightly**, for every file. -/
theorem range_right_iff (hlen : len < 2 ^ 63) (boundary mime range : Bytes) :
    Right len boundary mime range ↔
      (∀ rs, rs ≠ [] → range = headerText rs → Plain len rs) ∧ ¬ReadsBefore len range := by
  rw [Right, outside_iff]
  constructor
  · rintro ⟨hright, hinside, -⟩
    refine ⟨fun rs hne hrange => ?_, hinside⟩
    have hbuild := hright rs hne hrange
    rw [hrange] at hbuild
    exact (answers_iff hlen hne).mp hbuild
  · rintro ⟨hplain, hinside⟩
    refine ⟨fun rs hne hrange => ?_, hinside, fun n chunks _ _ hbuild offset size hmem => ?_⟩
    · rw [hrange]
      exact (answers_iff hlen hne).mpr (hplain rs hne hrange)
    · exact inside_of_build hbuild hmem

theorem range_right_iff_ten : Right 10 [] [] (ascii "bytes=0-4") ↔
    (∀ rs, rs ≠ [] → ascii "bytes=0-4" = headerText rs → Plain 10 rs) ∧
      ¬ReadsBefore 10 (ascii "bytes=0-4") :=
  range_right_iff (by norm_num) [] [] (ascii "bytes=0-4")

/-- The second half of ten bytes. -/
def half : Item where
  space := []
  isSpaces := by simp
  spec := .span ⟨[53], List.cons_ne_nil _ _, List.forall_mem_singleton.mpr (by decide)⟩
    ⟨[57], List.cons_ne_nil _ _, List.forall_mem_singleton.mpr (by decide)⟩

/-- It is queued as it should, and announced as the positions 5 to 4. -/
theorem not_range_right : buildRangeResponse 10 [] [] 1 (ascii "bytes=5-9") =
      some (.queued [.file 5 5] (some (ascii "bytes 5-4/10")) none) ∧
    ¬Right 10 [] [] (ascii "bytes=5-9") := by
  have hbuild : buildRangeResponse 10 [] [] 1 (ascii "bytes=5-9") =
      some (.queued [.file 5 5] (some (ascii "bytes 5-4/10")) none) := by decide +kernel
  refine ⟨hbuild, fun h => ?_⟩
  obtain ⟨n, hn⟩ := h.1 [half] (List.cons_ne_nil _ _) (by decide +kernel)
  have hwanted : wantedResponse 10 [] [] [half] =
      .queued [.file 5 5] (some (ascii "bytes 5-9/10")) none := by decide +kernel
  have hsame := build_unique hbuild hn
  rw [hwanted] at hsame
  exact absurd hsame (by decide +kernel)

end Suil.FileRange
