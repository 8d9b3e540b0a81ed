/-
Strings of the typed JSON parser.

`fill<String>` looks for the closing quote with an index of its own, while `eof` asks about the
position of the parser, which stays where the string begins.  It returns what is between the
quotes as it stands, with the backslashes.  `fill<Data>` consumes the opening quote and then calls
`fill<String>`, which consumes another one; `Blob::fromJson` takes a hexadecimal text for the bytes.

* `endOf_eq_ok_iff` — where the search ends: at the first quote that is not escaped;
* `stringBack_iff`, `not_dataBack`, `filled_hexString_iff` — which values are read back;
* `readsRight_iff` — which texts the reader of strings reads as it should;
* `jsonStrings_iff` — all of these.
-/
import Suil.Crypto
import Suil.Lib.Quoting

open Quoting

namespace Suil.JsonText

/-- `>> '"'` of the parser, which moves its position behind a quote or throws; it may skip blanks
before the quote. -/
structure Opening where
  eat : Bytes → ℕ → Option ℕ
  eat_quote : ∀ {str pos}, str[pos]? = some 34 → pos + 1 < 2 ^ 31 → eat str pos = some (pos + 1)
  of_eat : ∀ {str pos start}, eat str pos = some start → start < 2 ^ 31 ∧
    ∃ k, start = pos + k + 1 ∧ str[pos + k]? = some 34 ∧
      ∀ i < k, ∃ c, str[pos + i]? = some c ∧ isSpace c = true

/-- The calls throw, look at what is not in the text, or leave an `int`. -/
inductive Fault where
  | thrown
  | outside
  | overflow
  | spent
deriving DecidableEq

/-! ### The readers -/

/-- `while (!eof() and str[end] != '"') end++`, before the end of the text. -/
def toQuote : Bytes → ℕ → Except Fault ℕ
  | [], _ => .error .outside
  | c :: rest, e =>
    if c = 34 then .ok e else if e + 1 < 2 ^ 31 then toQuote rest (e + 1) else .error .overflow

/-- The loop, from an index on; `end - sb` is one more than there are backslashes. -/
def endOf (str : Bytes) (eof : Bool) : ℕ → ℕ → Except Fault ℕ
  | 0, _ => .error .spent
  | turns + 1, e =>
    (if eof then .ok e else toQuote (str.drop e) e).bind fun e =>
      if (trailing 92 (str.take e) + 1) % 2 = 1 then .ok e
      else if e + 1 < 2 ^ 31 then endOf str eof turns (e + 1)
      else .error .overflow

/-- The closing quote of a string that begins at a position. -/
def close (str : Bytes) (start : ℕ) : Except Fault ℕ :=
  endOf str (decide (start = str.length)) (str.length + 1) start

/-- The position behind an index. -/
def behind (e : ℕ) : Except Fault ℕ := if e + 1 < 2 ^ 31 then .ok (e + 1) else .error .overflow

variable (p : Opening)

/-- `fill<String>`: what is read, and the position behind it. -/
def fillString (str : Bytes) (pos : ℕ) : Except Fault (Bytes × ℕ) :=
  match p.eat str pos with
  | none => .error .thrown
  | some start => (close str start).bind fun e =>
      (behind e).map fun next => ((str.drop start).take (e - start), next)

/-- `fill<Data>`; the bytes that are not written over are whatever was in the memory. -/
def fillData (str : Bytes) (pos : ℕ) (junk : ℕ → UInt8) : Except Fault (Bytes × ℕ) :=
  match p.eat str pos with
  | none => .error .thrown
  | some start => (close str start).bind fun e =>
      (fillString p str start).bind fun (tmp, _) =>
        let size := tmp.length / 2 + 2
        match bytes tmp size with
        | none => .error .thrown
        | some out =>
          (behind e).map fun next => (out ++ (List.range (size - out.length)).map junk, next)

/-- `Blob<N>::fromJson` -/
def fromJson (n : ℕ) (str : Bytes) (pos : ℕ) : Except Fault (Crypto.Blob n × ℕ) :=
  (fillString p str pos).bind fun (tmp, next) =>
    match Crypto.Blob.filled n tmp with
    | none => .error .thrown
    | some blob => .ok (blob, next)

/-! ### The writers -/

/-- `json_encode_` of a string. -/
def encodeString (v : Bytes) : Bytes := 34 :: (escape 34 92 v ++ [34])

/-- `hexstr` into a string, whose size has 32 bits. -/
def hexString (data : Bytes) : Bytes := (hexText data).take (2 * data.length % 2 ^ 32)

/-- `Data`, whose size has 32 bits, too. -/
abbrev Data := { d : Bytes // d.length < 2 ^ 32 }

/-! ### What should be read -/

/-- A value is read back from the text that was written for it, with other text around. -/
def StringBack (before after v : Bytes) : Prop :=
  fillString p (before ++ encodeString v ++ after) before.length =
    .ok (v, (before ++ encodeString v).length)

def DataBack (before after : Bytes) (d : Data) (junk : ℕ → UInt8) : Prop :=
  fillData p (before ++ encodeString (hexString d.val) ++ after) before.length junk =
    .ok (d.val, (before ++ encodeString (hexString d.val)).length)

def BlobBack {n : ℕ} (before after : Bytes) (v : Crypto.Blob n) : Prop :=
  fromJson p n (before ++ encodeString (hexString v.val) ++ after) before.length =
    .ok (v, (before ++ encodeString (hexString v.val)).length)

/-- The string ends at the first quote that is not escaped; the reader throws when there is none,
or no string begins. -/
def ReadsRight (str : Bytes) (pos : ℕ) : Prop :=
  match p.eat str pos with
  | none => fillString p str pos = .error .thrown
  | some start =>
    match closing 34 92 false (str.drop start) with
    | none => fillString p str pos = .error .thrown
    | some n => fillString p str pos = .ok ((str.drop start).take n, start + n + 1)

/-- A string that begins is closed, at an index that leaves an `int` for the one behind it. -/
def Terminated (str : Bytes) (pos : ℕ) : Prop :=
  ∀ start, p.eat str pos = some start →
    ∃ n, closing 34 92 false (str.drop start) = some n ∧ start + n + 1 < 2 ^ 31

variable {p} {str pre rest before after v tmp a : Bytes} {e i n pos next start turns : ℕ}

/-! ### The search -/

theorem toQuote_of_not_mem (h : 34 ∉ rest) : toQuote rest e ≠ .ok i := by
  induction rest generalizing e with
  | nil => exact fun heq => by cases heq
  | cons c rest ih =>
    obtain ⟨hc, hrest⟩ := List.ne_and_not_mem_of_not_mem_cons h
    rw [toQuote, if_neg (Ne.symm hc)]
    split_ifs
    · exact ih hrest
    · exact fun heq => by cases heq

/-- The next quote is found when an `int` holds its index. -/
theorem toQuote_eq (ha : 34 ∉ a) (he : e < 2 ^ 31) (rest : Bytes) :
    toQuote (a ++ 34 :: rest) e =
      if e + a.length < 2 ^ 31 then .ok (e + a.length) else .error .overflow := by
  induction a generalizing e with
  | nil => rw [List.nil_append, toQuote, if_pos rfl, List.length_nil, Nat.add_zero, if_pos he]
  | cons c a ih =>
    obtain ⟨hc, ha⟩ := List.ne_and_not_mem_of_not_mem_cons ha
    rw [List.cons_append, toQuote, if_neg (Ne.symm hc), List.length_cons]
    by_cases hstep : e + 1 < 2 ^ 31
    · rw [if_pos hstep, ih ha hstep, Nat.add_right_comm e 1, Nat.add_assoc e]
    · rw [if_neg hstep, if_neg (by omega)]

/-- **Where the search ends**: at the first quote that is not escaped. -/
theorem endOf_eq_ok_iff (hstr : str = pre ++ rest) (hpre : pre.length < 2 ^ 31)
    (hturns : rest.length < turns) :
    endOf str false turns pre.length = .ok e ↔
      ∃ n, closing 34 92 (decide (trailing 92 pre % 2 = 1)) rest = some n ∧
        e = pre.length + n ∧ e < 2 ^ 31 := by
  induction turns generalizing pre rest with
  | zero => exact absurd hturns (Nat.not_lt_zero _)
  | succ turns ih =>
    have hdrop : str.drop pre.length = rest := by rw [hstr, List.drop_left]
    rw [endOf, if_neg Bool.false_ne_true, hdrop]
    by_cases hquote : (34 : UInt8) ∈ rest
    · obtain ⟨a, t, rfl, ha⟩ := List.eq_append_cons_of_mem hquote
      have htake : str.take (pre.length + a.length) = pre ++ a := by
        rw [hstr, ← List.append_assoc, ← List.length_append, List.take_left]
      rw [toQuote_eq ha hpre, closing_append ha, escaped_trailing, closing_quote]
      by_cases hin : pre.length + a.length < 2 ^ 31
      · rw [if_pos hin]
        show (if _ then _ else _) = _ ↔ _
        rw [htake]
        by_cases hodd : trailing 92 (pre ++ a) % 2 = 1
        · -- the quote is escaped, and the search goes on behind it
          rw [if_neg (by omega), decide_eq_true hodd, if_pos rfl, Option.map_map]
          by_cases hstep : pre.length + a.length + 1 < 2 ^ 31
          · have hlen : (pre ++ a ++ [34]).length = pre.length + a.length + 1 := by
              simp only [List.length_append, List.length_singleton]
            have hturns' : t.length < turns := by
              rw [List.length_append, List.length_cons] at hturns
              omega
            have hstate : trailing 92 (pre ++ a ++ [34]) = 0 := by
              rw [trailing_concat, if_neg (by decide)]
            have hnext := @ih (pre ++ a ++ [34]) t (by rw [hstr]; simp) (by omega) hturns'
            rw [hlen, hstate] at hnext
            rw [if_pos hstep, hnext]
            constructor
            · rintro ⟨n, hn, rfl, hlt⟩
              exact ⟨_, congrArg (Option.map _) hn, by simp only [Function.comp]; omega, hlt⟩
            · rintro ⟨m, hm, rfl, hlt⟩
              obtain ⟨n, hn, rfl⟩ := Option.map_eq_some_iff.mp hm
              exact ⟨n, hn, by simp only [Function.comp]; omega, hlt⟩
          · rw [if_neg hstep]
            refine iff_of_false (fun heq => by cases heq) ?_
            rintro ⟨m, hm, rfl, hlt⟩
            obtain ⟨n, -, rfl⟩ := Option.map_eq_some_iff.mp hm
            simp only [Function.comp] at hlt
            omega
        · rw [if_pos (by omega), decide_eq_false hodd, if_neg Bool.false_ne_true]
          constructor
          · intro heq
            cases heq
            exact ⟨a.length, rfl, rfl, hin⟩
          · rintro ⟨n, hn, rfl, -⟩
            obtain rfl := Option.some.inj hn
            rfl
      · rw [if_neg hin]
        refine iff_of_false (fun heq => by cases heq) ?_
        rintro ⟨m, hm, rfl, hlt⟩
        obtain ⟨n, -, rfl⟩ := Option.map_eq_some_iff.mp hm
        omega
    · rw [closing_of_not_mem hquote]
      refine iff_of_false (fun heq => ?_) fun ⟨n, hn, _⟩ => by cases hn
      cases hfound : toQuote rest pre.length with
      | error f =>
        rw [hfound] at heq
        cases heq
      | ok i => exact toQuote_of_not_mem hquote hfound

/-- From behind the opening quote, the search is one of the text that is left. -/
theorem close_eq_ok_iff (hquote : str.take start = pre ++ [34]) (hlt : start < 2 ^ 31)
    (hle : start ≤ str.length) : close str start = .ok e ↔
      (start = str.length ∧ e = start) ∨
        ∃ n, closing 34 92 false (str.drop start) = some n ∧ e = start + n ∧ e < 2 ^ 31 := by
  have hlen : (pre ++ [34]).length = start := by rw [← hquote, List.length_take_of_le hle]
  have hstate : trailing 92 (pre ++ [34]) = 0 := by rw [trailing_concat, if_neg (by decide)]
  rw [close]
  by_cases hend : start = str.length
  · rw [decide_eq_true hend, endOf, if_pos rfl, List.drop_eq_nil_of_le hend.ge]
    show (if _ then _ else _) = _ ↔ _
    rw [hquote, hstate, if_pos rfl]
    constructor
    · intro heq
      exact .inl ⟨hend, (Except.ok.inj heq).symm⟩
    · rintro (⟨-, rfl⟩ | ⟨n, hn, -⟩)
      · rfl
      · cases hn
  · have hsplit : str = pre ++ [34] ++ str.drop start := by
      rw [← hquote, List.take_append_drop]
    have hdrop : (str.drop start).length < str.length + 1 := by
      rw [List.length_drop]
      omega
    have hsearch := @endOf_eq_ok_iff str (pre ++ [34]) (str.drop start) e (str.length + 1) hsplit
      (by omega) hdrop
    rw [hlen, hstate] at hsearch
    rw [decide_eq_false hend, hsearch, or_iff_right fun h => hend h.1]
    rfl

/-- What is before a position that the parser has moved to. -/
theorem take_of_eat (h : p.eat str pos = some start) :
    ∃ pre, str.take start = pre ++ [34] ∧ start < 2 ^ 31 ∧ start ≤ str.length := by
  obtain ⟨hlt, k, rfl, hat, -⟩ := p.of_eat h
  obtain ⟨hin, hc⟩ := List.getElem?_eq_some_iff.mp hat
  refine ⟨str.take (pos + k), ?_, hlt, hin⟩
  rw [List.take_add_one, hat]
  rfl

/-- What `fill<String>` returns. -/
theorem fillString_eq_ok_iff (h : p.eat str pos = some start) :
    fillString p str pos = .ok (v, next) ↔
      ∃ e, close str start = .ok e ∧ next = e + 1 ∧ next < 2 ^ 31 ∧
        v = (str.drop start).take (e - start) := by
  rw [fillString, h]
  dsimp only
  cases hclose : close str start with
  | error f => exact iff_of_false (fun heq => by cases heq) fun ⟨e, he, _⟩ => by cases he
  | ok e =>
    show (behind e).map _ = _ ↔ _
    rw [behind]
    split_ifs with hlt
    · constructor
      · intro heq
        cases heq
        exact ⟨e, rfl, rfl, hlt, rfl⟩
      · rintro ⟨e', he, rfl, -, rfl⟩
        cases he
        rfl
    · refine iff_of_false (fun heq => by cases heq) ?_
      rintro ⟨e', he, rfl, hlt', -⟩
      cases he
      exact hlt hlt'

theorem endOf_ne_thrown {eof : Bool} : endOf str eof turns e ≠ .error .thrown := by
  have hquote : ∀ (rest : Bytes) (e : ℕ), toQuote rest e ≠ .error .thrown := by
    intro rest
    induction rest with
    | nil => exact fun e heq => by cases heq
    | cons c rest ih =>
      intro e
      rw [toQuote]
      split_ifs
      · exact fun heq => by cases heq
      · exact ih (e + 1)
      · exact fun heq => by cases heq
  induction turns generalizing e with
  | zero => exact fun heq => by cases heq
  | succ turns ih =>
    rw [endOf]
    cases hfound : (if eof then Except.ok e else toQuote (str.drop e) e) with
    | error f =>
      intro heq
      obtain rfl : f = .thrown := by cases heq; rfl
      cases eof with
      | true => cases hfound
      | false => exact hquote _ _ hfound
    | ok i =>
      show (if _ then _ else _) ≠ _
      split_ifs
      · exact fun heq => by cases heq
      · exact ih
      · exact fun heq => by cases heq

/-- Once a string has begun, the reader does not throw. -/
theorem fillString_ne_thrown (h : p.eat str pos = some start) :
    fillString p str pos ≠ .error .thrown := by
  rw [fillString, h]
  dsimp only
  cases hclose : close str start with
  | error f =>
    intro heq
    obtain rfl : f = .thrown := by cases heq; rfl
    exact endOf_ne_thrown hclose
  | ok e =>
    show (behind e).map _ ≠ _
    rw [behind]
    split_ifs
    · exact fun heq => by cases heq
    · exact fun heq => by cases heq

/-- **The texts that are read as they should be.** -/
theorem readsRight_iff (p : Opening) (str : Bytes) (pos : ℕ) :
    ReadsRight p str pos ↔ Terminated p str pos := by
  rw [ReadsRight, Terminated]
  cases heat : p.eat str pos with
  | none =>
    refine iff_of_true ?_ fun start hstart => by cases hstart
    show fillString p str pos = _
    rw [fillString, heat]
  | some start =>
    obtain ⟨pre, hpre, hlt, hle⟩ := take_of_eat heat
    simp only [Option.some_inj, forall_eq']
    cases hclosing : closing 34 92 false (str.drop start) with
    | none =>
      refine iff_of_false (fillString_ne_thrown heat) ?_
      rintro ⟨n, hn, -⟩
      cases hn
    | some n =>
      dsimp only
      rw [fillString_eq_ok_iff heat]
      constructor
      · rintro ⟨e, -, hnext, hsmall, -⟩
        exact ⟨n, rfl, hsmall⟩
      · rintro ⟨m, hm, hsmall⟩
        obtain rfl := Option.some.inj hm
        refine ⟨start + n, (close_eq_ok_iff hpre hlt hle).mpr (.inr ⟨n, hclosing, rfl, by omega⟩),
          rfl, hsmall, ?_⟩
        rw [Nat.add_sub_cancel_left]

/-! ### The round trips -/

theorem length_encodeString (v : Bytes) :
    (encodeString v).length = (escape 34 92 v).length + 2 := by
  rw [encodeString, List.length_cons, List.length_append, List.length_singleton]

theorem drop_encodeString (before after v : Bytes) :
    (before ++ encodeString v ++ after).drop (before.length + 1) =
      escape 34 92 v ++ 34 :: after := by
  rw [encodeString, List.append_assoc, ← List.drop_drop, List.drop_left]
  simp

/-- **What is read of a string** is its escaped text. -/
theorem fillString_encodeString (p : Opening) (before after v t : Bytes) :
    fillString p (before ++ encodeString v ++ after) before.length =
        .ok (t, (before ++ encodeString v).length) ↔
      t = escape 34 92 v ∧ before.length + t.length + 2 < 2 ^ 31 := by
  have hat : (before ++ encodeString v ++ after)[before.length]? = some 34 := by
    rw [List.append_assoc, List.getElem?_append_right le_rfl, Nat.sub_self]
    rfl
  by_cases hopen : before.length + 1 < 2 ^ 31
  · have heat := p.eat_quote hat hopen
    obtain ⟨pre, hpre, hlt, hle⟩ := take_of_eat heat
    rw [fillString_eq_ok_iff heat, List.length_append, length_encodeString, drop_encodeString]
    have hclosing := closing_escape (q := (34 : UInt8)) (b := 92) (by decide) v after
    constructor
    · rintro ⟨e, -, hnext, hsmall, ht⟩
      rw [show e - (before.length + 1) = (escape 34 92 v).length by omega, List.take_left] at ht
      subst ht
      exact ⟨rfl, by omega⟩
    · rintro ⟨rfl, hsmall⟩
      refine ⟨before.length + 1 + (escape 34 92 v).length, ?_, by omega, by omega, ?_⟩
      · rw [close_eq_ok_iff hpre hlt hle, drop_encodeString]
        exact .inr ⟨_, hclosing, rfl, by omega⟩
      · rw [Nat.add_sub_cancel_left, List.take_left]
  · refine iff_of_false (fun heq => ?_) fun h => by omega
    cases heat : p.eat (before ++ encodeString v ++ after) before.length with
    | none =>
      rw [fillString, heat] at heq
      cases heq
    | some start =>
      obtain ⟨hlt, k, rfl, -⟩ := p.of_eat heat
      omega

/-- **The strings that are read back** have neither quotes nor backslashes. -/
theorem stringBack_iff (p : Opening) (before after v : Bytes) :
    StringBack p before after v ↔
      (34 ∉ v ∧ 92 ∉ v) ∧ before.length + v.length + 2 < 2 ^ 31 := by
  rw [StringBack, fillString_encodeString, eq_comm, escape_eq_self_iff]

/-- The characters of a hexadecimal text. -/
theorem mem_hexString {d : Bytes} {c : UInt8} (h : c ∈ hexString d) :
    c ≠ 34 ∧ c ≠ 92 ∧ isSpace c = false := by
  have hdigit : ∀ n < 16, i2c (UInt8.ofNat n) ≠ 34 ∧ i2c (UInt8.ofNat n) ≠ 92 ∧
      isSpace (i2c (UInt8.ofNat n)) = false := by decide
  have hnibble : ∀ b : UInt8, b.toNat < 16 → i2c b ≠ 34 ∧ i2c b ≠ 92 ∧ isSpace (i2c b) = false := by
    intro b hb
    have hb' := hdigit b.toNat hb
    rwa [UInt8.ofNat_toNat] at hb'
  have hhigh : ∀ b : UInt8, (b >>> 4).toNat < 16 := by
    intro b
    have hlt := b.toNat_lt
    rw [UInt8.toNat_shiftRight, Nat.shiftRight_eq_div_pow]
    exact Nat.div_lt_of_lt_mul hlt
  have hlow : ∀ b : UInt8, (b &&& 15).toNat < 16 := by
    intro b
    rw [UInt8.toNat_and]
    exact Nat.and_le_right.trans_lt (by decide)
  have hmem : c ∈ hexText d := List.mem_of_mem_take h
  rw [hexText, hexstr, if_neg (lt_irrefl _), List.mem_flatMap] at hmem
  obtain ⟨b, -, hc⟩ := hmem
  rcases List.mem_cons.mp hc with rfl | hc
  · exact hnibble _ (hhigh b)
  · obtain rfl := List.mem_singleton.mp hc
    exact hnibble _ (hlow b)

theorem escape_hexString (d : Bytes) : escape 34 92 (hexString d) = hexString d :=
  escape_eq_self_iff.mpr
    ⟨fun hmem => (mem_hexString hmem).1 rfl, fun hmem => (mem_hexString hmem).2.1 rfl⟩

theorem length_hexString (d : Bytes) : (hexString d).length = 2 * d.length % 2 ^ 32 := by
  rw [hexString, List.length_take_of_le]
  rw [length_hexText]
  exact Nat.mod_le _ _

/-- What is read of a blob is its hexadecimal text. -/
theorem blobBack_iff_filled (p : Opening) (before after : Bytes) {n : ℕ} (v : Crypto.Blob n) :
    BlobBack p before after v ↔ Crypto.Blob.filled n (hexString v.val) = some v ∧
      before.length + (hexString v.val).length + 2 < 2 ^ 31 := by
  have hread := fillString_encodeString p before after (hexString v.val)
  rw [escape_hexString] at hread
  rw [BlobBack, fromJson]
  constructor
  · intro heq
    cases hfill : fillString p (before ++ encodeString (hexString v.val) ++ after)
        before.length with
    | error f =>
      rw [hfill] at heq
      cases heq
    | ok found =>
      obtain ⟨tmp, next⟩ := found
      rw [hfill] at heq
      change (match Crypto.Blob.filled n tmp with | none => _ | some blob => _) = _ at heq
      cases hblob : Crypto.Blob.filled n tmp with
      | none =>
        rw [hblob] at heq
        cases heq
      | some blob =>
        rw [hblob] at heq
        obtain ⟨rfl, rfl⟩ := Prod.mk.inj (Except.ok.inj heq)
        obtain ⟨rfl, hsmall⟩ := (hread tmp).mp hfill
        exact ⟨hblob, hsmall⟩
  · rintro ⟨hblob, hsmall⟩
    rw [(hread _).mpr ⟨rfl, hsmall⟩]
    show (match Crypto.Blob.filled n (hexString v.val) with | none => _ | some blob => _) = _
    rw [hblob]

/-- The characters of a hexadecimal text, two for each byte. -/
theorem getElem?_hexText (d : Bytes) (i : ℕ) :
    (hexText d)[i]? =
      d[i / 2]?.map fun b : UInt8 => if i % 2 = 0 then i2c (b >>> 4) else i2c (b &&& 15) := by
  rw [hexText, hexstr, if_neg (lt_irrefl _)]
  induction d generalizing i with
  | nil => rfl
  | cons b d ih =>
    rcases i with _ | _ | i
    · rfl
    · rfl
    · have hhalf : (i + 1 + 1) / 2 = i / 2 + 1 := by omega
      have hparity : (i + 1 + 1) % 2 = i % 2 := by omega
      rw [hhalf, hparity, List.getElem?_cons_succ]
      exact ih i

/-- A byte that is the first of its own digits. -/
theorem i2c_eq_self (b : UInt8) : i2c (b >>> 4) = b ↔ b = 51 := by
  revert b
  exact forall_byte (by decide +kernel)

/-- A text that begins with its own hexadecimal text begins with the digit 3. -/
theorem eq_of_hexText_self {d : Bytes} {m : ℕ} (h : ∀ i < m, (hexText d)[i]? = d[i]?)
    (hm : m ≤ d.length) {i : ℕ} (hi : i < m) : d[i]? = some 51 := by
  induction i using Nat.strong_induction_on with
  | _ i ih =>
    have hself := h i hi
    rw [getElem?_hexText] at hself
    rcases Nat.eq_zero_or_pos i with rfl | hpos
    · obtain ⟨b, hb⟩ : ∃ b, d[0]? = some b := ⟨_, List.getElem?_eq_getElem (by omega)⟩
      rw [hb] at hself
      rw [hb, (i2c_eq_self b).mp (Option.some.inj hself)]
    · rw [← hself, ih (i / 2) (by omega) (by omega)]
      show some (if _ then _ else _) = _
      split_ifs <;> decide

/-- **The blobs that are read back** have their hexadecimal text, of digits 3, with zeros behind
it; below `2 ^ 31` bytes it does not fit. -/
theorem filled_hexString_iff {n : ℕ} (v : Crypto.Blob n) :
    Crypto.Blob.filled n (hexString v.val) = some v ↔ 2 * n % 2 ^ 32 ≤ n ∧
      v.val = List.replicate (2 * n % 2 ^ 32) 51 ++ List.replicate (n - 2 * n % 2 ^ 32) 0 := by
  have hlen : (hexString v.val).length = 2 * n % 2 ^ 32 := by rw [length_hexString, v.2]
  generalize hm : 2 * n % 2 ^ 32 = m at *
  rw [Crypto.Blob.filled]
  by_cases hle : m ≤ n
  · rw [dif_pos (hlen.trans_le hle), Option.some_inj, Subtype.ext_iff, and_iff_right hle]
    show hexString v.val ++ List.replicate (n - (hexString v.val).length) 0 = v.val ↔ _
    rw [hlen]
    have htake : hexString v.val = (hexText v.val).take m := by rw [hexString, v.2, hm]
    have hat : ∀ i < m, (hexString v.val)[i]? = (hexText v.val)[i]? := by
      intro i hi
      rw [htake, List.getElem?_take_of_lt hi]
    -- both sides say that the text is made of digits 3
    have hthrees : hexString v.val = List.replicate m 51 ↔
        ∀ i < m, (hexString v.val)[i]? = some 51 := by
      constructor
      · intro h i hi
        rw [h, List.getElem?_replicate_of_lt hi]
      · intro h
        refine List.eq_replicate_iff.mpr ⟨hlen, fun c hc => ?_⟩
        obtain ⟨i, hi, rfl⟩ := List.mem_iff_getElem.mp hc
        have hget := h i (hlen ▸ hi)
        rw [List.getElem?_eq_getElem hi] at hget
        exact Option.some.inj hget
    constructor
    · intro heq
      have hself : ∀ i < m, (hexText v.val)[i]? = v.val[i]? := by
        intro i hi
        rw [← hat i hi, ← congrArg (·[i]?) heq]
        exact (List.getElem?_append_left (hlen.symm ▸ hi)).symm
      rw [← hthrees.mpr fun i hi => ?_, heq]
      rw [hat i hi, hself i hi]
      exact eq_of_hexText_self hself (v.2.symm ▸ hle) hi
    · intro heq
      rw [hthrees.mpr fun i hi => ?_, ← heq]
      have hhalf : v.val[i / 2]? = some 51 := by
        rw [heq, List.getElem?_append_left (by rw [List.length_replicate]; omega),
          List.getElem?_replicate_of_lt (by omega)]
      rw [hat i hi, getElem?_hexText, hhalf]
      show some (if _ then _ else _) = _
      split_ifs <;> decide
  · rw [dif_neg (fun h => hle (hlen ▸ h))]
    exact iff_of_false (fun heq => by cases heq) fun h => hle h.1

/-- What `fill<Data>` returns. -/
theorem of_fillData {junk : ℕ → UInt8} {d : Bytes} (heat : p.eat str pos = some start)
    (h : fillData p str pos junk = .ok (d, next)) :
    ∃ tmp behind', fillString p str start = .ok (tmp, behind') ∧ 2 ≤ d.length ∧
      d.length ≤ tmp.length + 2 := by
  rw [fillData, heat] at h
  dsimp only at h
  cases hclose : close str start with
  | error f =>
    rw [hclose] at h
    cases h
  | ok e =>
    rw [hclose] at h
    cases hfill : fillString p str start with
    | error f =>
      change (fillString p str start).bind _ = _ at h
      rw [hfill] at h
      cases h
    | ok found =>
      obtain ⟨tmp, behind'⟩ := found
      refine ⟨tmp, behind', rfl, ?_⟩
      change (fillString p str start).bind _ = _ at h
      rw [hfill] at h
      change (match bytes tmp (tmp.length / 2 + 2) with | none => _ | some out => _) = _ at h
      cases hbytes : bytes tmp (tmp.length / 2 + 2) with
      | none =>
        rw [hbytes] at h
        cases h
      | some out =>
        rw [hbytes] at h
        have hout : out.length ≤ tmp.length := by
          rw [bytes, if_neg (by omega)] at hbytes
          exact (length_hexPairs_le hbytes).trans (Nat.div_le_self _ 2)
        change (behind e).map _ = _ at h
        rw [behind] at h
        split_ifs at h
        · obtain ⟨rfl, -⟩ := Prod.mk.inj (Except.ok.inj h)
          simp only [List.length_append, List.length_map, List.length_range]
          omega
        · cases h

/-- **No data are read back**: the second opening quote is missing, or it is the closing one. -/
theorem not_dataBack (p : Opening) (before after : Bytes) (d : Data) (junk : ℕ → UInt8) :
    ¬ DataBack p before after d junk := by
  intro hback
  rw [DataBack] at hback
  set str := before ++ encodeString (hexString d.val) ++ after with hstr
  have hat : ∀ i, str[before.length + i]? = (encodeString (hexString d.val) ++ after)[i]? := by
    intro i
    rw [hstr, List.append_assoc, List.getElem?_append_right (Nat.le_add_right _ _),
      Nat.add_sub_cancel_left]
  cases heat : p.eat str before.length with
  | none =>
    rw [fillData, heat] at hback
    cases hback
  | some start =>
    -- the opening quote is where the text begins
    obtain ⟨hlt, k, rfl, hquote, hblanks⟩ := p.of_eat heat
    obtain rfl : k = 0 := by
      by_contra hk
      obtain ⟨c, hc, hblank⟩ := hblanks 0 (Nat.pos_of_ne_zero hk)
      rw [hat 0] at hc
      obtain rfl := Option.some.inj hc
      cases hblank
    obtain ⟨tmp, next, htmp, htwo, hsize⟩ := of_fillData heat hback
    cases heat' : p.eat str (before.length + 0 + 1) with
    | none =>
      rw [fillString, heat'] at htmp
      cases htmp
    | some start' =>
      obtain ⟨hlt', k, hstart, hquote', hblanks'⟩ := p.of_eat heat'
      have htext : encodeString (hexString d.val) ++ after =
          34 :: (hexString d.val ++ 34 :: after) := by
        rw [encodeString, escape_hexString, List.cons_append, List.append_assoc]
        rfl
      have hbehind : ∀ i,
          str[before.length + 0 + 1 + i]? = (hexString d.val ++ 34 :: after)[i]? := by
        intro i
        rw [show before.length + 0 + 1 + i = before.length + (i + 1) by omega, hat, htext]
        rfl
      have hempty : hexString d.val = [] := by
        cases hhex : hexString d.val with
        | nil => rfl
        | cons c hex =>
          have hc := mem_hexString (d := d.val) (c := c) (by rw [hhex]; exact List.mem_cons_self)
          have hfirst := hbehind 0
          rw [hhex] at hfirst
          change _ = some c at hfirst
          rcases Nat.eq_zero_or_pos k with rfl | hk
          · rw [hfirst] at hquote'
            exact absurd (Option.some.inj hquote') hc.1
          · obtain ⟨c', hc', hblank⟩ := hblanks' 0 hk
            rw [hfirst] at hc'
            obtain rfl := Option.some.inj hc'
            rw [hc.2.2] at hblank
            cases hblank
      have hnone : 2 * d.val.length % 2 ^ 32 = 0 := by rw [← length_hexString, hempty]; rfl
      obtain ⟨e, -, rfl, hsmall, rfl⟩ := (fillString_eq_ok_iff heat').mp htmp
      have hread : ((str.drop start').take (e - start')).length ≤ e - start' :=
        List.length_take_le _ _
      have hdata := d.2
      omega

/-- **When the values are read back, and which texts are read as they should be.** -/
theorem jsonStrings_iff (p : Opening) :
    (∀ before after v, StringBack p before after v ↔
      (34 ∉ v ∧ 92 ∉ v) ∧ before.length + v.length + 2 < 2 ^ 31) ∧
    (∀ before after d junk, ¬ DataBack p before after d junk) ∧
    (∀ before after n (v : Crypto.Blob n), BlobBack p before after v ↔
      (2 * n % 2 ^ 32 ≤ n ∧
        v.val = List.replicate (2 * n % 2 ^ 32) 51 ++ List.replicate (n - 2 * n % 2 ^ 32) 0) ∧
      before.length + 2 * n % 2 ^ 32 + 2 < 2 ^ 31) ∧
    ∀ str pos, ReadsRight p str pos ↔ Terminated p str pos := by
  refine ⟨stringBack_iff p, not_dataBack p, fun before after n v => ?_, readsRight_iff p⟩
  rw [blobBack_iff_filled, filled_hexString_iff, length_hexString, v.2]

/-- An opening that skips no blanks. -/
def strict : Opening where
  eat str pos := if str[pos]? = some 34 ∧ pos + 1 < 2 ^ 31 then some (pos + 1) else none
  eat_quote hat hlt := if_pos ⟨hat, hlt⟩
  of_eat h := by
    split_ifs at h with hat
    obtain rfl := Option.some.inj h
    exact ⟨hat.2, 0, rfl, hat.1, fun i hi => absurd hi (Nat.not_lt_zero i)⟩

/-- A quote is read back with a backslash, no data as two bytes, and a byte not at all; a text
without a closing quote is read behind its end. -/
theorem not_jsonStrings :
    fillString strict (encodeString (ascii "a\"")) 0 = .ok (ascii "a\\\"", 5) ∧
    fillData strict (encodeString (hexString [])) 0 (fun _ => 7) = .ok ([7, 7], 2) ∧
    fromJson strict 1 (encodeString (hexString [171])) 0 = .error .thrown ∧
    fillString strict (ascii "\"a") 0 = .error .outside ∧
    ¬ StringBack strict [] [] (ascii "a\"") ∧
    ¬ (∀ junk, DataBack strict [] [] ⟨[], by decide⟩ junk) ∧
    ¬ BlobBack strict [] [] (⟨[171], rfl⟩ : Crypto.Blob 1) ∧
    ¬ ReadsRight strict (ascii "\"a") 0 := by
  refine ⟨by decide, by decide, by decide, by decide, ?_, fun h => ?_, ?_, ?_⟩
  · rw [stringBack_iff]
    decide
  · exact not_dataBack _ _ _ _ _ (h fun _ => 0)
  · rw [blobBack_iff_filled, filled_hexString_iff]
    decide
  · rw [readsRight_iff]
    intro h
    obtain ⟨n, hn, -⟩ := h 1 (by decide)
    rw [show closing 34 92 false ((ascii "\"a").drop 1) = none by decide] at hn
    cases hn

end Suil.JsonText
