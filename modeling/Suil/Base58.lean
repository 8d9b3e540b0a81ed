/-
Text in base 58.

`computeBase58` writes the digits of a big number, lowest first, then a `1` for each leading zero
byte, and reverses what it has written.  The index is an `int`, and so is the length that the big
number is made of; the text has less than `2 ^ 31` characters, or one of them overflows.

* `puts_eq_ok_iff` — what writing one character after another comes to;
* `reverse_append` — the swaps reverse the text;
* `length_base58_le` — the text has room in what is allocated;
* `decode_base58` — the text is read back, whatever the bytes are;
* `base58_right_iff` — for which bytes it is what is returned.
-/
import Suil.Crypto
import Suil.Lib.Positional

open Positional

namespace Suil.Base58

open Crypto (bin2bn)

/-- Cells outside of the allocated ones, an index above `INT_MAX`, or a length that is negative. -/
inductive Fault where
  | outside
  | overflow
  | negative
deriving DecidableEq

def base58Alphabet : Bytes := ascii "123456789ABCDEFGHJKLMNPQRSTUVWXYZabcdefghijkmnopqrstuvwxyz"

def symbol (d : ℕ) : UInt8 := base58Alphabet.getD d 0

/-- `str[i] = c` -/
def put (str : Bytes) (i : ℕ) (c : UInt8) : Except Fault Bytes :=
  if i < str.length then .ok (str.set i c) else .error .outside

/-- `++i` -/
def next (i : ℕ) : Except Fault ℕ := if i + 1 < 2 ^ 31 then .ok (i + 1) else .error .overflow

/-- The loop over the big number. -/
def digits (str : Bytes) (i x : ℕ) : Except Fault (Bytes × ℕ) :=
  if x = 0 then .ok (str, i)
  else
    (put str i (symbol (x % 58))).bind fun str => (next i).bind fun i => digits str i (x / 58)
termination_by x

/-- The loop over the leading zeros, whose own index is never above the other one. -/
def zeros : Bytes → Bytes → ℕ → Except Fault (Bytes × ℕ)
  | [], str, i => .ok (str, i)
  | b :: bytes, str, i =>
    if b ≠ 0 then .ok (str, i)
    else (put str i (symbol 0)).bind fun str => (next i).bind fun i => zeros bytes str i

/-- A turn of `reverse`. -/
def swap (len : ℕ) (bytes : Bytes) (i : ℕ) : Bytes :=
  let left := bytes.getD i 0
  let right := bytes.getD (len - i - 1) 0
  (bytes.set i right).set (len - i - 1) left

def reverse (data : Bytes) (len : ℕ) : Bytes := (List.range (len / 2)).foldl (swap len) data

/-- A length as an `int`. -/
def toInt (len : ℕ) : Except Fault ℕ :=
  if len % 2 ^ 32 < 2 ^ 31 then .ok (len % 2 ^ 32) else .error .negative

/-- The reversed text, up to its `strlen`. -/
def finished (str : Bytes) (i : ℕ) : Except Fault Bytes :=
  if (0 : UInt8) ∈ reverse str i then .ok ((reverse str i).takeWhile (· ≠ 0)) else .error .outside

/-- How many cells are allocated. -/
def strLen (len : ℕ) : ℕ := (len * 138 % 2 ^ 64 / 100 + 2) % 2 ^ 64

def computeBase58 (data : Bytes) : Except Fault Bytes :=
  (toInt data.length).bind fun len =>
    (digits (List.replicate (strLen data.length) 0) 0 (bin2bn (data.take len))).bind
      fun (str, i) => (zeros data str i).bind fun (str, i) => finished str i

/-- The bytes with their checksum behind them. -/
def summed {Point : Type} (o : Crypto.OpenSSL Point) (data : Bytes) (csum : Bool) : Bytes :=
  if csum then data ++ (Crypto.hash256 o data).take 4 else data

def toBase58 {Point : Type} (o : Crypto.OpenSSL Point) (data : Bytes) (csum : Bool) :
    Except Fault Bytes :=
  computeBase58 (summed o data csum)

/-! ### What the text should be -/

/-- A `1` for each leading zero byte, and the digits of the big-endian number. -/
def base58 (data : Bytes) : Bytes := (recode 256 58 (data.map UInt8.toNat)).map symbol

/-- The reference decoder. -/
def decode (text : Bytes) : Option Bytes :=
  (text.mapM (base58Alphabet.idxOf? ·)).map fun ds => (recode 58 256 ds).map UInt8.ofNat

/-- The leading zeros and the digits are less than `2 ^ 31`. -/
def Fits (data : Bytes) : Prop :=
  (data.takeWhile (· = 0)).length + (Nat.digits 58 (bin2bn data)).length < 2 ^ 31

variable {data cs a rest t s str : Bytes} {i x d n : ℕ}

/-! ### Writing -/

/-- Characters that are written one after another. -/
def puts : Bytes → Bytes → ℕ → Except Fault (Bytes × ℕ)
  | [], str, i => .ok (str, i)
  | c :: cs, str, i => (put str i c).bind fun str => (next i).bind fun i => puts cs str i

theorem digits_eq_puts (str : Bytes) (i x : ℕ) :
    digits str i x = puts ((Nat.digits 58 x).map symbol) str i := by
  induction x using Nat.strong_induction_on generalizing str i with
  | _ x ih =>
    rw [digits]
    rcases Nat.eq_zero_or_pos x with rfl | hpos
    · rw [if_pos rfl, Nat.digits_zero]
      rfl
    · rw [if_neg hpos.ne', Nat.digits_def' (by decide) hpos, List.map_cons, puts]
      refine congrArg _ (funext fun str => congrArg _ (funext fun i => ?_))
      exact ih _ (by omega) str i

theorem zeros_eq_puts (data str : Bytes) (i : ℕ) :
    zeros data str i = puts (List.replicate (data.takeWhile (· = 0)).length (symbol 0)) str i := by
  induction data generalizing str i with
  | nil => rfl
  | cons b data ih =>
    rw [zeros]
    by_cases hb : b = 0
    · subst hb
      rw [if_neg (not_not.mpr rfl), List.takeWhile_cons_of_pos (by decide), List.length_cons,
        List.replicate_succ, puts]
      exact congrArg _ (funext fun str => congrArg _ (funext fun i => ih str i))
    · rw [if_pos hb, List.takeWhile_cons_of_neg (by simpa using hb)]
      rfl

theorem puts_append (cs ds str : Bytes) (i : ℕ) :
    puts (cs ++ ds) str i = (puts cs str i).bind fun (str, i) => puts ds str i := by
  induction cs generalizing str i with
  | nil => rfl
  | cons c cs ih =>
    rw [List.cons_append, puts, puts]
    cases put str i c with
    | error f => rfl
    | ok str =>
      cases next i with
      | error f => rfl
      | ok i => exact ih str i

/-- **What writing comes to**: the characters are behind what was written before. -/
theorem puts_eq_ok_iff (ha : a.length < 2 ^ 31) : puts cs (a ++ rest) a.length = .ok (s, i) ↔
    cs.length ≤ rest.length ∧ a.length + cs.length < 2 ^ 31 ∧
      s = a ++ cs ++ rest.drop cs.length ∧ i = a.length + cs.length := by
  induction cs generalizing a rest with
  | nil =>
    rw [puts, List.append_nil, List.length_nil, List.drop_zero, Nat.add_zero]
    constructor
    · intro h
      cases h
      exact ⟨Nat.zero_le _, ha, rfl, rfl⟩
    · rintro ⟨-, -, rfl, rfl⟩
      rfl
  | cons c cs ih =>
    rw [puts, put]
    cases rest with
    | nil =>
      rw [if_neg (by simp)]
      refine iff_of_false (fun h => by cases h) fun h => ?_
      exact absurd h.1 (Nat.not_succ_le_zero _)
    | cons r rest =>
      rw [if_pos (by simp)]
      have hset : (a ++ r :: rest).set a.length c = a ++ [c] ++ rest := by
        rw [List.set_append_right _ _ le_rfl, Nat.sub_self, List.append_assoc]
        rfl
      show (next a.length).bind _ = _ ↔ _
      rw [hset, next]
      have hlen : (a ++ [c]).length = a.length + 1 := by
        rw [List.length_append, List.length_singleton]
      by_cases hstep : a.length + 1 < 2 ^ 31
      · rw [if_pos hstep]
        have hrest := @ih (a ++ [c]) rest (hlen.trans_lt hstep)
        rw [hlen] at hrest
        show puts cs _ _ = _ ↔ _
        rw [hrest, List.append_assoc a]
        simp only [List.length_cons, List.drop_succ_cons, List.singleton_append]
        constructor
        · rintro ⟨hroom, hsmall, hs, hi⟩
          exact ⟨by omega, by omega, hs, by omega⟩
        · rintro ⟨hroom, hsmall, hs, hi⟩
          exact ⟨by omega, by omega, hs, by omega⟩
      · rw [if_neg hstep]
        refine iff_of_false (fun h => by cases h) fun h => ?_
        have hsmall := h.2.1
        rw [List.length_cons] at hsmall
        omega

/-! ### Reversing -/

theorem getElem?_swap (hi : i < data.length) (hj : n - i - 1 < data.length) (p : ℕ) :
    (swap n data i)[p]? = if p = n - i - 1 then data[i]? else if p = i then data[n - i - 1]?
      else data[p]? := by
  rw [swap, List.getD_eq_getElem _ _ hi, List.getD_eq_getElem _ _ hj, List.getElem?_set,
    List.getElem?_set, List.length_set]
  by_cases hright : n - i - 1 = p
  · rw [if_pos hright, if_pos hright.symm, if_pos (hright ▸ hj), List.getElem?_eq_getElem hi]
  · rw [if_neg hright, if_neg (Ne.symm hright)]
    by_cases hleft : i = p
    · rw [if_pos hleft, if_pos hleft.symm, if_pos (hleft ▸ hi), List.getElem?_eq_getElem hj]
    · rw [if_neg hleft, if_neg (Ne.symm hleft)]

theorem length_swaps (n : ℕ) (is : List ℕ) (data : Bytes) :
    (is.foldl (swap n) data).length = data.length := by
  induction is generalizing data with
  | nil => rfl
  | cons i is ih =>
    rw [List.foldl_cons, ih]
    simp only [swap, List.length_set]

/-- After some swaps the outer cells have changed places, and the others have not. -/
theorem getElem?_swaps (hn : n ≤ data.length) {k : ℕ} (hk : k ≤ n / 2) (p : ℕ) :
    ((List.range k).foldl (swap n) data)[p]? =
      if p < n ∧ (p < k ∨ n - k ≤ p) then data[n - 1 - p]? else data[p]? := by
  induction k generalizing p with
  | zero => rw [if_neg (by omega)]; rfl
  | succ k ih =>
    have hlen := length_swaps n (List.range k) data
    have hinner := fun p => ih (by omega) p
    have hleftCell := hinner k
    have hrightCell := hinner (n - k - 1)
    rw [if_neg (by omega)] at hleftCell hrightCell
    rw [List.range_succ, List.foldl_append, List.foldl_cons, List.foldl_nil,
      getElem?_swap (by omega) (by omega), hleftCell, hrightCell, hinner]
    by_cases hright : p = n - k - 1
    · rw [if_pos hright, if_pos (by omega)]
      congr 1
      omega
    · rw [if_neg hright]
      by_cases hleft : p = k
      · rw [if_pos hleft, if_pos (by omega)]
        congr 1
        omega
      · rw [if_neg hleft]
        refine if_congr ?_ rfl rfl
        omega

/-- **The swaps reverse the text.** -/
theorem reverse_append (t rest : Bytes) : reverse (t ++ rest) t.length = t.reverse ++ rest := by
  refine List.ext_getElem? fun p => ?_
  rw [reverse, getElem?_swaps (by rw [List.length_append]; omega) le_rfl]
  by_cases hp : p < t.length
  · have hrhs : (t.reverse ++ rest)[p]? = t[t.length - 1 - p]? := by
      rw [List.getElem?_append_left (by rwa [List.length_reverse]), List.getElem?_reverse hp]
    rw [hrhs]
    by_cases hmoved : p < t.length / 2 ∨ t.length - t.length / 2 ≤ p
    · rw [if_pos ⟨hp, hmoved⟩, List.getElem?_append_left (by omega)]
    · -- the cell in the middle stays
      rw [if_neg (fun h => hmoved h.2), List.getElem?_append_left hp]
      congr 1
      omega
  · rw [if_neg (fun h => hp h.1), List.getElem?_append_right (not_lt.mp hp),
      List.getElem?_append_right (by rw [List.length_reverse]; exact not_lt.mp hp),
      List.length_reverse]

/-! ### The text -/

theorem valueLE_eq (bs : Bytes) :
    LittleEndian.valueLE bs = Nat.ofDigits 256 (bs.map UInt8.toNat) := by
  induction bs with
  | nil => rfl
  | cons b bs ih =>
    rw [LittleEndian.valueLE_cons, List.map_cons, Nat.ofDigits_cons, ih]

theorem value_toNat (data : Bytes) : value 256 (data.map UInt8.toNat) = bin2bn data := by
  rw [value, bin2bn, valueLE_eq, List.map_reverse]

theorem leading_toNat (data : Bytes) :
    leading (data.map UInt8.toNat) = (data.takeWhile (· = 0)).length := by
  rw [leading, List.takeWhile_map, List.length_map]
  refine congrArg (fun p => (data.takeWhile p).length) (funext fun b => ?_)
  show decide (b.toNat = 0) = decide (b = 0)
  rw [decide_eq_decide]
  exact ⟨fun h => UInt8.toNat_inj.mp h, fun h => by rw [h]; rfl⟩

/-- The characters as they are written, lowest first. -/
def written (zeros x : ℕ) : Bytes :=
  (Nat.digits 58 x).map symbol ++ List.replicate zeros (symbol 0)

theorem base58_eq (data : Bytes) :
    base58 data = (written (data.takeWhile (· = 0)).length (bin2bn data)).reverse := by
  rw [base58, recode, render, leading_toNat, value_toNat, written, List.reverse_append,
    List.reverse_replicate, List.map_append, List.map_replicate, List.map_reverse]

theorem length_written (z x : ℕ) : (written z x).length = z + (Nat.digits 58 x).length := by
  rw [written, List.length_append, List.length_map, List.length_replicate, Nat.add_comm]

theorem length_base58 (data : Bytes) : (base58 data).length =
    (data.takeWhile (· = 0)).length + (Nat.digits 58 (bin2bn data)).length := by
  rw [base58_eq, List.length_reverse, length_written]

/-- The characters are those of the alphabet, and tell their digits. -/
theorem symbol_spec (hd : d < 58) : symbol d ≠ 0 ∧ base58Alphabet.idxOf? (symbol d) = some d := by
  revert d
  decide +kernel

theorem zero_not_mem_written (z x : ℕ) : (0 : UInt8) ∉ written z x := by
  intro h
  rcases List.mem_append.mp h with h | h
  · obtain ⟨d, hd, hzero⟩ := List.mem_map.mp h
    exact (symbol_spec (Nat.digits_lt_base (by decide) hd)).1 hzero
  · exact absurd (List.eq_of_mem_replicate h).symm (symbol_spec (by decide)).1

theorem bytes_lt (data : Bytes) : ∀ d ∈ data.map UInt8.toNat, d < 256 := by
  intro d hd
  obtain ⟨b, -, rfl⟩ := List.mem_map.mp hd
  exact b.toNat_lt

/-- **The text is read back.** -/
theorem decode_base58 (data : Bytes) : decode (base58 data) = some data := by
  have hread : (base58 data).mapM (base58Alphabet.idxOf? ·) =
      some (recode 256 58 (data.map UInt8.toNat)) := by
    have hall : ∀ ds : List ℕ, (∀ d ∈ ds, d < 58) →
        (ds.map symbol).mapM (base58Alphabet.idxOf? ·) = some ds := by
      intro ds hds
      induction ds with
      | nil => rfl
      | cons d ds ih =>
        obtain ⟨hd, hds⟩ := List.forall_mem_cons.mp hds
        rw [List.map_cons, List.mapM_cons, (symbol_spec hd).2, ih hds]
        rfl
    exact hall _ fun d hd => lt_of_mem_recode (by decide) hd
  rw [decode, hread, Option.map_some, recode_recode (by decide) (bytes_lt data), List.map_map]
  refine congrArg some ?_
  conv_rhs => rw [← List.map_id data]
  exact List.map_congr_left fun b _ => UInt8.ofNat_toNat

/-- **What is allocated has room for the text** and the zero behind it. -/
theorem length_base58_le (data : Bytes) : (base58 data).length ≤ data.length * 138 / 100 + 1 := by
  have hlead := leading_toNat data
  have hle : (data.takeWhile (· = 0)).length ≤ data.length := (List.takeWhile_prefix _).length_le
  generalize hm : data.length - (data.takeWhile (· = 0)).length = m at *
  -- 138 digits of base 58 are worth 100 bytes
  have hpow : 256 ^ m ≤ 58 ^ (m * 138 / 100 + 1) := by
    rw [← Nat.pow_le_pow_iff_left (n := 100) (by decide), ← pow_mul, ← pow_mul, mul_comm m,
      pow_mul]
    calc (256 ^ 100) ^ m ≤ (58 ^ 138) ^ m := Nat.pow_le_pow_left (by decide +kernel) m
      _ = 58 ^ (m * 138) := by rw [← pow_mul, mul_comm]
      _ ≤ 58 ^ ((m * 138 / 100 + 1) * 100) := Nat.pow_le_pow_right (by decide) (by omega)
  have hlen := @length_recode_le 256 58 _ (by decide) (by decide) (bytes_lt data)
    (m * 138 / 100 + 1) (by rw [List.length_map, hlead, hm]; exact hpow)
  rw [base58, List.length_map]
  rw [hlead] at hlen
  omega

/-- It is not shorter than the bytes. -/
theorem le_length_base58 (data : Bytes) : data.length ≤ (base58 data).length := by
  have hlen := @le_length_recode 256 58 _ (by decide) (by decide) (bytes_lt data) (by decide)
  rwa [List.length_map, ← List.length_map symbol] at hlen

/-! ### The encoder -/

/-- Behind the text that was written is a zero, if there is room for one. -/
theorem finished_eq (h : (0 : UInt8) ∉ cs) (k : ℕ) :
    finished (cs ++ List.replicate k 0) cs.length =
      if 0 < k then .ok cs.reverse else .error .outside := by
  have hrev : ∀ c ∈ cs.reverse, decide (c ≠ 0) = true := by
    intro c hc
    refine decide_eq_true fun hzero => h ?_
    rw [← hzero]
    exact List.mem_reverse.mp hc
  rw [finished, reverse_append, List.takeWhile_append_of_pos hrev]
  cases k with
  | zero =>
    rw [if_neg (lt_irrefl 0), if_neg]
    simpa using h
  | succ k =>
    rw [if_pos (Nat.succ_pos k), if_pos (by simp), List.replicate_succ,
      List.takeWhile_cons_of_neg (by decide), List.append_nil]

/-- Both loops together write the text. -/
theorem loops_eq_puts (data str : Bytes) (x : ℕ) :
    ((digits str 0 x).bind fun (str, i) => (zeros data str i).bind fun (str, i) =>
      finished str i) =
      (puts (written (data.takeWhile (· = 0)).length x) str 0).bind fun (str, i) =>
        finished str i := by
  rw [digits_eq_puts, written, puts_append]
  cases puts ((Nat.digits 58 x).map symbol) str 0 with
  | error f => rfl
  | ok found =>
    obtain ⟨str, i⟩ := found
    show (zeros data str i).bind _ = _
    rw [zeros_eq_puts]
    rfl

/-- **What the encoder returns**: what it has written, of the bytes that an `int` counts. -/
theorem computeBase58_eq_ok_iff : computeBase58 data = .ok t ↔
    ∃ len, toInt data.length = .ok len ∧
      let text := written (data.takeWhile (· = 0)).length (bin2bn (data.take len))
      text.length < 2 ^ 31 ∧ text.length < strLen data.length ∧ t = text.reverse := by
  rw [computeBase58]
  generalize strLen data.length = room
  cases hlen : toInt data.length with
  | error f => exact iff_of_false (fun h => by cases h) fun ⟨len, h, _⟩ => by cases h
  | ok len =>
    simp only [Except.ok.injEq, exists_eq_left']
    show ((digits _ 0 _).bind _) = _ ↔ _
    rw [loops_eq_puts]
    have hzero := zero_not_mem_written (data.takeWhile (· = 0)).length (bin2bn (data.take len))
    generalize written (data.takeWhile (· = 0)).length (bin2bn (data.take len)) = cs at *
    have hputs := fun s i => @puts_eq_ok_iff cs [] (List.replicate room 0) s i (by decide)
    simp only [List.nil_append, List.length_nil, Nat.zero_add, List.length_replicate,
      List.drop_replicate] at hputs
    cases hwrite : puts cs (List.replicate room 0) 0 with
    | error f =>
      refine iff_of_false (fun h => by cases h) fun ⟨hsmall, hroom, _⟩ => ?_
      rw [(hputs _ _).mpr ⟨hroom.le, hsmall, rfl, rfl⟩] at hwrite
      cases hwrite
    | ok found =>
      obtain ⟨s, i⟩ := found
      obtain ⟨hroom, hsmall, rfl, rfl⟩ := (hputs s i).mp hwrite
      show finished _ _ = _ ↔ _
      rw [finished_eq hzero, and_iff_right hsmall]
      by_cases hspare : cs.length < room
      · rw [if_pos (by omega), and_iff_right hspare]
        exact ⟨fun h => (Except.ok.inj h).symm, fun h => congrArg _ h.symm⟩
      · rw [if_neg (by omega)]
        exact iff_of_false (fun h => by cases h) fun h => hspare h.1

/-- **When the text is what it should be**: when its length is less than `2 ^ 31`. -/
theorem right_iff (data : Bytes) : computeBase58 data = .ok (base58 data) ↔ Fits data := by
  rw [computeBase58_eq_ok_iff, Fits, ← length_base58]
  constructor
  · rintro ⟨len, -, hsmall, -, htext⟩
    rwa [htext, List.length_reverse]
  · intro hfits
    have hshort := (le_length_base58 data).trans_lt hfits
    have hmod : data.length % 2 ^ 32 = data.length := Nat.mod_eq_of_lt (by omega)
    have htext := base58_eq data
    have hlen := congrArg List.length htext
    rw [List.length_reverse] at hlen
    refine ⟨data.length, by rw [toInt, hmod, if_pos hshort], ?_⟩
    rw [List.take_length]
    refine ⟨hlen ▸ hfits, ?_, htext⟩
    have hroom := length_base58_le data
    rw [strLen, Nat.mod_eq_of_lt (by omega), Nat.mod_eq_of_lt (by omega)]
    omega

/-- **The encoder**, with and without a checksum; what it should return tells the bytes. -/
theorem base58_right_iff {Point : Type} (o : Crypto.OpenSSL Point) (data : Bytes) (csum : Bool) :
    (toBase58 o data csum = .ok (base58 (summed o data csum)) ↔ Fits (summed o data csum)) ∧
    (computeBase58 data = .ok (base58 data) ↔ Fits data) ∧
    decode (base58 data) = some data ∧ Function.Injective base58 := by
  refine ⟨right_iff _, right_iff data, decode_base58 data, fun x y h => ?_⟩
  have hx := decode_base58 x
  rw [h, decode_base58] at hx
  exact (Option.some.inj hx).symm

theorem fits_replicate (n : ℕ) : Fits (List.replicate n 0) ↔ n < 2 ^ 31 := by
  have hzeros : (List.replicate n (0 : UInt8)).map UInt8.toNat = List.replicate n 0 :=
    List.map_replicate
  have hvalue : bin2bn (List.replicate n 0) = 0 := by
    rw [← value_toNat, hzeros, ← List.append_nil (List.replicate n 0), value_append]
    rfl
  have hlead : ((List.replicate n (0 : UInt8)).takeWhile (· = 0)).length = n := by
    rw [← leading_toNat, hzeros, ← List.append_nil (List.replicate n 0)]
    exact leading_append n (by decide)
  rw [Fits, hvalue, hlead, Nat.digits_zero, List.length_nil, Nat.add_zero]

/-- Of `2 ^ 31` zero bytes the text is not returned. -/
theorem not_base58_right :
    computeBase58 (List.replicate (2 ^ 31) 0) ≠ .ok (base58 (List.replicate (2 ^ 31) 0)) := by
  rw [Ne, right_iff, fits_replicate]
  exact lt_irrefl _

end Suil.Base58
