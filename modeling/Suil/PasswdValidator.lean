/-
The password rules (`suil::http::PasswdValidator`).

The length is compared as `size_t`, the characters are counted by four counters, and
what is then returned under the name `failed` is whether anything was counted at all;
the requirements are looked at only for the text of the error.

* `count_eq` — what the four counters hold;
* `validatesRight_iff` — the passwords and configurations for which the answer, the
  answer without a buffer and the error text are right;
* `not_validatesRight` — a password without any upper-case letter where two are wanted.
-/
import Suil.Strings

namespace Suil

/-- `PasswdValidator` -/
structure PasswdValidator where
  MinChars : Int32 := 6
  MaxChars : Int32 := 32
  Numbers : Int32 := 0
  Special : Int32 := 0
  Upper : Int32 := 0
  Lower : Int32 := 0
deriving DecidableEq, Repr

namespace PasswdValidator

/-- `isspecial`; a character above 127 is negative and in none of the ranges. -/
def isspecial (a : UInt8) : Bool :=
  (31 < a && a < 48) || (58 < a && a < 65) || (90 < a && a < 97) || (123 < a && a < 127)

/-- `isupper` -/
def isUpper (c : UInt8) : Bool := 65 ≤ c && c ≤ 90

/-- The counters `u`, `l`, `s` and `n`. -/
structure Counters where
  u : Int32 := 0
  l : Int32 := 0
  s : Int32 := 0
  n : Int32 := 0
deriving DecidableEq, Repr

/-- One turn of the counting loop. -/
def Counters.add (k : Counters) (c : UInt8) : Counters :=
  if isspecial c then { k with s := k.s + 1 }
  else if isAlpha c then
    if isUpper c then { k with u := k.u + 1 } else { k with l := k.l + 1 }
  else if isDigit c then { k with n := k.n + 1 }
  else k

/-- The counting loop. -/
def count (passwd : Bytes) : Counters := passwd.foldl Counters.add {}

/-- An `int` where a `size_t` is compared with it. -/
def sizeT (n : Int32) : ℕ := (n.toInt % 2 ^ 64).toNat

/-- The text for a class of characters of which there are too few. -/
def require (required counted : Int32) (sep : Bytes) (what : String) (err : Bytes) : Bytes :=
  if required ≠ 0 ∧ counted < required then
    err ++ ((if err = [] then [] else sep) ++ ascii "Password invalid, requires at least '" ++
      integerText required.toInt ++ ascii what)
  else err

/-- `operator()(err, passwd, sep)`: the answer, and the error buffer by its text. -/
def validate (c : PasswdValidator) (err passwd sep : Bytes) : Bool × Bytes :=
  if passwd.length < sizeT c.MinChars then
    (false, if sep ≠ [] then
      err ++ (ascii "Password too short, at least '" ++ integerText c.MinChars.toInt ++
        ascii "' characters required")
      else err)
  else if sizeT c.MaxChars < passwd.length then
    (false, if sep ≠ [] then
      err ++ (ascii "Password too long, at most '" ++ integerText c.MaxChars.toInt ++
        ascii "' characters supported")
      else err)
  else if c.Upper = 0 ∧ c.Lower = 0 ∧ c.Special = 0 ∧ c.Numbers = 0 then (true, err)
  else
    let k := count passwd
    let failed : Bool := k.u ≠ 0 ∨ k.l ≠ 0 ∨ k.s ≠ 0 ∨ k.n ≠ 0
    if sep = [] then (failed, err)
    else
      let err := require c.Upper k.u [] "' uppercase characters" err
      let err := require c.Lower k.l sep "' lowercase characters" err
      let err := require c.Special k.s sep "' special characters" err
      let err := require c.Numbers k.n sep "' digits" err
      (failed, err)

/-- `operator()(passwd)` -/
def validateOnly (c : PasswdValidator) (passwd : Bytes) : Bool := (c.validate [] passwd []).1

/-! ### What is asked of a password -/

/-- The lower-case letters. -/
def isLower (c : UInt8) : Bool := 97 ≤ c && c ≤ 122

/-- A printable ASCII character that is neither a letter nor a digit. -/
def isSymbol (c : UInt8) : Bool := 32 ≤ c && c ≤ 126 && !isAlnum c

/-- The length is within the bounds and there is enough of each class. -/
structure Meets (c : PasswdValidator) (passwd : Bytes) : Prop where
  long : c.MinChars.toInt ≤ passwd.length
  short : passwd.length ≤ c.MaxChars.toInt
  upper : c.Upper.toInt ≤ passwd.countP isUpper
  lower : c.Lower.toInt ≤ passwd.countP isLower
  special : c.Special.toInt ≤ passwd.countP isSymbol
  numbers : c.Numbers.toInt ≤ passwd.countP isDigit

/-- The answer says whether the password meets the rules, both overloads give it, and
a text is appended for a refusal when there is a separator. -/
structure ValidatesRight (c : PasswdValidator) (err passwd sep : Bytes) : Prop where
  answers : (c.validate err passwd sep).1 = true ↔ c.Meets passwd
  overload : c.validateOnly passwd = (c.validate err passwd sep).1
  reports : (∃ text, text ≠ [] ∧ (c.validate err passwd sep).2 = err ++ text) ↔
    (c.validate err passwd sep).1 = false ∧ sep ≠ []

/-- The code's comparisons of the length. -/
def Refused (c : PasswdValidator) (passwd : Bytes) : Prop :=
  passwd.length < sizeT c.MinChars ∨ sizeT c.MaxChars < passwd.length

/-- No class of characters is required. -/
def Unrequired (c : PasswdValidator) : Prop :=
  c.Upper = 0 ∧ c.Lower = 0 ∧ c.Special = 0 ∧ c.Numbers = 0

/-- Some character is a letter, a digit or one of the code's special ones. -/
def Counted (passwd : Bytes) : Prop :=
  ∃ ch ∈ passwd, isspecial ch = true ∨ isAlpha ch = true ∨ isDigit ch = true

/-- What the code gets right: with characters to count, the passwords that meet the
rules (for the text also by the code's special characters); without, the ones that do not
(for the text, when something positive is required). -/
structure Agrees (c : PasswdValidator) (passwd sep : Bytes) : Prop where
  refused : c.Refused passwd → ¬c.Meets passwd
  unrequired : ¬c.Refused passwd → c.Unrequired → 0 ≤ c.MaxChars.toInt
  counted : ¬c.Refused passwd → ¬c.Unrequired → Counted passwd →
    c.Meets passwd ∧ (sep ≠ [] → c.Special.toInt ≤ passwd.countP isspecial)
  uncounted : ¬c.Refused passwd → ¬c.Unrequired → ¬Counted passwd →
    ¬c.Meets passwd ∧ (sep ≠ [] → 0 < c.Upper.toInt ∨ 0 < c.Lower.toInt ∨
      0 < c.Special.toInt ∨ 0 < c.Numbers.toInt)

/-! ### The counters -/

/-- No character is in two of the classes. -/
theorem classes (c : UInt8) :
    (isspecial c, isAlpha c, isUpper c, isLower c, isDigit c) ∈
      [(true, false, false, false, false), (false, true, true, false, false),
        (false, true, false, true, false), (false, false, false, false, true),
        (false, false, false, false, false)] := by
  revert c
  exact forall_byte (by decide +kernel)

theorem alpha_iff (c : UInt8) : isAlpha c = true ↔ isUpper c = true ∨ isLower c = true := by
  simp [isAlpha, isUpper, isLower]

/-- A counter grows by one at a character of its class. -/
def step (p : Bool) : Int32 := if p then 1 else 0

theorem Counters.add_eq (k : Counters) (c : UInt8) :
    k.add c = ⟨k.u + step (isUpper c), k.l + step (isLower c), k.s + step (isspecial c),
      k.n + step (isDigit c)⟩ := by
  -- a character is in one class, or in none
  have hc := classes c
  simp only [List.mem_cons, List.not_mem_nil, or_false, Prod.mk.injEq] at hc
  rcases hc with ⟨hs, ha, hu, hl, hd⟩ | ⟨hs, ha, hu, hl, hd⟩ | ⟨hs, ha, hu, hl, hd⟩ |
    ⟨hs, ha, hu, hl, hd⟩ | ⟨hs, ha, hu, hl, hd⟩ <;>
    simp [Counters.add, step, hs, ha, hu, hl, hd]

theorem ofNat_countP_cons (p : UInt8 → Bool) (c : UInt8) (s : Bytes) (i : Int32) :
    i + step (p c) + Int32.ofNat (s.countP p) = i + Int32.ofNat ((c :: s).countP p) := by
  rw [List.countP_cons, Nat.add_comm, Int32.ofNat_add, Int32.add_assoc]
  congr 2
  cases p c <;> rfl

theorem foldl_add (s : Bytes) (k : Counters) :
    s.foldl Counters.add k = ⟨k.u + Int32.ofNat (s.countP isUpper),
      k.l + Int32.ofNat (s.countP isLower), k.s + Int32.ofNat (s.countP isspecial),
      k.n + Int32.ofNat (s.countP isDigit)⟩ := by
  induction s generalizing k with
  | nil =>
    have hzero : Int32.ofNat 0 = 0 := rfl
    simp only [List.foldl_nil, List.countP_nil, hzero, Int32.add_zero]
  | cons c s ih =>
    rw [List.foldl_cons, ih, Counters.add_eq]
    simp only [ofNat_countP_cons]

/-- **What is counted.** -/
theorem count_eq (s : Bytes) :
    count s = ⟨Int32.ofNat (s.countP isUpper), Int32.ofNat (s.countP isLower),
      Int32.ofNat (s.countP isspecial), Int32.ofNat (s.countP isDigit)⟩ := by
  rw [count, foldl_add]
  simp only [Int32.zero_add]

theorem ofNat_ne_zero {n : ℕ} (h : n < 2 ^ 32) : Int32.ofNat n ≠ 0 ↔ n ≠ 0 := by
  rw [Ne, ← Int32.toInt_inj, Int32.toInt_ofNat', Int32.toInt_zero]
  have hbmod : ((n : ℤ).bmod Int32.size = 0) ↔ n = 0 := by
    rw [show (Int32.size : ℕ) = 2 ^ 32 from rfl, Int.bmod_def]
    split_ifs <;> omega
  rw [hbmod]

/-- `failed` is true when something was counted. -/
theorem failed_iff {s : Bytes} (h : s.length < 2 ^ 32) :
    ((count s).u ≠ 0 ∨ (count s).l ≠ 0 ∨ (count s).s ≠ 0 ∨ (count s).n ≠ 0) ↔ Counted s := by
  have hlt : ∀ p : UInt8 → Bool, s.countP p < 2 ^ 32 := fun p =>
    lt_of_le_of_lt List.countP_le_length h
  have hpos : ∀ p : UInt8 → Bool, s.countP p ≠ 0 ↔ ∃ c ∈ s, p c = true := fun p => by
    rw [← Nat.pos_iff_ne_zero, List.countP_pos_iff]
  rw [count_eq]
  simp only [ofNat_ne_zero (hlt _), hpos]
  constructor
  · rintro (⟨c, hc, hp⟩ | ⟨c, hc, hp⟩ | ⟨c, hc, hp⟩ | ⟨c, hc, hp⟩)
    · exact ⟨c, hc, .inr (.inl ((alpha_iff c).mpr (.inl hp)))⟩
    · exact ⟨c, hc, .inr (.inl ((alpha_iff c).mpr (.inr hp)))⟩
    · exact ⟨c, hc, .inl hp⟩
    · exact ⟨c, hc, .inr (.inr hp)⟩
  · rintro ⟨c, hc, hp | hp | hp⟩
    · exact .inr (.inr (.inl ⟨c, hc, hp⟩))
    · rcases (alpha_iff c).mp hp with hup | hlow
      · exact .inl ⟨c, hc, hup⟩
      · exact .inr (.inl ⟨c, hc, hlow⟩)
    · exact .inr (.inr (.inr ⟨c, hc, hp⟩))

/-! ### The text -/

/-- What an output does to a buffer: something is appended when `P`, and nothing else. -/
def Appends (P : Prop) (err err' : Bytes) : Prop :=
  ∃ text, err' = err ++ text ∧ (text ≠ [] ↔ P)

theorem Appends.trans {P Q : Prop} {a b c : Bytes} (hab : Appends P a b) (hbc : Appends Q b c) :
    Appends (P ∨ Q) a c := by
  obtain ⟨t, rfl, ht⟩ := hab
  obtain ⟨t', rfl, ht'⟩ := hbc
  refine ⟨t ++ t', by rw [List.append_assoc], ?_⟩
  rw [← ht, ← ht', Ne, List.append_eq_nil_iff]
  tauto

theorem Appends.iff {P : Prop} {err err' : Bytes} (h : Appends P err err') :
    (∃ text, text ≠ [] ∧ err' = err ++ text) ↔ P := by
  obtain ⟨t, rfl, ht⟩ := h
  rw [← ht]
  constructor
  · rintro ⟨text, hne, heq⟩
    rwa [List.append_cancel_left heq]
  · intro hne
    exact ⟨t, hne, rfl⟩

theorem appends_require (required counted : Int32) (sep : Bytes) (what : String) (err : Bytes) :
    Appends (required ≠ 0 ∧ counted < required) err (require required counted sep what err) := by
  rw [require]
  by_cases h : required ≠ 0 ∧ counted < required
  · rw [if_pos h]
    refine ⟨_, rfl, iff_of_true (fun hnil => ?_) h⟩
    simp only [List.append_eq_nil_iff] at hnil
    exact absurd hnil.1.1.2 (by decide)
  · rw [if_neg h]
    exact ⟨[], by rw [List.append_nil], iff_of_false (by simp) h⟩

/-- For a count that is not wrapped, the text is about what is missing. -/
theorem require_iff {required : Int32} {n : ℕ} (h : n < 2 ^ 31) :
    (required ≠ 0 ∧ Int32.ofNat n < required) ↔ (n : ℤ) < required.toInt := by
  rw [Int32.lt_iff_toInt_lt, Int32.toInt_ofNat_of_lt h]
  refine and_iff_right_of_imp fun hlt hzero => ?_
  rw [hzero, Int32.toInt_zero] at hlt
  omega

/-! ### The answer -/

variable (c : PasswdValidator) (err passwd sep : Bytes)

theorem validate_refused (h : c.Refused passwd) :
    (c.validate err passwd sep).1 = false ∧
      Appends (sep ≠ []) err (c.validate err passwd sep).2 := by
  have happ : ∀ text : Bytes, text ≠ [] →
      Appends (sep ≠ []) err (if sep ≠ [] then err ++ text else err) := by
    intro text hne
    by_cases hsep : sep ≠ []
    · rw [if_pos hsep]
      exact ⟨text, rfl, iff_of_true hne hsep⟩
    · rw [if_neg hsep]
      exact ⟨[], by rw [List.append_nil], iff_of_false (by simp) hsep⟩
  rw [validate]
  by_cases hshort : passwd.length < sizeT c.MinChars
  · rw [if_pos hshort]
    exact ⟨rfl, happ _ (by simp [ascii])⟩
  · have hlong : sizeT c.MaxChars < passwd.length := h.resolve_left hshort
    rw [if_neg hshort, if_pos hlong]
    exact ⟨rfl, happ _ (by simp [ascii])⟩

theorem validate_unrequired (h : ¬c.Refused passwd) (hreq : c.Unrequired) :
    c.validate err passwd sep = (true, err) := by
  have hor := not_or.mp h
  rw [Unrequired] at hreq
  rw [validate, if_neg hor.1, if_neg hor.2, if_pos hreq]

/-- Too few of a class, by the counters. -/
def Lacks (c : PasswdValidator) (k : Counters) : Prop :=
  (((c.Upper ≠ 0 ∧ k.u < c.Upper) ∨ (c.Lower ≠ 0 ∧ k.l < c.Lower)) ∨
    (c.Special ≠ 0 ∧ k.s < c.Special)) ∨ (c.Numbers ≠ 0 ∧ k.n < c.Numbers)

theorem validate_required (h : ¬c.Refused passwd) (hreq : ¬c.Unrequired)
    (hlen : passwd.length < 2 ^ 32) :
    ((c.validate err passwd sep).1 = true ↔ Counted passwd) ∧
      Appends (sep ≠ [] ∧ c.Lacks (count passwd)) err (c.validate err passwd sep).2 := by
  have hor := not_or.mp h
  rw [Unrequired] at hreq
  rw [validate, if_neg hor.1, if_neg hor.2, if_neg hreq]
  by_cases hsep : sep = []
  · simp only [hsep, if_true]
    exact ⟨by rw [decide_eq_true_iff, failed_iff hlen],
      [], by rw [List.append_nil], iff_of_false (by simp) (by simp)⟩
  · simp only [hsep, if_false]
    refine ⟨by rw [decide_eq_true_iff, failed_iff hlen], ?_⟩
    -- the four outputs, one behind the other
    obtain ⟨text, htext, hiff⟩ := (((appends_require c.Upper (count passwd).u [] _ err).trans
      (appends_require c.Lower _ sep _ _)).trans (appends_require c.Special _ sep _ _)).trans
      (appends_require c.Numbers _ sep _ _)
    exact ⟨text, htext, hiff.trans (and_iff_right hsep).symm⟩

/-- The overload has no separator, and the answer does not depend on it. -/
theorem validateOnly_eq : c.validateOnly passwd = (c.validate err passwd sep).1 := by
  rw [validateOnly, validate, validate]
  split_ifs <;> rfl

/-! ### The rules -/

/-- Within the code's bounds, a password is long enough. -/
theorem long_of_not_refused (hlen : passwd.length < 2 ^ 32) (h : ¬c.Refused passwd) :
    c.MinChars.toInt ≤ passwd.length ∧
      (0 ≤ c.MaxChars.toInt → passwd.length ≤ c.MaxChars.toInt) := by
  have hor := not_or.mp h
  have hmin := c.MinChars.toInt_lt
  have hmin' := c.MinChars.le_toInt
  have hmax := c.MaxChars.toInt_lt
  simp only [sizeT] at hor
  constructor
  · omega
  · intro hpos
    omega

/-- What the counters lack, when they are not wrapped. -/
theorem lacks_iff (hlen : passwd.length < 2 ^ 31) :
    c.Lacks (count passwd) ↔
      ¬(c.Upper.toInt ≤ passwd.countP isUpper ∧ c.Lower.toInt ≤ passwd.countP isLower ∧
        c.Special.toInt ≤ passwd.countP isspecial ∧ c.Numbers.toInt ≤ passwd.countP isDigit) := by
  have hlt : ∀ p : UInt8 → Bool, passwd.countP p < 2 ^ 31 := fun p =>
    lt_of_le_of_lt List.countP_le_length hlen
  rw [Lacks, count_eq]
  simp only [require_iff (hlt _)]
  omega

/-- A password of which nothing is counted lacks whatever is required at all. -/
theorem lacks_of_not_counted (hlen : passwd.length < 2 ^ 32) (h : ¬Counted passwd) :
    c.Lacks (count passwd) ↔
      0 < c.Upper.toInt ∨ 0 < c.Lower.toInt ∨ 0 < c.Special.toInt ∨ 0 < c.Numbers.toInt := by
  have hzero := (failed_iff hlen).not.mpr h
  simp only [not_or, not_not] at hzero
  obtain ⟨hu, hl, hs, hn⟩ := hzero
  have hpos : ∀ required : Int32, (required ≠ 0 ∧ 0 < required) ↔ 0 < required.toInt :=
    fun required => require_iff (n := 0) (by decide)
  rw [Lacks, hu, hl, hs, hn]
  simp only [hpos, or_assoc]

theorem right_of_refused (href : c.Refused passwd) :
    c.ValidatesRight err passwd sep ↔ ¬c.Meets passwd := by
  obtain ⟨hanswer, happ⟩ := validate_refused c err passwd sep href
  constructor
  · intro h hmeets
    have htrue := h.answers.mpr hmeets
    rw [hanswer] at htrue
    exact absurd htrue (by simp)
  · intro h
    refine ⟨?_, validateOnly_eq c err passwd sep, ?_⟩
    · rw [hanswer]
      exact iff_of_false (by simp) h
    · rw [happ.iff, hanswer]
      exact (and_iff_right rfl).symm

theorem right_of_unrequired (href : ¬c.Refused passwd) (hreq : c.Unrequired)
    (hlen : passwd.length < 2 ^ 32) :
    c.ValidatesRight err passwd sep ↔ 0 ≤ c.MaxChars.toInt := by
  obtain ⟨hlong, hshort⟩ := long_of_not_refused c passwd hlen href
  have hval := validate_unrequired c err passwd sep href hreq
  have hmeets : c.Meets passwd ↔ 0 ≤ c.MaxChars.toInt := by
    constructor
    · intro h
      have := h.short
      omega
    · intro h
      obtain ⟨hu, hl, hs, hn⟩ := hreq
      exact ⟨hlong, hshort h, by simp [hu], by simp [hl], by simp [hs], by simp [hn]⟩
  rw [← hmeets]
  constructor
  · intro h
    refine h.answers.mp ?_
    rw [hval]
  · intro h
    refine ⟨?_, validateOnly_eq c err passwd sep, ?_⟩
    · rw [hval]
      exact iff_of_true rfl h
    · rw [hval]
      refine iff_of_false ?_ (by simp)
      rintro ⟨text, hne, heq⟩
      exact hne (by simpa using heq)

/-- With something counted the answer is yes, and the text must not say otherwise. -/
theorem right_of_counted (href : ¬c.Refused passwd) (hreq : ¬c.Unrequired)
    (hlen : passwd.length < 2 ^ 32) (hcount : Counted passwd) :
    c.ValidatesRight err passwd sep ↔
      c.Meets passwd ∧ (sep ≠ [] → c.Special.toInt ≤ passwd.countP isspecial) := by
  obtain ⟨hanswer, happ⟩ := validate_required c err passwd sep href hreq hlen
  have htrue := hanswer.mpr hcount
  have hspecial : c.Meets passwd → (c.Lacks (count passwd) ↔
      ¬c.Special.toInt ≤ passwd.countP isspecial) := by
    intro h
    have hmax := c.MaxChars.toInt_lt
    have hle := h.short
    rw [lacks_iff c passwd (by omega)]
    simp only [h.upper, h.lower, h.numbers, true_and, and_true]
  constructor
  · intro h
    have hmeets := h.answers.mp htrue
    refine ⟨hmeets, fun hsep => ?_⟩
    -- the text would say that a special character is missing, and the answer is yes
    by_contra hless
    have hlacks := (hspecial hmeets).mpr hless
    have hfalse := (h.reports.mp (happ.iff.mpr ⟨hsep, hlacks⟩)).1
    rw [htrue] at hfalse
    exact absurd hfalse (by simp)
  · rintro ⟨hmeets, hspec⟩
    refine ⟨iff_of_true htrue hmeets, validateOnly_eq c err passwd sep, ?_⟩
    rw [happ.iff, htrue]
    exact iff_of_false (fun h => (hspecial hmeets).mp h.2 (hspec h.1)) (by simp)

/-- With nothing counted the answer is no, and the text must say what is missing. -/
theorem right_of_not_counted (href : ¬c.Refused passwd) (hreq : ¬c.Unrequired)
    (hlen : passwd.length < 2 ^ 32) (hcount : ¬Counted passwd) :
    c.ValidatesRight err passwd sep ↔
      ¬c.Meets passwd ∧ (sep ≠ [] → 0 < c.Upper.toInt ∨ 0 < c.Lower.toInt ∨
        0 < c.Special.toInt ∨ 0 < c.Numbers.toInt) := by
  obtain ⟨hanswer, happ⟩ := validate_required c err passwd sep href hreq hlen
  have hfalse : (c.validate err passwd sep).1 = false :=
    Bool.eq_false_iff.mpr fun h => hcount (hanswer.mp h)
  rw [← lacks_of_not_counted c passwd hlen hcount]
  constructor
  · intro h
    refine ⟨fun hmeets => hcount (hanswer.mp (h.answers.mpr hmeets)), fun hsep => ?_⟩
    exact (happ.iff.mp (h.reports.mpr ⟨hfalse, hsep⟩)).2
  · rintro ⟨hmeets, hlacks⟩
    refine ⟨iff_of_false (by rw [hfalse]; simp) hmeets, validateOnly_eq c err passwd sep, ?_⟩
    rw [happ.iff, hfalse]
    exact ⟨fun h => ⟨rfl, h.1⟩, fun h => ⟨h.2, hlacks h.2⟩⟩

/-- **The passwords and configurations that are judged right.** -/
theorem validatesRight_iff (hlen : passwd.length < 2 ^ 32) :
    c.ValidatesRight err passwd sep ↔ c.Agrees passwd sep := by
  by_cases href : c.Refused passwd
  · rw [right_of_refused c err passwd sep href]
    exact ⟨fun h => ⟨fun _ => h, absurd href, absurd href, absurd href⟩, fun h => h.refused href⟩
  by_cases hreq : c.Unrequired
  · rw [right_of_unrequired c err passwd sep href hreq hlen]
    exact ⟨fun h => ⟨(absurd · href), fun _ _ => h, fun _ => absurd hreq, fun _ => absurd hreq⟩,
      fun h => h.unrequired href hreq⟩
  by_cases hcount : Counted passwd
  · rw [right_of_counted c err passwd sep href hreq hlen hcount]
    exact ⟨fun h => ⟨(absurd · href), fun _ => (absurd · hreq), fun _ _ _ => h,
      fun _ _ => absurd hcount⟩, fun h => h.counted href hreq hcount⟩
  · rw [right_of_not_counted c err passwd sep href hreq hlen hcount]
    exact ⟨fun h => ⟨(absurd · href), fun _ => (absurd · hreq), fun _ _ => (absurd · hcount),
      fun _ _ _ => h⟩, fun h => h.uncounted href hreq hcount⟩

/-- One upper-case letter is wanted, and there is one. -/
theorem validatesRight_upper :
    ValidatesRight { Upper := 1 } [] (ascii "Abcdef") (ascii "\n") :=
  (validatesRight_iff _ _ _ _ (by decide)).mpr
    ⟨fun h => absurd h (by rw [Refused]; decide), fun _ h => absurd h (by rw [Unrequired]; decide),
      fun _ _ _ => ⟨⟨by decide, by decide, by decide, by decide, by decide, by decide⟩,
        fun _ => by decide⟩,
      fun _ _ h => absurd ⟨65, by decide, by decide⟩ h⟩

/-- Two upper-case letters are wanted, and a password without any is admitted. -/
theorem not_validatesRight :
    validateOnly { Upper := 2 } (ascii "abcdef") = true ∧
      ¬∀ (c : PasswdValidator) (err passwd sep : Bytes), passwd.length < 2 ^ 32 →
        c.ValidatesRight err passwd sep := by
  refine ⟨by decide, fun h => ?_⟩
  have hright := h { Upper := 2 } [] (ascii "abcdef") [] (by decide)
  have hmeets := hright.answers.mp (by decide)
  exact absurd hmeets.upper (by decide)

end PasswdValidator

end Suil
