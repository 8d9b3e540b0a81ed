/-
Cookies.

A cookie is written with the attributes that are set, the domain in place of the path.
What is read back is not cut at the first attribute: the positions are looked for in the
part, and then in the whole text.

* `encode_plain` — a cookie without attributes is written as `name=value`;
* `value_of_parse` — what a cookie with attributes is read back with;
* `encode_parse_iff` — only cookies without attributes come back.
-/
import Suil.Strings
import Suil.Buffer

namespace Suil

/-- An append that fits, or grows below 2^32. -/
theorem Buffer.Sound.append_ok {b : Buffer} {d : Bytes} (h : b.Sound)
    (hlt : b.size < b.bytes.length + d.length → grown b.size d.length < 2 ^ 32) :
    ∃ b', b.append d = some b' ∧ b'.bytes = b.bytes ++ d ∧
      b'.size = (if b.bytes.length + d.length ≤ b.size then b.size else grown b.size d.length) ∧
      b'.Sound := by
  split_ifs with hfits
  · exact append_of_fits h hfits
  · exact append_of_grows h (not_le.mp hfits) (hlt (not_le.mp hfits))

namespace Cookies

/-- `String::find`, with an `int`; like the calls below it is `none` when it leaves the
string. -/
def find (s : Bytes) (ch : UInt8) : Option (Option ℕ) :=
  match s.idxOf? ch with
  | some i => if i + 1 < 2 ^ 31 then some (some i) else none
  | none => if s.length < 2 ^ 31 then some none else none

/-- `String::strip(ch, true)`.  Both ends are looked for without a bound. -/
def strip (s : Bytes) (ch : UInt8) : Option Bytes :=
  if s.all (· == ch) then none else some ((s.dropWhile (· == ch)).rdropWhile (· == ch))

structure Cookie where
  name : Bytes
  value : Bytes := []
  path : Bytes := []
  domain : Bytes := []
  secure : Bool := false
  maxAge : ℤ := 0
  expires : ℤ := 0
deriving DecidableEq

section

-- What `strftime` writes for a time; none when `localtime` does not have it.
variable (date : ℤ → Option Bytes)

namespace Cookie

variable (c : Cookie)

/-- `Cookie::encode` -/
def encode (dst : Buffer) : Option (Bool × Buffer) :=
  if c.name = [] ∨ c.value = [] then some (false, dst)
  else do
    let dst ← dst.reserve 127
    let dst ← dst.append c.name
    let dst ← dst.append (ascii "=")
    let dst ← dst.append c.value
    let dst ← if c.domain = [] then some dst else do
      let dst ← dst.append (ascii "; Domain=")
      dst.append c.domain
    let dst ← if c.path = [] then some dst else do
      let dst ← dst.append (ascii "; Path=")
      dst.append c.domain
    let dst ← if c.secure then dst.append (ascii "; Secure") else some dst
    let dst ← if 0 < c.maxAge then dst.append (ascii "; Max-Age=" ++ decimalText c.maxAge.toNat)
      else some dst
    let dst ← if 0 < c.expires then do
      let dst ← dst.append (ascii "; Expires=")
      let dst ← dst.reserve 64
      dst.copyIn (← date c.expires)
      else some dst
    some (true, dst)

/-- `parseKeyPair` of `Cookie::parse`, which looks into the whole text. -/
def parseKeyPair (cookieStr part : Bytes) : Option (Bytes × Bytes) := do
  match ← find cookieStr 61 with
  | none => some (← strip part 32, [])
  | some eq =>
    let name ← strip (substr cookieStr 0 eq) 32
    let val ← strip (substr cookieStr (eq + 1) 0) 32
    some (name, val)

/-- `Cookie::parse` -/
def parse (cookieStr : Bytes) : Option Cookie := do
  match ← find cookieStr 59 with
  | none =>
    let (name, val) ← parseKeyPair cookieStr cookieStr
    some { name := name, value := val }
  | some pos =>
    let (name, val) ← parseKeyPair cookieStr (substr cookieStr 0 pos)
    some { name := name, value := val }

/-! ### What a cookie should be written as -/

/-- The attributes that are set, each with its value. -/
def attributes : List Bytes :=
  (if c.domain = [] then [] else [ascii "Domain=" ++ c.domain]) ++
    (if c.path = [] then [] else [ascii "Path=" ++ c.path]) ++
    (if c.secure then [ascii "Secure"] else []) ++
    (if 0 < c.maxAge then [ascii "Max-Age=" ++ decimalText c.maxAge.toNat] else []) ++
    if 0 < c.expires then [ascii "Expires=" ++ (date c.expires).getD []] else []

def text : Bytes :=
  c.name ++ 61 :: c.value ++ (c.attributes date).flatMap fun a => ascii "; " ++ a

/-- None of the attributes is set. -/
def Plain : Prop :=
  c.domain = [] ∧ c.path = [] ∧ c.secure = false ∧ c.maxAge ≤ 0 ∧ c.expires ≤ 0

/-- The cookie is written, into an empty buffer, as it should be, and read back with its name
and its value. -/
def RoundTrips : Prop :=
  ∃ dst, ((Buffer.new 0).bind (c.encode date)) = some (true, dst) ∧ dst.bytes = c.text date ∧
    (parse dst.bytes).map (fun c' => (c'.name, c'.value)) = some (c.name, c.value)

end Cookie

end

/-- The characters of a token. -/
def isTokenChar (ch : UInt8) : Bool :=
  isAlnum ch || (ascii "!#$%&'*+-.^_|~").contains ch || ch == 96

def Token (name : Bytes) : Prop := name ≠ [] ∧ ∀ ch ∈ name, isTokenChar ch

/-- A value without a semicolon, control characters, or blanks around it. -/
structure Printable (value : Bytes) : Prop where
  ne_nil : value ≠ []
  chars : ∀ ch ∈ value, ch ≠ 59 ∧ 32 ≤ ch ∧ ch ≠ 127
  head : value.head? ≠ some 32
  last : value.getLast? ≠ some 32

variable {s t a b name rest : Bytes} {ch x : UInt8}

/-! ### Strings -/

theorem find_separator (h : ch ∉ a) (hlen : a.length + 1 < 2 ^ 31) (b : Bytes) :
    find (a ++ ch :: b) ch = some (some a.length) := by
  rw [find, idxOf?_separator h]
  exact if_pos hlen

theorem find_of_not_mem (h : ch ∉ s) (hlen : s.length < 2 ^ 31) : find s ch = some none := by
  rw [find, List.idxOf?_eq_none_iff.mpr h]
  exact if_pos hlen

/-- A character is looked for in fewer than 2^31. -/
theorem length_lt_of_find (h : ch ∉ s) {i : Option ℕ} (hfind : find s ch = some i) :
    s.length < 2 ^ 31 := by
  rw [find, List.idxOf?_eq_none_iff.mpr h] at hfind
  exact (Option.ite_none_right_eq_some.mp hfind).1

theorem strip_eq_self (hne : s ≠ []) (hhead : s.head? ≠ some ch) (hlast : s.getLast? ≠ some ch) :
    strip s ch = some s := by
  have hdrop : s.dropWhile (· == ch) = s := by
    cases s with
    | nil => rfl
    | cons c s => exact List.dropWhile_cons_of_neg fun heq => hhead (congrArg some (eq_of_beq heq))
  have hrdrop : s.rdropWhile (· == ch) = s := by
    refine List.rdropWhile_eq_self_iff.mpr fun hl heq => hlast ?_
    rw [List.getLast?_eq_some_getLast hl, eq_of_beq heq]
  have hall : s.all (· == ch) = false := by
    rw [List.all_eq_false]
    exact ⟨s.getLast hne, List.getLast_mem hne, fun heq => hlast (by
      rw [List.getLast?_eq_some_getLast hne, eq_of_beq heq])⟩
  rw [strip, hall, hdrop, hrdrop]
  rfl

/-- Stripping keeps all other characters. -/
theorem mem_of_strip (h : strip s ch = some t) (hx : x ∈ s) (hne : x ≠ ch) : x ∈ t := by
  have hdrop : ∀ l : Bytes, x ∈ l → x ∈ l.dropWhile (· == ch) := by
    intro l hl
    rw [← List.takeWhile_append_dropWhile (p := (· == ch)) (l := l)] at hl
    refine (List.mem_append.mp hl).resolve_left fun htake => hne ?_
    exact eq_of_beq (List.mem_takeWhile_imp (p := fun y => y == ch) htake)
  rw [strip] at h
  split_ifs at h
  rw [← Option.some.inj h, List.rdropWhile, List.mem_reverse]
  exact hdrop _ (List.mem_reverse.mpr (hdrop s hx))

theorem Token.not_mem (h : Token name) {ch : UInt8} (hch : isTokenChar ch = false) : ch ∉ name :=
  fun hmem => by simpa [hch] using h.2 ch hmem

theorem Token.strip (h : Token name) : strip name 32 = some name := by
  have hmem : (32 : UInt8) ∉ name := h.not_mem (by decide)
  exact strip_eq_self h.1 (fun heq => hmem (List.mem_of_mem_head? heq))
    fun heq => hmem (List.mem_of_getLast? heq)

/-! ### Reading -/

namespace Cookie

/-- The name, and all that is behind the first `=`. -/
theorem parseKeyPair_eq (h : Token name) (hlen : name.length + 1 < 2 ^ 31) (part : Bytes) :
    parseKeyPair (name ++ 61 :: rest) part =
      (Cookies.strip rest 32).map fun val => (name, val) := by
  have hname : substr (name ++ 61 :: rest) 0 name.length = name := by
    have hpos := List.length_pos_iff.mpr h.1
    rw [substr, if_neg hpos.ne', if_pos (by simp [hpos.ne']), List.drop_zero, List.take_left]
  have hrest : substr (name ++ 61 :: rest) (name.length + 1) 0 = rest := by
    rw [substr_rest, ← List.drop_drop, List.drop_left]
    rfl
  rw [parseKeyPair, find_separator (h.not_mem (by decide)) hlen]
  simp only [Option.bind_eq_bind, Option.bind_some, hname, hrest, h.strip]
  cases Cookies.strip rest 32 <;> rfl

/-- **What is read** of a text that begins with a name: the rest of the text is the value. -/
theorem parse_eq (h : Token name) (hlen : name.length + 1 < 2 ^ 31) {i : Option ℕ}
    (hfind : find (name ++ 61 :: rest) 59 = some i) :
    parse (name ++ 61 :: rest) =
      (Cookies.strip rest 32).map fun val => { name := name, value := val } := by
  rw [parse, hfind, Option.bind_eq_bind, Option.bind_some]
  -- where the semicolon is makes no difference
  cases i <;>
    simp only [parseKeyPair_eq h hlen, Option.bind_eq_bind] <;>
    cases Cookies.strip rest 32 <;> rfl

theorem finds_of_parse {c : Cookie} (h : parse s = some c) :
    (∃ i, find s 59 = some i) ∧ ∃ i, find s 61 = some i := by
  obtain ⟨i, hsemicolon, h⟩ := Option.bind_eq_some_iff.mp h
  refine ⟨⟨i, hsemicolon⟩, ?_⟩
  cases i <;>
  · obtain ⟨_, hpair, -⟩ := Option.bind_eq_some_iff.mp h
    obtain ⟨j, hequals, -⟩ := Option.bind_eq_some_iff.mp hpair
    exact ⟨j, hequals⟩

/-- A semicolon behind the name stays in the value. -/
theorem mem_value_of_parse {c : Cookie} (h : Token name) (hmem : 59 ∈ rest)
    (hparse : parse (name ++ 61 :: rest) = some c) : 59 ∈ c.value := by
  obtain ⟨⟨i, hsemicolon⟩, j, hequals⟩ := finds_of_parse hparse
  have hlen : name.length + 1 < 2 ^ 31 := by
    rw [find, idxOf?_separator (h.not_mem (by decide))] at hequals
    exact (Option.ite_none_right_eq_some.mp hequals).1
  rw [parse_eq h hlen hsemicolon] at hparse
  obtain ⟨val, hstrip, rfl⟩ := Option.map_eq_some_iff.mp hparse
  exact mem_of_strip hstrip hmem (by decide)

/-! ### Writing -/

variable {c : Cookie} (date : ℤ → Option Bytes)

theorem attributes_eq_nil_iff : c.attributes date = [] ↔ c.Plain := by
  simp only [attributes, Plain, List.append_eq_nil_iff, ite_eq_left_iff, ite_eq_right_iff,
    List.cons_ne_nil, imp_false, not_not, not_lt, Bool.not_eq_true, and_assoc]

theorem text_of_plain (h : c.Plain) : c.text date = c.name ++ 61 :: c.value := by
  rw [text, (attributes_eq_nil_iff date).mpr h, List.flatMap_nil, List.append_nil]

/-- An attribute is set apart by a semicolon. -/
theorem text_of_not_plain (h : ¬c.Plain) :
    ∃ rest, c.text date = c.name ++ 61 :: rest ∧ 59 ∈ rest := by
  obtain ⟨a, as, has⟩ := List.exists_cons_of_ne_nil (mt (attributes_eq_nil_iff date).mp h)
  refine ⟨c.value ++ (c.attributes date).flatMap fun a => ascii "; " ++ a, ?_, ?_⟩
  · rw [text, List.append_assoc, List.cons_append]
  · rw [has, List.flatMap_cons, show ascii "; " = [59, 32] from by decide]
    simp

/-- **A cookie without attributes** is written as it should be. -/
theorem encode_plain (h : c.Plain) (hname : c.name ≠ []) (hvalue : c.value ≠ [])
    (hlen : c.name.length + 1 + c.value.length < 2 ^ 31) :
    ∃ dst, ((Buffer.new 0).bind (c.encode date)) = some (true, dst) ∧
      dst.bytes = c.name ++ 61 :: c.value := by
  obtain ⟨hdomain, hpath, hsecure, hage, hexpires⟩ := h
  have hreserve : (⟨[], 0, 0, le_rfl⟩ : Buffer).reserve 127 =
      some (⟨[], 128, 129, by decide⟩ : Buffer) := rfl
  have hequals : (ascii "=").length = 1 := rfl
  have hsound : (⟨[], 128, 129, by decide⟩ : Buffer).Sound :=
    ⟨by decide, by decide, by decide, Or.inl rfl⟩
  obtain ⟨b₁, hb₁, hbytes₁, hsize₁, hsound₁⟩ :=
    hsound.append_ok (d := c.name) fun hfull => by
      simp only [Buffer.grown, aligned]
      omega
  have hlen₁ : b₁.bytes.length = c.name.length := congrArg List.length hbytes₁
  have hroom₁ : b₁.size = 128 ∧ c.name.length ≤ 128 ∨
      c.name.length + 128 ≤ b₁.size ∧ b₁.size < c.name.length + 136 := by
    simp only [List.length_nil, Buffer.grown, aligned] at hsize₁
    split_ifs at hsize₁ <;> omega
  obtain ⟨b₂, hb₂, hbytes₂, hsize₂, hsound₂⟩ :=
    hsound₁.append_ok (d := ascii "=") fun hfull => by
      simp only [Buffer.grown, aligned]
      omega
  have hlen₂ : b₂.bytes.length = c.name.length + 1 := by
    rw [hbytes₂, List.length_append, hlen₁, hequals]
  have hroom₂ : b₂.size = 128 ∨ b₂.size = 256 ∧ c.name.length = 128 ∨
      c.name.length + 128 ≤ b₂.size ∧ b₂.size < c.name.length + 136 := by
    simp only [Buffer.grown, aligned] at hsize₂
    split_ifs at hsize₂ <;> omega
  -- a size that has to be doubled is less than what is to be written
  obtain ⟨k, hk⟩ := hsound₂.aligned
  obtain ⟨b₃, hb₃, hbytes₃, -, -⟩ :=
    hsound₂.append_ok (d := c.value) fun hfull => by
      simp only [Buffer.grown, aligned]
      omega
  refine ⟨b₃, ?_, ?_⟩
  · rw [show Buffer.new 0 = some (⟨[], 0, 0, le_rfl⟩ : Buffer) from rfl, Option.bind_some, encode,
      if_neg (by simp [hname, hvalue]), hreserve]
    simp only [Option.bind_eq_bind, Option.bind_some, hb₁, hb₂, hb₃, hdomain, hpath, hsecure,
      if_true, if_neg (not_lt.mpr hage), if_neg (not_lt.mpr hexpires), Bool.false_eq_true, if_false]
  · rw [hbytes₃, hbytes₂, hbytes₁, List.append_assoc]
    rfl

/-! ### There and back -/

/-- **Only a cookie without attributes** comes back. -/
theorem encode_parse_iff (hname : Token c.name)
    (hvalue : Printable c.value) :
    c.RoundTrips date ↔ c.Plain ∧ c.name.length + 1 + c.value.length < 2 ^ 31 := by
  have hsemicolon : 59 ∉ c.value := fun hmem => (hvalue.chars 59 hmem).1 rfl
  have hnot : 59 ∉ c.name ++ 61 :: c.value := by
    rw [List.mem_append, List.mem_cons]
    rintro (hmem | heq | hmem)
    · exact hname.not_mem (by decide) hmem
    · exact absurd heq (by decide)
    · exact hsemicolon hmem
  have hlen : (c.name ++ 61 :: c.value).length = c.name.length + 1 + c.value.length := by
    rw [List.length_append, List.length_cons, Nat.add_right_comm, Nat.add_assoc]
  constructor
  · rintro ⟨dst, -, htext, hback⟩
    obtain ⟨c', hparse, heq⟩ := Option.map_eq_some_iff.mp hback
    rw [htext] at hparse
    by_cases hplain : c.Plain
    · rw [text_of_plain date hplain] at hparse
      obtain ⟨⟨i, hfind⟩, -⟩ := finds_of_parse hparse
      exact ⟨hplain, hlen ▸ length_lt_of_find hnot hfind⟩
    · -- the semicolon of the first attribute is read into the value
      obtain ⟨rest, hrest, hmem⟩ := text_of_not_plain date hplain
      rw [hrest] at hparse
      have hkept := mem_value_of_parse hname hmem hparse
      rw [show c'.value = c.value from congrArg Prod.snd heq] at hkept
      exact absurd hkept hsemicolon
  · rintro ⟨hplain, hlt⟩
    obtain ⟨dst, hencode, hbytes⟩ := encode_plain date hplain hname.1 hvalue.ne_nil hlt
    refine ⟨dst, hencode, hbytes.trans (text_of_plain date hplain).symm, ?_⟩
    rw [hbytes, parse_eq hname (by omega) (find_of_not_mem hnot (hlen ▸ hlt)),
      strip_eq_self hvalue.ne_nil hvalue.head hvalue.last]
    rfl

def sid : Cookie := { name := ascii "SID", value := ascii "31d4d96e" }

def sidOfDocs : Cookie := { name := ascii "SID", value := ascii "31d4d96e", path := ascii "/docs" }

theorem token_sid : Token sid.name := by
  refine ⟨by decide, ?_⟩
  decide +kernel

theorem printable_sid : Printable sid.value where
  ne_nil := by decide
  chars := by decide +kernel
  head := by decide
  last := by decide

theorem encode_parse_sid : sid.RoundTrips (fun _ => none) ↔ sid.Plain ∧
    sid.name.length + 1 + sid.value.length < 2 ^ 31 :=
  encode_parse_iff (fun _ => none) token_sid printable_sid

/-- The path is lost, and its attribute becomes part of the value. -/
theorem not_encode_parse : ¬sidOfDocs.RoundTrips fun _ => none := by
  have hwritten : ((Buffer.new 0).bind (sidOfDocs.encode fun _ => none)).map (·.2.bytes) =
      some (ascii "SID=31d4d96e; Path=") := by decide +kernel
  have hread : (parse (ascii "SID=31d4d96e; Path=")).map (·.value) =
      some (ascii "31d4d96e; Path=") := by decide +kernel
  rintro ⟨dst, hencode, -, hback⟩
  rw [hencode] at hwritten
  rw [show dst.bytes = _ from Option.some.inj hwritten] at hback
  obtain ⟨c', hparse, heq⟩ := Option.map_eq_some_iff.mp hback
  rw [hparse] at hread
  have hvalue := (Option.some.inj hread).symm.trans (congrArg Prod.snd heq)
  exact absurd hvalue (by decide +kernel)

end Cookie

end Cookies

end Suil
