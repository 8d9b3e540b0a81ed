/-
Writing JSON values.

`emit_value` writes a value as one text, `emit_value_indented` over several lines.  A string that is
not UTF-8 makes them throw; of the control characters those below `0x1F` are escaped, and `0x1F`
itself is written as it is, though no reader accepts it.  A number that `sprintf` does not print as
one is written as null.

* `spelled_charText` — a character is written as one of its spellings;
* `writes_emitValue`, `writes_emitValueIndented` — when a writer throws, and else what its text
  denotes;
* `roundTrip_iff` — which values are read back;
* `emitValueIndented_iff` — both writers write the same value.
-/
import Suil.JsonDecode

open Scanning Suil.Utf8 Suil.JsonDecode

namespace Suil.JsonEncode

variable {N : Type}

/-- The exceptions of the writer. -/
inductive Thrown where
  | invalidArguments
deriving DecidableEq, Repr

/-! ### Strings -/

/-- `hex[n]` -/
def hexUpper (n : ℕ) : UInt8 := (ascii "0123456789ABCDEF").getD n 0

/-- `write_hex16` -/
def writeHex16 (val : ℕ) : Bytes :=
  [hexUpper (val >>> 12 &&& 0xF), hexUpper (val >>> 8 &&& 0xF), hexUpper (val >>> 4 &&& 0xF),
    hexUpper (val &&& 0xF)]

/-- What is written behind a backslash for one byte. -/
def emitEscape (c : UInt8) : Option UInt8 :=
  if c = 34 then some 34
  else if c = 92 then some 92
  else if c = 8 then some 98
  else if c = 12 then some 102
  else if c = 10 then some 110
  else if c = 13 then some 114
  else if c = 9 then some 116
  else none

/-- A character as `\u....`, or as a surrogate pair. -/
def emitUnicode (unicode : ℕ) : Option Bytes :=
  if unicode ≤ 0xFFFF then some (92 :: 117 :: writeHex16 unicode)
  else (toSurrogatePair unicode).map fun p =>
    92 :: 117 :: (writeHex16 p.1 ++ 92 :: 117 :: writeHex16 p.2)

/-- The body of the loop in `emit_string`; there is nothing for a character that is not UTF-8. -/
def emitChar (escapeUnicode : Bool) : Bytes → Option (Bytes × Bytes)
  | [] => none
  | c :: s =>
    match emitEscape c with
    | some e => some ([92, e], s)
    | none =>
      if utf8ValidateCz (c :: s) = 0 then none
      else if c < 0x1F ∨ (c ≥ 0x80 ∧ escapeUnicode = true) then
        (utf8ReadChar (c :: s)).bind fun p =>
          (emitUnicode p.1).map fun t => (t, (c :: s).drop p.2)
      else some ((c :: s).splitAt (utf8ValidateCz (c :: s)))

/-- `emit_string`, with its local variable. -/
def emitStringWith (escapeUnicode : Bool) (str : CString) : Call Thrown Bytes :=
  if utf8Validate str.bytes = false then .error (.raised .invalidArguments)
  else
    match turns atEnd (emitChar escapeUnicode) (str.bytes.length + 1) str.bytes with
    | none => .error .crash
    | some p => .ok (34 :: (p.1.flatten ++ [34]))

/-- `emit_string` -/
def emitString (str : CString) : Call Thrown Bytes := emitStringWith false str

/-- What is written for a character. -/
def charText (escapeUnicode : Bool) (c : Char) : Bytes :=
  match (String.utf8EncodeChar c).head?.bind emitEscape with
  | some e => [92, e]
  | none =>
    if c.toNat < 0x1F ∨ (c.toNat ≥ 0x80 ∧ escapeUnicode = true) then (emitUnicode c.toNat).getD []
    else String.utf8EncodeChar c

variable {c : Char} {n : ℕ} {x e : UInt8} {escapeUnicode : Bool}

/-- What is escaped is one byte, and is read back. -/
theorem emitEscape_spec (h : emitEscape x = some e) :
    shortEscape e = some x ∧ x.toNat ≤ 0x7F ∧ x ≠ 0x1F := by
  rw [emitEscape] at h
  split_ifs at h
  all_goals
    obtain rfl := Option.some.inj h
    subst x
    decide

theorem ne_of_emitEscape_eq_none (h : emitEscape x = none) : x ≠ 34 ∧ x ≠ 92 := by
  constructor <;> (rintro rfl; cases h)

theorem emitUnicode_isSome (c : Char) : ∃ t, emitUnicode c.toNat = some t := by
  have hvalid := toNat_valid c
  rw [emitUnicode]
  split_ifs with h
  · exact ⟨_, rfl⟩
  · rw [toSurrogatePair, if_neg (by omega)]
    exact ⟨_, rfl⟩

/-- One turn writes one character. -/
theorem emitChar_encode (c : Char) (t : Bytes) :
    emitChar escapeUnicode (String.utf8EncodeChar c ++ t) = some (charText escapeUnicode c, t) := by
  obtain ⟨x, u, hu, hlow, hhigh⟩ := utf8EncodeChar_head c
  have hvalid : utf8ValidateCz (x :: (u ++ t)) = (x :: u).length := by
    rw [← List.cons_append, ← hu, utf8ValidateCz_encode]
  have hread : utf8ReadChar (x :: (u ++ t)) = some (c.toNat, (x :: u).length) := by
    rw [← List.cons_append, ← hu, utf8ReadChar_encode]
  rw [charText, hu, List.cons_append, emitChar, List.head?_cons, Option.bind_some]
  cases he : emitEscape x with
  | some e =>
    have hx := (emitEscape_spec he).2.1
    have hc : c.toNat ≤ 0x7F := by
      by_contra hc
      exact absurd (hhigh (by omega)) (by omega)
    rw [(hlow hc).2, List.nil_append]
  | none =>
    dsimp only
    have hcond : (x < 0x1F ∨ (x ≥ 0x80 ∧ escapeUnicode = true)) ↔
        (c.toNat < 0x1F ∨ (c.toNat ≥ 0x80 ∧ escapeUnicode = true)) := by
      have hlt : x < 0x1F ↔ c.toNat < 0x1F := by
        rw [UInt8.lt_iff_toNat_lt]
        show x.toNat < 0x1F ↔ _
        by_cases hc : c.toNat ≤ 0x7F
        · rw [(hlow hc).1]
        · have hx := hhigh (by omega)
          omega
      have hge : x ≥ 0x80 ↔ c.toNat ≥ 0x80 := by
        rw [ge_iff_le, UInt8.le_iff_toNat_le]
        show 0x80 ≤ x.toNat ↔ _
        by_cases hc : c.toNat ≤ 0x7F
        · rw [(hlow hc).1]
        · have hx := hhigh (by omega)
          omega
      rw [hlt, hge]
    rw [hvalid, if_neg (List.length_pos_of_ne_nil (List.cons_ne_nil x u)).ne']
    simp only [hcond]
    split_ifs
    · obtain ⟨w, hw⟩ := emitUnicode_isSome c
      rw [hread, Option.bind_some]
      dsimp only
      rw [hw, ← List.cons_append, List.drop_left]
      rfl
    · rw [← List.cons_append, List.splitAt_eq, List.take_left, List.drop_left]

/-- The loop writes the characters one after the other. -/
theorem reads_emitChar : Reads atEnd (emitChar escapeUnicode) fun w b =>
    ∃ c : Char, (c.toNat ≠ 0 ∧ w = String.utf8EncodeChar c) ∧ b = charText escapeUnicode c where
  turn_iff := by
    intro s b t hs
    constructor
    · intro h
      have hchar : ∃ c u, s = String.utf8EncodeChar c ++ u := by
        rcases s with _ | ⟨x, s⟩
        · cases h
        rw [emitChar] at h
        cases he : emitEscape x with
        | some e =>
          have hx := (emitEscape_spec he).2.1
          obtain ⟨c, hc⟩ := exists_toNat_eq (n := x.toNat) (by omega)
          exact ⟨c, s, by rw [utf8EncodeChar_of_byte hx hc]; rfl⟩
        | none =>
          rw [he] at h
          dsimp only at h
          split_ifs at h with hzero
          · exact exists_char hzero
          · exact exists_char hzero
      obtain ⟨c, u, rfl⟩ := hchar
      rw [emitChar_encode] at h
      obtain ⟨rfl, rfl⟩ := Prod.mk.inj (Option.some.inj h)
      rw [atEnd_encode] at hs
      exact ⟨_, ⟨c, ⟨of_decide_eq_false hs, rfl⟩, rfl⟩, rfl⟩
    · rintro ⟨_, ⟨c, ⟨-, rfl⟩, rfl⟩, rfl⟩
      exact emitChar_encode c t
  ne_nil := by
    rintro w b ⟨c, ⟨-, rfl⟩, -⟩
    exact String.utf8EncodeChar_ne_nil
  not_stop := by
    rintro w b t ⟨c, ⟨hc, rfl⟩, -⟩
    rw [atEnd_encode]
    exact decide_eq_false hc

/-- A string that is UTF-8. -/
def IsUtf8 (str : CString) : Prop := ∃ cs, str.bytes = encode cs

/-- **What is written for a string**, if it is UTF-8. -/
theorem emitStringWith_eq (str : CString) :
    (¬IsUtf8 str ∧ emitStringWith escapeUnicode str = .error (.raised .invalidArguments)) ∨
      ∃ cs, str.bytes = encode cs ∧ (∀ c ∈ cs, c.toNat ≠ 0) ∧
        emitStringWith escapeUnicode str =
          .ok (34 :: (cs.flatMap (charText escapeUnicode) ++ [34])) := by
  have hvalid : utf8Validate str.bytes = true ↔ IsUtf8 str :=
    utf8Validate_of_zero_free str.zero_free
  by_cases h : IsUtf8 str
  · right
    have htrue := hvalid.mpr h
    obtain ⟨cs, hcs⟩ := h
    have hne : ∀ c ∈ cs, c.toNat ≠ 0 := fun c hc h0 =>
      str.zero_free (by rw [hcs]; exact zero_mem_encode hc h0)
    refine ⟨cs, hcs, hne, ?_⟩
    have hloop := (turns_iff (@reads_emitChar escapeUnicode)
      (Nat.lt_succ_self str.bytes.length)).mpr
        ⟨_, forall₂_map_iff.mpr ⟨cs, forall₂_and_eq_iff.mpr ⟨hne, rfl⟩, rfl⟩,
        by rw [hcs, encode, List.flatMap_def, List.append_nil], (rfl : atEnd [] = true)⟩
    rw [emitStringWith, htrue, if_neg (by decide), hloop]
    dsimp only
    rw [List.flatMap_def]
  · refine .inl ⟨h, ?_⟩
    rw [emitStringWith, if_pos (Bool.eq_false_iff.mpr fun ht => h (hvalid.mp ht))]

/-- `write_hex16` writes four digits. -/
theorem hex16_writeHex16 (h : n < 2 ^ 16) : Hex16 (writeHex16 n) n := by
  have hdigit : ∀ m < 16, hex16Digit (hexUpper m) = some m := by decide
  have hand : ∀ m, m &&& 0xF = m % 16 := fun m => Nat.and_two_pow_sub_one_eq_mod m 4
  have hmk := Hex16.mk (hdigit (n / 2 ^ 12 % 16) (by omega)) (hdigit (n / 2 ^ 8 % 16) (by omega))
    (hdigit (n / 2 ^ 4 % 16) (by omega)) (hdigit (n % 16) (by omega))
  rw [writeHex16]
  simp only [hand, Nat.shiftRight_eq_div_pow]
  convert hmk using 1
  omega

/-- **What is written for a character is one of its spellings**, but for `0x1F`. -/
theorem spelled_charText (hzero : c.toNat ≠ 0) (hsep : c.toNat ≠ 0x1F) :
    Spelled (charText escapeUnicode c) c := by
  have hvalid := toNat_valid c
  obtain ⟨x, u, hu, hlow, hhigh⟩ := utf8EncodeChar_head c
  rw [charText, hu, List.head?_cons, Option.bind_some]
  cases he : emitEscape x with
  | some e =>
    obtain ⟨hshort, hx, -⟩ := emitEscape_spec he
    have hc : c.toNat ≤ 0x7F := by
      by_contra hc
      exact absurd (hhigh (by omega)) (by omega)
    exact .short hshort (hlow hc).1.symm
  | none =>
    dsimp only
    split_ifs with hcond
    · rw [emitUnicode]
      split_ifs with hplane
      · exact .unicode (.unit (hex16_writeHex16 (by omega)) hzero)
      · obtain ⟨⟨uc, lc⟩, hpair⟩ : ∃ q, toSurrogatePair c.toNat = some q := by
          rw [toSurrogatePair, if_neg (by omega)]
          exact ⟨_, rfl⟩
        have hback := (fromSurrogatePair_toSurrogatePair _ uc lc).mp hpair
        have hrange := ((fromSurrogatePair_eq_some_iff uc lc _).mp hback).1
        rw [hpair]
        exact .unicode (.pair (hex16_writeHex16 (by omega)) (hex16_writeHex16 (by omega)) hback)
    · rw [← hu]
      have hne := ne_of_emitEscape_eq_none he
      refine .plain (by omega) (fun h => ?_) (fun h => ?_)
      · exact hne.1 (UInt8.toNat_inj.mp (((hlow (by omega)).1.trans h)))
      · exact hne.2 (UInt8.toNat_inj.mp (((hlow (by omega)).1.trans h)))

/-! ### Values -/

/-- What comes from elsewhere: `sprintf` with `%.16g`, and `<<` of a `double`. -/
structure Printing (N : Type) where
  printed : N → Bytes
  text : N → Bytes

variable (p : Printing N)

/-- `number_is_valid` -/
def numberIsValid (num : Bytes) : Bool := numberEnd num = some []

/-- `emit_number` -/
def emitNumber (num : N) : Bytes :=
  if numberIsValid (p.printed num) then p.text num else ascii "null"

mutual

/-- `emit_value` -/
def emitValue : Json N → Call Thrown Bytes
  | .null => .ok (ascii "null")
  | .bool b => .ok (boolText b)
  | .string s => emitString s
  | .number x => .ok (emitNumber p x)
  | .array xs => (emitElements xs).map fun t => 91 :: (t ++ [93])
  | .object ms => (emitMembers ms).map fun t => 123 :: (t ++ [125])

/-- The loop of `emit_array`. -/
def emitElements : List (Json N) → Call Thrown Bytes
  | [] => .ok []
  | x :: xs =>
    (emitValue x).bind fun t => (emitElements xs).map fun u =>
      t ++ ((if xs.isEmpty then [] else [44]) ++ u)

/-- The loop of `emit_object`. -/
def emitMembers : List (CString × Json N) → Call Thrown Bytes
  | [] => .ok []
  | (key, x) :: ms =>
    (emitString key).bind fun k => (emitValue x).bind fun t => (emitMembers ms).map fun u =>
      k ++ (58 :: (t ++ ((if ms.isEmpty then [] else [44]) ++ u)))

end

/-- `for (i = 0; i < n; i++) out << space` -/
def indent (space : Bytes) (n : ℕ) : Bytes := (List.replicate n space).flatten

mutual

/-- `emit_value_indented`, with `emit_array_indented` and `emit_object_indented`. -/
def emitValueIndented (space : Bytes) : ℕ → Json N → Call Thrown Bytes
  | _, .null => .ok (ascii "null")
  | _, .bool b => .ok (boolText b)
  | _, .string s => emitString s
  | _, .number x => .ok (emitNumber p x)
  | level, .array xs =>
    if xs.isEmpty then .ok (ascii "[]")
    else (emitElementsIndented space level xs).map fun t =>
      ascii "[\n" ++ (t ++ (indent space level ++ [93]))
  | level, .object ms =>
    if ms.isEmpty then .ok (ascii "\x7b\x7d")
    else (emitMembersIndented space level ms).map fun t =>
      ascii "\x7b\n" ++ (t ++ (indent space level ++ [125]))

/-- The loop of `emit_array_indented`. -/
def emitElementsIndented (space : Bytes) (level : ℕ) : List (Json N) → Call Thrown Bytes
  | [] => .ok []
  | x :: xs =>
    (emitValueIndented space (level + 1) x).bind fun t =>
      (emitElementsIndented space level xs).map fun u =>
        indent space (level + 1) ++ (t ++ ((if xs.isEmpty then ascii "\n" else ascii ",\n") ++ u))

/-- The loop of `emit_object_indented`. -/
def emitMembersIndented (space : Bytes) (level : ℕ) :
    List (CString × Json N) → Call Thrown Bytes
  | [] => .ok []
  | (key, x) :: ms =>
    (emitString key).bind fun k => (emitValueIndented space (level + 1) x).bind fun t =>
      (emitMembersIndented space level ms).map fun u =>
        indent space (level + 1) ++ (k ++ (ascii ": " ++ (t ++
          ((if ms.isEmpty then ascii "\n" else ascii ",\n") ++ u))))

end

/-! ### What is read back -/

mutual

/-- A value as it is read back: the numbers may lose digits, or become null. -/
def readBack (strtod : Bytes → N) : Json N → Json N
  | .null => .null
  | .bool b => .bool b
  | .string s => .string s
  | .number x => if numberIsValid (p.printed x) then .number (strtod (p.text x)) else .null
  | .array xs => .array (readBackElements strtod xs)
  | .object ms => .object (readBackMembers strtod ms)

/-- The elements of an array. -/
def readBackElements (strtod : Bytes → N) : List (Json N) → List (Json N)
  | [] => []
  | x :: xs => readBack strtod x :: readBackElements strtod xs

/-- The members of an object. -/
def readBackMembers (strtod : Bytes → N) : List (CString × Json N) → List (CString × Json N)
  | [] => []
  | (key, x) :: ms => (key, readBack strtod x) :: readBackMembers strtod ms

end

/-- What `<<` writes for a number that `sprintf` prints as one is a number, too. -/
def Printing.Numerals : Prop := ∀ x, numberIsValid (p.printed x) = true → Numeral (p.text x)

/-- A property of all strings and keys of a value. -/
inductive AllStrings (P : CString → Prop) : Json N → Prop
  | null : AllStrings P .null
  | bool (b : Bool) : AllStrings P (.bool b)
  | number (x : N) : AllStrings P (.number x)
  | string {s : CString} (h : P s) : AllStrings P (.string s)
  | array {xs : List (Json N)} (h : ∀ x ∈ xs, AllStrings P x) : AllStrings P (.array xs)
  | object {ms : List (CString × Json N)} (hkeys : ∀ m ∈ ms, P m.1)
    (h : ∀ m ∈ ms, AllStrings P m.2) : AllStrings P (.object ms)

/-- There is no `0x1F` in a string. -/
def NoSeparator (str : CString) : Prop := 0x1F ∉ str.bytes

/-! ### How a writer ends -/

/-- A writer throws when there is a string that is not UTF-8.  Else what it writes is right, or has
a `0x1F` in it, for there is one in a string. -/
def Writes (utf8 clean : Prop) (Right : Bytes → Prop) (r : Call Thrown Bytes) : Prop :=
  (¬utf8 ∧ r = .error (.raised .invalidArguments)) ∨
    (utf8 ∧ ∃ t, r = .ok t ∧ (clean → Right t) ∧ (¬clean → 0x1F ∈ t))

variable {u u' s s' : Prop} {R R' Right : Bytes → Prop} {r r' : Call Thrown Bytes}

theorem Writes.of_iff (h : Writes u s R r) (hu : u ↔ u') (hs : s ↔ s') : Writes u' s' R r := by
  rw [← propext hu, ← propext hs]
  exact h

theorem Writes.imp (h : Writes u s R r) (hR : ∀ t, R t → R' t) : Writes u s R' r := by
  rcases h with hthrown | ⟨hyes, t, hr, hright, hmem⟩
  · exact .inl hthrown
  · exact .inr ⟨hyes, t, hr, fun h => hR t (hright h), hmem⟩

theorem Writes.map (h : Writes u s R r) (g : Bytes → Bytes) (hg : ∀ t, R t → R' (g t))
    (hmem : ∀ t, t ⊆ g t) : Writes u s R' (r.map g) := by
  rcases h with ⟨hnot, rfl⟩ | ⟨hyes, t, rfl, hright, hsep⟩
  · exact .inl ⟨hnot, rfl⟩
  · exact .inr ⟨hyes, g t, rfl, fun h => hg t (hright h), fun h => hmem t (hsep h)⟩

/-- One writer after the other. -/
theorem Writes.bind (h : Writes u s R r) (h' : Writes u' s' R' r') (g : Bytes → Bytes → Bytes)
    (hg : ∀ t t', R t → R' t' → Right (g t t')) (hmem : ∀ t t', t ⊆ g t t' ∧ t' ⊆ g t t') :
    Writes (u ∧ u') (s ∧ s') Right (r.bind fun t => r'.map fun t' => g t t') := by
  rcases h with ⟨hnot, rfl⟩ | ⟨hyes, t, rfl, hright, hsep⟩
  · exact .inl ⟨fun h => hnot h.1, rfl⟩
  rcases h' with ⟨hnot, rfl⟩ | ⟨hyes', t', rfl, hright', hsep'⟩
  · exact .inl ⟨fun h => hnot h.2, rfl⟩
  refine .inr ⟨⟨hyes, hyes'⟩, g t t', rfl, fun h => hg t t' (hright h.1) (hright' h.2), fun h => ?_⟩
  rcases not_and_or.mp h with h | h
  · exact (hmem t t').1 (hsep h)
  · exact (hmem t t').2 (hsep' h)

/-- Texts with commas between them, and with something behind the commas and behind the last. -/
def joined (between last : Bytes) : List (Call Thrown Bytes) → Call Thrown Bytes
  | [] => .ok []
  | r :: rs =>
    r.bind fun t => (joined between last rs).map fun u =>
      t ++ ((if rs.isEmpty then last else 44 :: between) ++ u)

/-- **What is written for a list** is a list. -/
theorem writes_joined {β : Type} {utf8 clean : β → Prop} {Item : Bytes → β → Prop}
    {f : β → Call Thrown Bytes} {between last : Bytes} (close : UInt8)
    (hbetween : Blank isBlank between) (hlast : Blank isBlank last) {xs : List β} (hxs : xs ≠ [])
    (h : ∀ x ∈ xs, Writes (utf8 x) (clean x) (Item · x) (f x)) :
    Writes (∀ x ∈ xs, utf8 x) (∀ x ∈ xs, clean x)
      (fun t => Listed isBlank 44 close Item (t ++ [close]) xs)
      (joined between last (xs.map f)) := by
  induction xs with
  | nil => exact absurd rfl hxs
  | cons x xs ih =>
    have hx := h x (List.mem_cons_self ..)
    rw [List.map_cons, joined]
    by_cases hnil : xs = []
    · subst hnil
      have hnone : Writes True True (fun t => t = []) (joined between last []) :=
        .inr ⟨trivial, [], rfl, fun _ => rfl, fun h => absurd trivial h⟩
      refine (hx.bind hnone _ ?_ fun t t' => ⟨?_, ?_⟩).of_iff (by simp) (by simp)
      · rintro t _ ht rfl
        simpa using Listed.last ht hlast
      · exact List.subset_append_left _ _
      · exact List.Subset.trans (List.subset_append_right _ _) (List.subset_append_right _ _)
    · have hrest := ih hnil fun y hy => h y (List.mem_cons_of_mem _ hy)
      have hmore : (xs.map f).isEmpty = false := by simpa using hnil
      rw [hmore]
      refine (hx.bind hrest _ ?_ fun t t' => ⟨?_, ?_⟩).of_iff List.forall_mem_cons.symm
        List.forall_mem_cons.symm
      · intro t t' ht ht'
        have hmk := Listed.more ht (List.forall_mem_nil _) hbetween ht'
        simpa using hmk
      · exact List.subset_append_left _ _
      · exact List.Subset.trans (List.subset_append_right _ _) (List.subset_append_right _ _)

/-! ### What is written -/

/-- The character that is written as it is, and is not read. -/
theorem charText_separator (hc : c.toNat = 0x1F) :
    String.utf8EncodeChar c = [0x1F] ∧ charText false c = [0x1F] := by
  have henc : String.utf8EncodeChar c = [0x1F] :=
    utf8EncodeChar_of_byte (b := 0x1F) (by decide) hc
  refine ⟨henc, ?_⟩
  rw [charText, henc, if_neg (by simp [hc])]
  rfl

theorem mem_encode_separator {cs : List Char} : 0x1F ∈ encode cs ↔ ∃ c ∈ cs, c.toNat = 0x1F := by
  rw [encode, List.mem_flatMap]
  refine exists_congr fun c => and_congr_right fun _ => ⟨fun hmem => ?_, fun hc => ?_⟩
  · rcases mem_utf8EncodeChar hmem with ⟨h, -⟩ | ⟨h, -⟩
    · exact h.symm
    · exact absurd h (by decide)
  · rw [(charText_separator hc).1]
    exact List.mem_singleton.mpr rfl

/-- The strings. -/
theorem writes_string (str : CString) :
    Writes (IsUtf8 str) (NoSeparator str) (Quoted · str) (emitString str) := by
  rcases @emitStringWith_eq false str with ⟨hnot, heq⟩ | ⟨cs, hcs, hne, heq⟩
  · exact .inl ⟨hnot, heq⟩
  have hsep : NoSeparator str ↔ ¬∃ c ∈ cs, c.toNat = 0x1F := by
    rw [NoSeparator, hcs, mem_encode_separator]
  refine .inr ⟨⟨cs, hcs⟩, _, heq, fun hclean => ?_, fun hclean => ?_⟩
  · refine ⟨cs.map (charText false), cs, ?_, by rw [List.flatMap_def], hcs⟩
    rw [List.forall₂_map_left_iff, List.forall₂_same]
    exact fun c hc => spelled_charText (hne c hc) fun h => hsep.mp hclean ⟨c, hc, h⟩
  · rw [hsep, not_not] at hclean
    obtain ⟨c, hc, hval⟩ := hclean
    refine List.mem_cons_of_mem _ (List.mem_append_left _ (List.mem_flatMap.mpr ⟨c, hc, ?_⟩))
    rw [(charText_separator hval).2]
    exact List.mem_singleton.mpr rfl

/-- **No string is read** from what is written for one with a `0x1F`. -/
theorem parseString_separator {cs : List Char} (hne : ∀ c ∈ cs, c.toNat ≠ 0)
    (hsep : ∃ c ∈ cs, c.toNat = 0x1F) (t : Bytes) :
    parseString (34 :: (cs.flatMap (charText false) ++ t)) = none := by
  have hturns : ∀ n, turns atQuote parseChar n (cs.flatMap (charText false) ++ t) = none := by
    induction cs with
    | nil => exact absurd hsep (by simp)
    | cons c cs ih =>
      intro n
      rw [List.flatMap_cons, List.append_assoc]
      cases n with
      | zero => rfl
      | succ n =>
        by_cases hc : c.toNat = 0x1F
        · rw [(charText_separator hc).2]
          rfl
        · -- the character is read, and the separator comes behind it
          have hspelled := @spelled_charText c false (hne c (List.mem_cons_self ..)) hc
          have hstop := reads_parseChar.not_stop (t := cs.flatMap (charText false) ++ t)
            ⟨c, hspelled, rfl⟩
          have hrest := ih (fun d hd => hne d (List.mem_cons_of_mem _ hd)) (by
            obtain ⟨d, hd, hval⟩ := hsep
            rcases List.mem_cons.mp hd with rfl | hd
            · exact absurd hval hc
            · exact ⟨d, hd, hval⟩)
          rw [turns, hstop, if_neg Bool.false_ne_true,
            (reads_parseChar.turn_iff hstop).mpr ⟨_, ⟨c, hspelled, rfl⟩, rfl⟩, Option.bind_some,
            hrest, Option.map_none]
  rw [parseString, hturns, Option.map_none]

variable {p} {strtod : Bytes → N}

theorem readBackElements_eq (xs : List (Json N)) :
    readBackElements p strtod xs = xs.map (readBack p strtod) := by
  induction xs with
  | nil => rfl
  | cons x xs ih => rw [readBackElements, ih, List.map_cons]

theorem readBackMembers_eq (ms : List (CString × Json N)) :
    readBackMembers p strtod ms = ms.map fun m => (m.1, readBack p strtod m.2) := by
  induction ms with
  | nil => rfl
  | cons m ms ih => rw [readBackMembers, ih, List.map_cons]

theorem emitElements_eq (xs : List (Json N)) :
    emitElements p xs = joined [] [] (xs.map (emitValue p)) := by
  induction xs with
  | nil => rfl
  | cons x xs ih =>
    rw [emitElements, List.map_cons, joined, ih, List.isEmpty_map]

/-- A key, a colon and a value. -/
def member (colon : Bytes) (value : Json N → Call Thrown Bytes) (m : CString × Json N) :
    Call Thrown Bytes :=
  (emitString m.1).bind fun k => (value m.2).map fun t => k ++ (colon ++ t)

theorem emitMembers_eq (ms : List (CString × Json N)) :
    emitMembers p ms = joined [] [] (ms.map (member [58] (emitValue p))) := by
  induction ms with
  | nil => rfl
  | cons m ms ih =>
    rw [emitMembers, List.map_cons, joined, ih, member, List.isEmpty_map]
    cases emitString m.1 with
    | error _ => rfl
    | ok k =>
      cases emitValue p m.2 with
      | error _ => rfl
      | ok t =>
        cases joined [] [] (ms.map (member [58] (emitValue p))) with
        | error _ => rfl
        | ok w => simp [Except.bind, Except.map]

theorem allStrings_array {P : CString → Prop} {xs : List (Json N)} :
    (∀ x ∈ xs, AllStrings P x) ↔ AllStrings P (.array xs) :=
  ⟨.array, fun h => by cases h; assumption⟩

theorem allStrings_object {P : CString → Prop} {ms : List (CString × Json N)} :
    (∀ m ∈ ms, P m.1 ∧ AllStrings P m.2) ↔ AllStrings P (.object ms) := by
  constructor
  · exact fun h => .object (fun m hm => (h m hm).1) fun m hm => (h m hm).2
  · intro h
    cases h with
    | object hkeys h => exact fun m hm => ⟨hkeys m hm, h m hm⟩

/-- A value is written right by a function. -/
def WritesValue (p : Printing N) (strtod : Bytes → N) (x : Json N) (r : Call Thrown Bytes) : Prop :=
  Writes (AllStrings IsUtf8 x) (AllStrings NoSeparator x)
    (Denotes strtod · (readBack p strtod x)) r

/-- The elements of an array, with blanks behind the bracket, the commas and the last one. -/
theorem writes_elements {f : Json N → Call Thrown Bytes} {b between last : Bytes}
    (hb : Blank isBlank b) (hbetween : Blank isBlank between) (hlast : Blank isBlank last)
    {xs : List (Json N)} (hxs : xs ≠ []) (h : ∀ x ∈ xs, WritesValue p strtod x (f x)) :
    WritesValue p strtod (.array xs)
      ((joined between last (xs.map f)).map fun t => 91 :: (b ++ (t ++ [93]))) := by
  refine ((writes_joined 93 hbetween hlast hxs h).map _ ?_ fun t => ?_).of_iff allStrings_array
    allStrings_array
  · intro t ht
    rw [readBack, readBackElements_eq]
    exact .elements hb ht.map
  · intro c hc
    simp [hc]

/-- The members of an object, in the same way. -/
theorem writes_members {f : Json N → Call Thrown Bytes} {b between last colon : Bytes}
    (hb : Blank isBlank b) (hbetween : Blank isBlank between) (hlast : Blank isBlank last)
    (hcolon : Blank isBlank colon) {ms : List (CString × Json N)} (hms : ms ≠ [])
    (h : ∀ m ∈ ms, WritesValue p strtod m.2 (f m.2)) :
    WritesValue p strtod (.object ms)
      ((joined between last (ms.map (member (58 :: colon) f))).map
        fun t => 123 :: (b ++ (t ++ [125]))) := by
  have hmember : ∀ m ∈ ms, Writes (IsUtf8 m.1 ∧ AllStrings IsUtf8 m.2)
      (NoSeparator m.1 ∧ AllStrings NoSeparator m.2)
      (fun t => Member (Denotes strtod) t (m.1, readBack p strtod m.2))
      (member (58 :: colon) f m) := by
    refine fun m hm => (writes_string m.1).bind (h m hm) _ (fun k t hk ht => ?_) fun k t => ⟨?_, ?_⟩
    · exact .mk (b := []) hk (List.forall_mem_nil _) hcolon ht
    · exact List.subset_append_left _ _
    · exact List.Subset.trans (List.subset_append_right _ _) (List.subset_append_right _ _)
  refine ((writes_joined 125 hbetween hlast hms hmember).map _ ?_ fun t => ?_).of_iff
    allStrings_object allStrings_object
  · intro t ht
    rw [readBack, readBackMembers_eq]
    exact .members hb ht.map
  · intro c hc
    simp [hc]

/-! The values that both writers write alike. -/

theorem writes_null : WritesValue p strtod .null (.ok (ascii "null")) :=
  .inr ⟨.null, _, rfl, fun _ => .null, fun h => absurd .null h⟩

theorem writes_bool (b : Bool) : WritesValue p strtod (.bool b) (.ok (boolText b)) :=
  .inr ⟨.bool b, _, rfl, fun _ => .bool b, fun h => absurd (.bool b) h⟩

theorem writes_text (s : CString) : WritesValue p strtod (.string s) (emitString s) := by
  have hstring : ∀ P : CString → Prop, P s ↔ AllStrings P (.string s : Json N) := fun P =>
    ⟨.string, fun h => by cases h; assumption⟩
  exact ((writes_string s).of_iff (hstring _) (hstring _)).imp fun t ht => .string ht

theorem writes_noElement : WritesValue p strtod (.array []) (.ok (ascii "[]")) := by
  have hempty : ∀ P, AllStrings P (Json.array [] : Json N) := fun P =>
    .array (List.forall_mem_nil _)
  exact .inr ⟨hempty _, _, rfl, fun _ => .noElement (b := []) (List.forall_mem_nil _),
    fun h => absurd (hempty _) h⟩

theorem writes_noMember : WritesValue p strtod (.object []) (.ok (ascii "\x7b\x7d")) := by
  have hempty : ∀ P, AllStrings P (Json.object [] : Json N) := fun P =>
    .object (List.forall_mem_nil _) (List.forall_mem_nil _)
  exact .inr ⟨hempty _, _, rfl, fun _ => .noMember (b := []) (List.forall_mem_nil _),
    fun h => absurd (hempty _) h⟩

theorem writes_number (hp : p.Numerals) (x : N) :
    WritesValue p strtod (.number x) (.ok (emitNumber p x)) := by
  refine .inr ⟨.number x, _, rfl, fun _ => ?_, fun h => absurd (.number x) h⟩
  rw [emitNumber, readBack]
  split_ifs with hvalid
  · exact .number (hp x hvalid)
  · exact .null

/-- **What the plain writer does.** -/
theorem writes_emitValue (hp : p.Numerals) (v : Json N) :
    WritesValue p strtod v (emitValue p v) := by
  induction v using Json.induction with
  | hnull => exact writes_null
  | hbool b => exact writes_bool b
  | hstring s => exact writes_text s
  | hnumber x => exact writes_number hp x
  | harray xs ih =>
    by_cases hxs : xs = []
    · subst hxs
      exact writes_noElement
    · rw [emitValue, emitElements_eq]
      exact writes_elements (b := []) (List.forall_mem_nil _) (List.forall_mem_nil _)
        (List.forall_mem_nil _) hxs ih
  | hobject ms ih =>
    by_cases hms : ms = []
    · subst hms
      exact writes_noMember
    · rw [emitValue, emitMembers_eq]
      exact writes_members (b := []) (List.forall_mem_nil _) (List.forall_mem_nil _)
        (List.forall_mem_nil _) (List.forall_mem_nil _) hms ih

/-! ### Several lines -/

variable {space : Bytes} {level : ℕ}

theorem blank_indent (hspace : Blank isBlank space) (n : ℕ) : Blank isBlank (indent space n) := by
  intro c hc
  obtain ⟨l, hl, hmem⟩ := List.mem_flatten.mp hc
  exact hspace c ((List.eq_of_mem_replicate hl) ▸ hmem)

theorem blank_newline {b : Bytes} (hb : Blank isBlank b) : Blank isBlank (ascii "\n" ++ b) :=
  List.forall_mem_append.mpr ⟨List.forall_mem_singleton.mpr rfl, hb⟩

/-- Texts on a line each. -/
def lines (space : Bytes) (level : ℕ) : List (Call Thrown Bytes) → Call Thrown Bytes
  | [] => .ok []
  | r :: rs =>
    r.bind fun t => (lines space level rs).map fun u =>
      indent space (level + 1) ++ (t ++ ((if rs.isEmpty then ascii "\n" else ascii ",\n") ++ u))

theorem emitElementsIndented_eq (xs : List (Json N)) :
    emitElementsIndented p space level xs =
      lines space level (xs.map (emitValueIndented p space (level + 1))) := by
  induction xs with
  | nil => rfl
  | cons x xs ih => rw [emitElementsIndented, List.map_cons, lines, ih, List.isEmpty_map]

theorem emitMembersIndented_eq (ms : List (CString × Json N)) :
    emitMembersIndented p space level ms =
      lines space level (ms.map (member [58, 32] (emitValueIndented p space (level + 1)))) := by
  induction ms with
  | nil => rfl
  | cons m ms ih =>
    rw [emitMembersIndented, List.map_cons, lines, ih, member, List.isEmpty_map]
    cases emitString m.1 with
    | error _ => rfl
    | ok k =>
      cases emitValueIndented p space (level + 1) m.2 with
      | error _ => rfl
      | ok t =>
        cases lines space level
            (ms.map (member [58, 32] (emitValueIndented p space (level + 1)))) with
        | error _ => rfl
        | ok w =>
          show Except.ok _ = Except.ok _
          rw [show ascii ": " = [58, 32] from rfl]
          simp

/-- The lines are the texts with commas between, and with blanks around them. -/
theorem lines_eq {rs : List (Call Thrown Bytes)} (hrs : rs ≠ []) :
    (lines space level rs).map (fun t => t ++ indent space level) =
      (joined (ascii "\n" ++ indent space (level + 1)) (ascii "\n" ++ indent space level) rs).map
        fun t => indent space (level + 1) ++ t := by
  set between := ascii "\n" ++ indent space (level + 1) with hbetween
  set last := ascii "\n" ++ indent space level with hlast
  induction rs with
  | nil => exact absurd rfl hrs
  | cons r rs ih =>
    rw [lines, joined]
    cases r with
    | error _ => rfl
    | ok t =>
      by_cases hnil : rs = []
      · subst hnil
        show Except.ok _ = Except.ok _
        simp [hlast]
      · have hmore : rs.isEmpty = false := by simpa using hnil
        have hrest := ih hnil
        rw [hmore]
        revert hrest
        cases lines space level rs with
        | error e =>
          cases joined between last rs with
          | error e' => exact fun h => by cases h; rfl
          | ok w => exact fun h => by cases h
        | ok u =>
          cases joined between last rs with
          | error e' => exact fun h => by cases h
          | ok w =>
            intro h
            have huw : u ++ indent space level = indent space (level + 1) ++ w := Except.ok.inj h
            show Except.ok _ = Except.ok _
            rw [show ascii ",\n" = 44 :: ascii "\n" from rfl]
            simp [huw, hbetween]

/-- The same with the brackets. -/
theorem lines_brackets {rs : List (Call Thrown Bytes)} (hrs : rs ≠ []) (opening close : UInt8) :
    (lines space level rs).map (fun t =>
        opening :: (ascii "\n" ++ (t ++ (indent space level ++ [close])))) =
      (joined (ascii "\n" ++ indent space (level + 1)) (ascii "\n" ++ indent space level) rs).map
        fun t => opening :: ((ascii "\n" ++ indent space (level + 1)) ++ (t ++ [close])) := by
  have hlines := congrArg (Except.map fun w => opening :: (ascii "\n" ++ (w ++ [close])))
    (@lines_eq space level rs hrs)
  have hmap : ∀ (r : Call Thrown Bytes) (f g : Bytes → Bytes), (r.map f).map g = r.map (g ∘ f) := by
    intro r f g
    cases r <;> rfl
  rw [hmap, hmap] at hlines
  convert hlines using 2
  · funext t
    simp
  · funext t
    simp

/-- **What the writer of lines does**, when it indents with blanks. -/
theorem writes_emitValueIndented (hp : p.Numerals) (hspace : Blank isBlank space) (v : Json N) :
    WritesValue p strtod v (emitValueIndented p space level v) := by
  have hfirst : ∀ n, Blank isBlank (ascii "\n" ++ indent space n) := fun n =>
    blank_newline (blank_indent hspace n)
  induction v using Json.induction generalizing level with
  | hnull => exact writes_null
  | hbool b => exact writes_bool b
  | hstring s => exact writes_text s
  | hnumber x => exact writes_number hp x
  | harray xs ih =>
    by_cases hxs : xs = []
    · subst hxs
      exact writes_noElement
    · have hwrites := writes_elements (hfirst (level + 1)) (hfirst (level + 1)) (hfirst level) hxs
        fun x hx => @ih x hx (level + 1)
      rw [← lines_brackets (by simpa using hxs), ← emitElementsIndented_eq] at hwrites
      rw [emitValueIndented, if_neg (by simpa using hxs)]
      exact hwrites
  | hobject ms ih =>
    by_cases hms : ms = []
    · subst hms
      exact writes_noMember
    · have hcolon : Blank isBlank [32] := List.forall_mem_singleton.mpr rfl
      have hwrites := writes_members (hfirst (level + 1)) (hfirst (level + 1)) (hfirst level) hcolon
        hms fun m hm => @ih m hm (level + 1)
      rw [← lines_brackets (by simpa using hms), ← emitMembersIndented_eq] at hwrites
      rw [emitValueIndented, if_neg (by simpa using hms)]
      exact hwrites

/-! ### Writing and reading -/

variable {memory t : Bytes} {v : Json N}

/-- What a writer writes is read back, or is no text at all. -/
theorem WritesValue.decode (hlocal : StopsBehind strtod) (hm : Ends memory)
    (hblank : NoBlank memory) (h : WritesValue p strtod v r) :
    (r = .error (.raised .invalidArguments) ↔ ¬AllStrings IsUtf8 v) ∧
      ∀ t, r = .ok t →
        (AllStrings NoSeparator v → jsonDecode strtod t memory = some (readBack p strtod v)) ∧
        (¬AllStrings NoSeparator v → jsonDecode strtod t memory = none) := by
  rcases h with ⟨hnot, rfl⟩ | ⟨hutf8, t, rfl, hright, hsep⟩
  · exact ⟨iff_of_true rfl hnot, fun t ht => by cases ht⟩
  refine ⟨iff_of_false (fun h => by cases h) (not_not.mpr hutf8), fun t' ht' => ?_⟩
  obtain rfl := Except.ok.inj ht'
  constructor
  · intro hclean
    exact (jsonDecode_eq_some_iff hlocal t memory hm _).mpr ⟨hblank, [], t, [],
      List.forall_mem_nil _, hright hclean, List.forall_mem_nil _, by simp⟩
  · intro hclean
    rw [Option.eq_none_iff_forall_ne_some]
    intro v' hv'
    obtain ⟨-, b, w, b', hb, hw, hb', rfl⟩ := (jsonDecode_eq_some_iff hlocal _ memory hm v').mp hv'
    -- no text has the byte in it that has been written
    have hno : ∀ c : UInt8, (0x20 ≤ c ∨ isBlank c = true) → c ≠ 0x1F := by
      rintro c hc rfl
      revert hc
      decide
    rcases List.mem_append.mp (hsep hclean) with h | h
    · exact hno _ (.inr (hb _ h)) rfl
    · rcases List.mem_append.mp h with h | h
      · exact hno _ (hw.control _ h) rfl
      · exact hno _ (.inr (hb' _ h)) rfl

/-- What a text denotes has strings that are UTF-8. -/
theorem isUtf8_of_denotes {w : Bytes} (h : Denotes strtod w v) : AllStrings IsUtf8 v := by
  have hquoted : ∀ {w str}, Quoted w str → IsUtf8 str := by
    rintro w str ⟨ws, cs, -, -, hcs⟩
    exact ⟨cs, hcs⟩
  induction v using Json.induction generalizing w with
  | hnull => exact .null
  | hbool b => exact .bool b
  | hstring s =>
    cases h with
    | string h => exact .string (hquoted h)
  | hnumber x => exact .number x
  | harray xs ih =>
    cases h with
    | noElement _ => exact .array (List.forall_mem_nil _)
    | elements _ h => exact .array fun x hx => (h.exists_item x hx).elim fun w hw => ih x hx hw
  | hobject ms ih =>
    cases h with
    | noMember _ => exact .object (List.forall_mem_nil _) (List.forall_mem_nil _)
    | members _ h =>
      refine .object (fun m hm => ?_) fun m hm => ?_
      · obtain ⟨w, hw⟩ := h.exists_item m hm
        cases hw with
        | mk hk _ _ _ => exact hquoted hk
      · obtain ⟨w, hw⟩ := h.exists_item m hm
        cases hw with
        | mk _ _ _ hv => exact ih _ hm hv

/-- **Which values are read back**: the writer throws when a string is not UTF-8; else what it
writes is read as the value again, unless there is a `0x1F` in a string, when it is not read at
all. -/
theorem roundTrip_iff (hlocal : StopsBehind strtod) (hp : p.Numerals) (v : Json N) (memory : Bytes)
    (hm : Ends memory) (hblank : NoBlank memory) :
    (emitValue p v = .error (.raised .invalidArguments) ↔ ¬AllStrings IsUtf8 v) ∧
      ∀ t, emitValue p v = .ok t →
        (AllStrings NoSeparator v → jsonDecode strtod t memory = some (readBack p strtod v)) ∧
        (¬AllStrings NoSeparator v → jsonDecode strtod t memory = none) :=
  (writes_emitValue hp v).decode hlocal hm hblank

/-- Two writers of a value. -/
theorem WritesValue.agree (hlocal : StopsBehind strtod) (hm : Ends memory)
    (h : WritesValue p strtod v r) (h' : WritesValue p strtod v r') :
    (r = .error (.raised .invalidArguments) ∧ r' = .error (.raised .invalidArguments)) ∨
      ∃ t t', r = .ok t ∧ r' = .ok t' ∧
        jsonDecode strtod t memory = jsonDecode strtod t' memory := by
  by_cases hutf8 : AllStrings IsUtf8 v
  · obtain ⟨t, ht⟩ : ∃ t, r = .ok t := by
      rcases h with ⟨hnot, -⟩ | ⟨-, t, ht, -⟩
      · exact absurd hutf8 hnot
      · exact ⟨t, ht⟩
    obtain ⟨t', ht'⟩ : ∃ t, r' = .ok t := by
      rcases h' with ⟨hnot, -⟩ | ⟨-, t, ht, -⟩
      · exact absurd hutf8 hnot
      · exact ⟨t, ht⟩
    refine .inr ⟨t, t', ht, ht', ?_⟩
    by_cases hblank : NoBlank memory
    · obtain ⟨hclean, hsep⟩ := (h.decode hlocal hm hblank).2 t ht
      obtain ⟨hclean', hsep'⟩ := (h'.decode hlocal hm hblank).2 t' ht'
      by_cases hv : AllStrings NoSeparator v
      · rw [hclean hv, hclean' hv]
      · rw [hsep hv, hsep' hv]
    · have hnone : ∀ s, jsonDecode strtod s memory = none := fun s =>
        Option.eq_none_iff_forall_ne_some.mpr fun x hx =>
          hblank ((jsonDecode_eq_some_iff hlocal s memory hm x).mp hx).1
      rw [hnone, hnone]
  · left
    constructor
    · rcases h with ⟨-, hr⟩ | ⟨hyes, -⟩
      · exact hr
      · exact absurd hyes hutf8
    · rcases h' with ⟨-, hr⟩ | ⟨hyes, -⟩
      · exact hr
      · exact absurd hyes hutf8

/-- **Both writers agree**: they throw for the same values, and what they write is read alike. -/
theorem emitValueIndented_iff (hlocal : StopsBehind strtod) (hp : p.Numerals) (v : Json N)
    (space : Bytes) (hspace : Blank isBlank space) (level : ℕ) (memory : Bytes) (hm : Ends memory) :
    (emitValue p v = .error (.raised .invalidArguments) ∧
      emitValueIndented p space level v = .error (.raised .invalidArguments)) ∨
    ∃ t t', emitValue p v = .ok t ∧ emitValueIndented p space level v = .ok t' ∧
      jsonDecode strtod t memory = jsonDecode strtod t' memory :=
  (writes_emitValue hp v).agree hlocal hm (writes_emitValueIndented hp hspace v)

/-- Whole numbers, as they are printed. -/
def wholePrinting : Printing ℕ := ⟨decimalText, decimalText⟩

/-- No number but zero is printed with a zero in front. -/
theorem head_decimalText {n : ℕ} (h : 0 < n) : (decimalText n).head? ≠ some 48 := by
  induction n using Nat.strong_induction_on with
  | _ n ih =>
    by_cases hlt : n < 10
    · have hsmall : ∀ m < 10, 0 < m → (decimalText m).head? ≠ some 48 := by decide
      exact hsmall n hlt h
    · have hne := decimalText_ne_nil (n / 10)
      rw [decimalText] at hne
      rw [decimalText, Nat.toDigits_of_base_le (by decide) (by omega), List.map_append,
        List.head?_append_of_ne_nil _ hne]
      exact ih (n / 10) (by omega) (by omega)

theorem numeral_decimalText (n : ℕ) : Numeral (decimalText n) := by
  have hwhole : decimalText n = [48] ∨
      Digits (decimalText n) ∧ (decimalText n).head? ≠ some 48 := by
    rcases Nat.eq_zero_or_pos n with rfl | hpos
    · exact .inl rfl
    · exact .inr ⟨⟨decimalText_ne_nil n, fun _ => isDigit_decimalText⟩, head_decimalText hpos⟩
  have hnumeral : Numeral ([] ++ (decimalText n ++ ([] ++ []))) :=
    .mk (.inl rfl) hwhole (.inl rfl) (.inl rfl)
  rwa [List.nil_append, List.append_nil, List.append_nil] at hnumeral

theorem wholePrinting_numerals : wholePrinting.Numerals := fun x _ => numeral_decimalText x

/-- A whole number is read back as it was. -/
theorem readBack_wholePrinting (n : ℕ) :
    readBack wholePrinting wholeValue (.number n) = .number n := by
  have hvalid : numberIsValid (wholePrinting.printed n) = true :=
    decide_eq_true ((numberEnd_iff fun _ h => by cases h).mpr
      ⟨_, numeral_decimalText n, (List.append_nil _).symm⟩)
  have hdigits : (decimalText n).takeWhile isDigit = decimalText n :=
    List.takeWhile_eq_self_iff.mpr fun _ => isDigit_decimalText
  rw [readBack, hvalid, if_pos rfl, show wholePrinting.text n = decimalText n from rfl, wholeValue,
    hdigits]
  exact congrArg Json.number (decimal_decimalText n)

/-- A key. -/
def title : CString := ⟨ascii "title", by decide⟩

/-- A value with numbers, a string and a key. -/
def sample : Json ℕ := .array [.number 70, .string title, .object [(title, .null)]]

theorem sample_allStrings {P : CString → Prop} (h : P title) : AllStrings P sample := by
  refine .array fun x hx => ?_
  simp only [List.mem_cons, List.not_mem_nil, or_false] at hx
  rcases hx with rfl | rfl | rfl
  · exact .number 70
  · exact .string h
  · refine .object (fun m hm => ?_) fun m hm => ?_
    · rw [List.mem_singleton.mp hm]
      exact h
    · rw [List.mem_singleton.mp hm]
      exact .null

/-- It is read back. -/
theorem roundTrip_sample :
    jsonDecode wholeValue (ascii "[70,\"title\",\x7b\"title\":null\x7d]") [0, 1] = some sample :=
  ((roundTrip_iff wholeValue_stopsBehind wholePrinting_numerals sample [0, 1] (by simp [Ends])
    (by simp [NoBlank, isBlank])).2 _ rfl).1 (sample_allStrings (by unfold NoSeparator; decide))

/-- It is read back from its lines, too. -/
theorem emitValueIndented_sample :
    (emitValue wholePrinting sample = .error (.raised .invalidArguments) ∧
      emitValueIndented wholePrinting [32, 32] 0 sample = .error (.raised .invalidArguments)) ∨
    ∃ t t', emitValue wholePrinting sample = .ok t ∧
      emitValueIndented wholePrinting [32, 32] 0 sample = .ok t' ∧
      jsonDecode wholeValue t [] = jsonDecode wholeValue t' [] :=
  emitValueIndented_iff wholeValue_stopsBehind wholePrinting_numerals sample [32, 32]
    (by simp [Blank, isBlank]) 0 [] (by simp [Ends])

end Suil.JsonEncode
