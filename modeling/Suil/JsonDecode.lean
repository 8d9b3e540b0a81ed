/-
JSON texts.

`json_decode` reads a value with blanks around it, and `decodeStr` one with anything behind it.
Arrays and objects have the same loop, over values and over keys with values.  The grammar
(`Denotes`) says which texts stand for which values; a number stands for what `strtod` makes of it.

* `parseValue_iff` — what is read as a value, when nothing of a number stands behind it;
* `decodeStr_iff` — the same with blanks around the value;
* `Denotes.control` — there are no control characters in the text of a value;
* `jsonDecode_iff` — which texts are read, and as what.
-/
import Suil.JsonLexemes

open Scanning Suil.Utf8

namespace Suil.JsonDecode

variable {N : Type}

/-! ### The functions -/

section Functions

variable (strtod : Bytes → N)

/-- A key, a colon and a value in the loop of `parse_object`. -/
def parseMember (value : Bytes → Option (Json N × Bytes)) (s : Bytes) :
    Option ((CString × Json N) × Bytes) :=
  (parseString s).bind fun p =>
    if (skipSpace p.2).head? = some 58 then
      (value (skipSpace (skipSpace p.2).tail)).map fun q => ((p.1, q.1), q.2)
    else none

/-- `parse_array` and `parse_object` behind the opening bracket, with the closing one and what
reads one item. -/
def parseItems {β : Type} (close : UInt8) (item : Bytes → Option (β × Bytes)) (s : Bytes) :
    Option (List β × Bytes) :=
  if (skipSpace s).head? = some close then some ([], (skipSpace s).tail)
  else items isBlank 44 close item ((skipSpace s).length + 1) (skipSpace s)

/-- `parse_value`, with no more values in one another than given. -/
def parseValue : ℕ → Bytes → Option (Json N × Bytes)
  | 0, _ => none
  | n + 1, s =>
    if s.head? = some 110 then (expectLiteral (ascii "null") s).map fun r => (.null, r)
    else if s.head? = some 102 then (expectLiteral (ascii "false") s).map fun r => (.bool false, r)
    else if s.head? = some 116 then (expectLiteral (ascii "true") s).map fun r => (.bool true, r)
    else if s.head? = some 34 then (parseString s).map fun p => (.string p.1, p.2)
    else if s.head? = some 91 then
      (parseItems 93 (parseValue n) s.tail).map fun p => (.array p.1, p.2)
    else if s.head? = some 123 then
      (parseItems 125 (parseMember (parseValue n)) s.tail).map fun p => (.object p.1, p.2)
    else (parseNumber strtod s).map fun p => (.number p.1, p.2)

/-- `decodeStr`: the value and how much of the text has been read, or `UnsupportedOperation`. -/
def decodeStr (str : CString) : Option (Json N × ℕ) :=
  (parseValue strtod (str.bytes.length + 1) (skipSpace str.bytes)).map fun p =>
    (p.1, str.bytes.length - (skipSpace p.2).length)

/-- `json_decode` of an `Object`: all of the bytes must have been read, but the reader, which is not
told how many they are, looks at what is behind them in memory, up to a zero. -/
def jsonDecode (s memory : Bytes) : Option (Json N) :=
  (decodeStr strtod (bufferString (s ++ memory))).bind fun p =>
    if p.2 ≠ s.length then none else some p.1

end Functions

/-! ### The grammar -/

/-- `node->bool_ ? "true" : "false"` -/
def boolText (b : Bool) : Bytes := if b then ascii "true" else ascii "false"

/-- A key, a colon and a value. -/
inductive Member (Value : Bytes → Json N → Prop) : Bytes → CString × Json N → Prop
  | mk {k b b' w : Bytes} {key : CString} {v : Json N} (hk : Quoted k key) (hb : Blank isBlank b)
    (hb' : Blank isBlank b') (hv : Value w v) : Member Value (k ++ (b ++ 58 :: (b' ++ w))) (key, v)

/-- The texts that stand for a value. -/
inductive Denotes (strtod : Bytes → N) : Bytes → Json N → Prop
  | null : Denotes strtod (ascii "null") .null
  | bool (b : Bool) : Denotes strtod (boolText b) (.bool b)
  | string {w : Bytes} {s : CString} (h : Quoted w s) : Denotes strtod w (.string s)
  | number {w : Bytes} (h : Numeral w) : Denotes strtod w (.number (strtod w))
  | noElement {b : Bytes} (hb : Blank isBlank b) : Denotes strtod (91 :: (b ++ [93])) (.array [])
  | elements {b w : Bytes} {xs : List (Json N)} (hb : Blank isBlank b)
    (h : Listed isBlank 44 93 (Denotes strtod) w xs) : Denotes strtod (91 :: (b ++ w)) (.array xs)
  | noMember {b : Bytes} (hb : Blank isBlank b) :
    Denotes strtod (123 :: (b ++ [125])) (.object [])
  | members {b w : Bytes} {ms : List (CString × Json N)} (hb : Blank isBlank b)
    (h : Listed isBlank 44 125 (Member (Denotes strtod)) w ms) :
    Denotes strtod (123 :: (b ++ w)) (.object ms)

/-- The text that is read as a value, and what is behind it: of a number all that may belong to it
is read, and `strtod` is given what is behind, too. -/
inductive ReadAs (strtod : Bytes → N) (w r : Bytes) : Json N → Prop
  | number (hw : Numeral w) (hend : numberEnd (w ++ r) = some r) :
    ReadAs strtod w r (.number (strtod (w ++ r)))
  | other {v : Json N} (hv : ∀ x, v ≠ .number x) (h : Denotes strtod w v) : ReadAs strtod w r v

/-- What stands behind a value, and is no part of a number. -/
def Ends (r : Bytes) : Prop := ∀ c ∈ r.head?, isBlank c = true ∨ c = 44 ∨ c = 93 ∨ c = 125 ∨ c = 0

/-- `strtod` looks at a number, and not at what is behind it. -/
def StopsBehind (strtod : Bytes → N) : Prop :=
  ∀ w r, Numeral w → Ends r → strtod (w ++ r) = strtod w

variable {strtod : Bytes → N} {s r w t b : Bytes} {v : Json N} {c : UInt8} {m n : ℕ}

/-! ### Pieces -/

theorem expectLiteral_iff {str : Bytes} : expectLiteral str s = some r ↔ s = str ++ r := by
  induction str generalizing s with
  | nil => exact ⟨fun h => Option.some.inj h, congrArg some⟩
  | cons d str ih =>
    cases s with
    | nil => exact iff_of_false (fun h => by cases h) (List.cons_ne_nil _ _).symm
    | cons c s =>
      rw [expectLiteral]
      split_ifs with h
      · exact iff_of_false (fun h => by cases h) fun heq => h (List.cons.inj heq).1
      · rw [ih, List.cons_append, List.cons.injEq, and_iff_right (not_not.mp h)]

theorem Ends.endsNumber (h : Ends r) : EndsNumber r := by
  intro c hc
  rcases h c hc with hb | rfl | rfl | rfl | rfl
  · rcases of_decide_eq_true hb with rfl | rfl | rfl | rfl <;> decide
  all_goals decide

theorem ends_of_behind {close : UInt8} (hclose : close = 93 ∨ close = 125)
    (h : Behind isBlank 44 close r) : Ends r := by
  obtain ⟨b, c, t, hb, hc, rfl⟩ := h
  intro x hx
  cases b with
  | nil =>
    obtain rfl := Option.some.inj hx
    rcases hc with rfl | rfl
    · exact .inr (.inl rfl)
    · rcases hclose with rfl | rfl
      · exact .inr (.inr (.inl rfl))
      · exact .inr (.inr (.inr (.inl rfl)))
  | cons y b =>
    obtain rfl := Option.some.inj hx
    exact .inl (hb _ (List.mem_cons_self ..))

/-- What stands behind blanks. -/
theorem skipSpace_head (h : (skipSpace s).head? = some c) :
    ∃ b, Blank isBlank b ∧ s = b ++ c :: (skipSpace s).tail := by
  obtain ⟨b, hb, hs⟩ := exists_blank isBlank s
  refine ⟨b, hb, ?_⟩
  rw [← cons_of_head? h]
  exact hs

theorem skipSpace_cons (hb : Blank isBlank b) (hc : isBlank c = false) (t : Bytes) :
    skipSpace (b ++ c :: t) = c :: t := dropWhile_blank_cons hb hc t

/-- A list that is not empty begins as an item. -/
theorem listed_head {β : Type} {close : UInt8} {item : Bytes → Option (β × Bytes)}
    {Item : Bytes → β → Prop} {xs : List β} (h : ReadsItems isBlank 44 close item Item m)
    (hclose : ∀ {w x}, Item w x → w.head? ≠ some close) (hw : Listed isBlank 44 close Item w xs) :
    ∃ c t, w = c :: t ∧ isBlank c = false ∧ c ≠ close := by
  cases hw with
  | last hx _ =>
    obtain ⟨c, t, rfl, hc⟩ := h.head hx
    exact ⟨c, _, rfl, hc, fun heq => hclose hx (congrArg some heq)⟩
  | more hx _ _ _ =>
    obtain ⟨c, t, rfl, hc⟩ := h.head hx
    exact ⟨c, _, rfl, hc, fun heq => hclose hx (congrArg some heq)⟩

/-- The list behind an opening bracket. -/
theorem parseItems_iff {β : Type} {close : UInt8} {item : Bytes → Option (β × Bytes)}
    {Item : Bytes → β → Prop} {xs : List β} (h : ReadsItems isBlank 44 close item Item m)
    (hclose : ∀ {w x}, Item w x → w.head? ≠ some close) (hs : s.length ≤ m) :
    parseItems close item s = some (xs, r) ↔
      (xs = [] ∧ ∃ b, Blank isBlank b ∧ s = b ++ close :: r) ∨
        ∃ b w, Blank isBlank b ∧ Listed isBlank 44 close Item w xs ∧ s = b ++ (w ++ r) := by
  have hlen : (skipSpace s).length ≤ s.length := List.length_dropWhile_le ..
  have hitems := @items_iff _ _ isBlank 44 close item Item ((skipSpace s).length + 1) m
    (skipSpace s) r xs _ h (by omega) (Nat.lt_succ_self _)
  rw [parseItems]
  split_ifs with hhead
  · rw [Option.some.injEq, Prod.mk.injEq]
    constructor
    · rintro ⟨rfl, rfl⟩
      exact .inl ⟨rfl, skipSpace_head hhead⟩
    · rintro (⟨rfl, b, hb, rfl⟩ | ⟨b, w, hb, hw, rfl⟩)
      · rw [skipSpace_cons hb h.blank_close]
        exact ⟨rfl, rfl⟩
      · obtain ⟨c, t, rfl, hc, hne⟩ := listed_head h hclose hw
        rw [List.cons_append, skipSpace_cons hb hc] at hhead
        exact absurd (Option.some.inj hhead) hne
  · rw [hitems]
    constructor
    · rintro ⟨w, hw, hs'⟩
      obtain ⟨b, hb, heq⟩ := exists_blank isBlank s
      exact .inr ⟨b, w, hb, hw, by rw [← hs']; exact heq⟩
    · rintro (⟨rfl, b, hb, rfl⟩ | ⟨b, w, hb, hw, rfl⟩)
      · rw [skipSpace_cons hb h.blank_close] at hhead
        exact absurd rfl hhead
      · obtain ⟨c, t, rfl, hc, -⟩ := listed_head h hclose hw
        exact ⟨_, hw, by rw [List.cons_append, skipSpace_cons hb hc]⟩

theorem isDigit_spec (c : UInt8) : isDigit c = true →
    (isBlank c = false ∧ c ≠ 93 ∧ c ≠ 125) ∧
      c ≠ 110 ∧ c ≠ 102 ∧ c ≠ 116 ∧ c ≠ 34 ∧ c ≠ 91 ∧ c ≠ 123 := by
  revert c
  exact forall_byte (by decide +kernel)

theorem Numeral.head (h : Numeral w) : ∃ c t, w = c :: t ∧ (c = 45 ∨ isDigit c = true) := by
  cases h with
  | mk hminus hwhole _ _ =>
    rcases hminus with rfl | rfl
    · rcases hwhole with rfl | ⟨hd, -⟩
      · exact ⟨48, _, rfl, .inr rfl⟩
      · obtain ⟨c, t, rfl, hc⟩ := hd.head
        exact ⟨c, _, rfl, .inr hc⟩
    · exact ⟨45, _, rfl, .inl rfl⟩

/-- No value begins with a blank, or with a closing bracket. -/
theorem Denotes.head (h : Denotes strtod w v) :
    ∃ c t, w = c :: t ∧ isBlank c = false ∧ c ≠ 93 ∧ c ≠ 125 := by
  cases h with
  | null => exact ⟨_, _, rfl, by decide⟩
  | bool b => cases b <;> exact ⟨_, _, rfl, by decide⟩
  | string h =>
    obtain ⟨ws, cs, -, rfl, -⟩ := h
    exact ⟨_, _, rfl, by decide⟩
  | number h =>
    obtain ⟨c, t, rfl, hc⟩ := h.head
    refine ⟨c, t, rfl, ?_⟩
    rcases hc with rfl | hc
    · decide
    · exact (isDigit_spec c hc).1
  | noElement _ => exact ⟨_, _, rfl, by decide⟩
  | elements _ _ => exact ⟨_, _, rfl, by decide⟩
  | noMember _ => exact ⟨_, _, rfl, by decide⟩
  | members _ _ => exact ⟨_, _, rfl, by decide⟩

theorem Quoted.head {key : CString} (h : Quoted w key) : ∃ t, w = 34 :: t := by
  obtain ⟨ws, cs, -, rfl, -⟩ := h
  exact ⟨_, rfl⟩

/-! ### Values -/

/-- What reads values up to a length reads the keys with values up to it. -/
theorem parseMember_iff {value : Bytes → Option (Json N × Bytes)}
    (h : ∀ {s v r}, s.length ≤ m → Ends r → (value s = some (v, r) ↔
      ∃ w, Denotes strtod w v ∧ s = w ++ r)) (hs : s.length ≤ m) (hr : Ends r)
    {x : CString × Json N} :
    parseMember value s = some (x, r) ↔ ∃ w, Member (Denotes strtod) w x ∧ s = w ++ r := by
  have hskip : ∀ s, (skipSpace s).length ≤ s.length := fun s => List.length_dropWhile_le ..
  rw [parseMember, Option.bind_eq_some_iff]
  constructor
  · rintro ⟨⟨key, t⟩, hkey, hrest⟩
    obtain ⟨k, hk, rfl⟩ := parseString_iff.mp hkey
    dsimp only at hrest
    split_ifs at hrest with hcolon
    obtain ⟨⟨v, u⟩, hv, hout⟩ := Option.map_eq_some_iff.mp hrest
    obtain ⟨rfl, rfl⟩ := Prod.mk.inj hout
    obtain ⟨b, hb, ht⟩ := skipSpace_head hcolon
    obtain ⟨b', hb', ht'⟩ := exists_blank isBlank (skipSpace t).tail
    have hlen := congrArg List.length ht
    have hlen' := hskip (skipSpace t).tail
    rw [List.length_append, List.length_cons] at hlen
    rw [List.length_append] at hs
    obtain ⟨w, hw, heq⟩ := (h (by omega) hr).mp hv
    refine ⟨_, .mk hk hb hb' hw, ?_⟩
    rw [ht, ht']
    show k ++ (b ++ 58 :: (b' ++ skipSpace (skipSpace t).tail)) = _
    rw [heq]
    simp
  · rintro ⟨_, hmem, rfl⟩
    cases hmem with
    | @mk k b b' w key v hk hb hb' hv =>
      refine ⟨(key, b ++ 58 :: (b' ++ (w ++ r))), parseString_iff.mpr ⟨k, hk, by simp⟩, ?_⟩
      obtain ⟨c, t, rfl, hc, -⟩ := hv.head
      simp only [List.length_append, List.length_cons] at hs
      dsimp only
      have hvalue : value (c :: (t ++ r)) = some (v, r) :=
        (h (by simp only [List.length_cons, List.length_append]; omega) hr).mpr ⟨c :: t, hv, rfl⟩
      rw [skipSpace_cons hb (by decide), List.head?_cons, if_pos rfl, List.tail_cons,
        List.cons_append, skipSpace_cons hb' hc, hvalue, Option.map_some]

/-- A value by its first byte. -/
theorem parseValue_cons (n : ℕ) (c : UInt8) (t : Bytes) : parseValue strtod (n + 1) (c :: t) =
    if c = 110 then (expectLiteral (ascii "null") (c :: t)).map fun r => (.null, r)
    else if c = 102 then (expectLiteral (ascii "false") (c :: t)).map fun r => (.bool false, r)
    else if c = 116 then (expectLiteral (ascii "true") (c :: t)).map fun r => (.bool true, r)
    else if c = 34 then (parseString (c :: t)).map fun p => (.string p.1, p.2)
    else if c = 91 then (parseItems 93 (parseValue strtod n) t).map fun p => (.array p.1, p.2)
    else if c = 123 then
      (parseItems 125 (parseMember (parseValue strtod n)) t).map fun p => (.object p.1, p.2)
    else (parseNumber strtod (c :: t)).map fun p => (.number p.1, p.2) := by
  simp only [parseValue, List.head?_cons, Option.some.injEq, List.tail_cons]

theorem parseValue_nil (n : ℕ) : parseValue strtod n [] = none := by
  cases n <;> rfl

theorem ReadAs.head (h : ReadAs strtod w r v) : ∃ c t, w = c :: t ∧ isBlank c = false := by
  cases h with
  | number hw _ =>
    obtain ⟨c, t, heq, hc, -⟩ := (show Denotes strtod w (.number (strtod w)) from .number hw).head
    exact ⟨c, t, heq, hc⟩
  | other _ h =>
    obtain ⟨c, t, heq, hc, -⟩ := h.head
    exact ⟨c, t, heq, hc⟩

/-- With nothing of a number behind it, what is read as a value is what denotes it. -/
theorem readAs_iff (hlocal : StopsBehind strtod) (hr : Ends r) :
    ReadAs strtod w r v ↔ Denotes strtod w v := by
  constructor
  · intro h
    cases h with
    | number hw _ =>
      rw [hlocal w r hw hr]
      exact .number hw
    | other _ h => exact h
  · intro h
    by_cases hv : ∃ x, v = .number x
    · obtain ⟨x, rfl⟩ := hv
      cases h with
      | number hw =>
        rw [← hlocal w r hw hr]
        exact .number hw ((numberEnd_iff hr.endsNumber).mpr ⟨w, hw, rfl⟩)
    · exact .other (fun x hx => hv ⟨x, hx⟩) h

/-- The lists that are read with a reader of shorter texts. -/
theorem readsItems_value
    (ih : ∀ {s v r}, s.length ≤ m → Ends r → (parseValue strtod n s = some (v, r) ↔
      ∃ w, Denotes strtod w v ∧ s = w ++ r)) :
    ReadsItems isBlank 44 93 (parseValue strtod n) (Denotes strtod) m ∧
      ReadsItems isBlank 44 125 (parseMember (parseValue strtod n)) (Member (Denotes strtod))
        m := by
  constructor
  · refine ⟨by decide, by decide, by decide, fun h => ?_, fun hs hr =>
      ih hs (ends_of_behind (.inl rfl) hr)⟩
    obtain ⟨c, t, rfl, hc, -⟩ := h.head
    exact ⟨c, t, rfl, hc⟩
  · refine ⟨by decide, by decide, by decide, fun h => ?_, fun hs hr =>
      parseMember_iff ih hs (ends_of_behind (.inr rfl) hr)⟩
    cases h with
    | mk hk _ _ _ =>
      obtain ⟨t, rfl⟩ := hk.head
      exact ⟨34, _, rfl, by decide⟩

/-- **What is read as a value**: a text that denotes it, and for a number all of what may be a
number. -/
theorem parseValue_iff (hlocal : StopsBehind strtod) (hn : s.length < n) :
    parseValue strtod n s = some (v, r) ↔ ∃ w, ReadAs strtod w r v ∧ s = w ++ r := by
  induction n generalizing s v r with
  | zero => exact absurd hn (Nat.not_lt_zero _)
  | succ n ih =>
    rcases s with _ | ⟨c, t⟩
    · refine iff_of_false (by rw [parseValue_nil]; exact fun h => by cases h) ?_
      rintro ⟨w, hw, heq⟩
      obtain ⟨c, t, rfl, -⟩ := hw.head
      cases heq
    have hother : ∀ {w v}, (∀ x, v ≠ Json.number x) → Denotes strtod w v → c :: t = w ++ r →
        ∃ w, ReadAs strtod w r v ∧ c :: t = w ++ r := fun hv hw heq => ⟨_, .other hv hw, heq⟩
    -- the items of a list are shorter than the list with its bracket
    obtain ⟨hvalues, hmembers⟩ := @readsItems_value _ strtod t.length n
      fun {s v r} hs hr => by
        rw [ih (by rw [List.length_cons] at hn; omega)]
        simp only [readAs_iff hlocal hr]
    have harray := fun xs => @parseItems_iff t r t.length _ 93 _ _ xs hvalues
      (fun h => by obtain ⟨c, t, rfl, -, hc, -⟩ := h.head; simpa using hc) le_rfl
    have hobject := fun ms => @parseItems_iff t r t.length _ 125 _ _ ms hmembers
      (fun h => by cases h with | mk hk _ _ _ => obtain ⟨t, rfl⟩ := hk.head; simp) le_rfl
    rw [parseValue_cons]
    constructor
    · intro h
      split_ifs at h with h1 h2 h3 h4 h5 h6
      · obtain ⟨u, hu, hout⟩ := Option.map_eq_some_iff.mp h
        obtain ⟨rfl, rfl⟩ := Prod.mk.inj hout
        exact hother (by simp) .null (expectLiteral_iff.mp hu)
      · obtain ⟨u, hu, hout⟩ := Option.map_eq_some_iff.mp h
        obtain ⟨rfl, rfl⟩ := Prod.mk.inj hout
        exact hother (by simp) (.bool false) (expectLiteral_iff.mp hu)
      · obtain ⟨u, hu, hout⟩ := Option.map_eq_some_iff.mp h
        obtain ⟨rfl, rfl⟩ := Prod.mk.inj hout
        exact hother (by simp) (.bool true) (expectLiteral_iff.mp hu)
      · obtain ⟨⟨str, u⟩, hu, hout⟩ := Option.map_eq_some_iff.mp h
        obtain ⟨rfl, rfl⟩ := Prod.mk.inj hout
        obtain ⟨w, hw, heq⟩ := parseString_iff.mp hu
        exact hother (by simp) (.string hw) heq
      · obtain ⟨⟨xs, u⟩, hu, hout⟩ := Option.map_eq_some_iff.mp h
        obtain ⟨rfl, rfl⟩ := Prod.mk.inj hout
        rcases (harray xs).mp hu with ⟨rfl, b, hb, rfl⟩ | ⟨b, w, hb, hw, rfl⟩
        · exact hother (by simp) (.noElement hb) (by rw [h5]; simp)
        · exact hother (by simp) (.elements hb hw) (by rw [h5]; simp)
      · obtain ⟨⟨ms, u⟩, hu, hout⟩ := Option.map_eq_some_iff.mp h
        obtain ⟨rfl, rfl⟩ := Prod.mk.inj hout
        rcases (hobject ms).mp hu with ⟨rfl, b, hb, rfl⟩ | ⟨b, w, hb, hw, rfl⟩
        · exact hother (by simp) (.noMember hb) (by rw [h6]; simp)
        · exact hother (by simp) (.members hb hw) (by rw [h6]; simp)
      · obtain ⟨⟨x, u⟩, hu, hout⟩ := Option.map_eq_some_iff.mp h
        obtain ⟨rfl, rfl⟩ := Prod.mk.inj hout
        obtain ⟨y, hy, hxy⟩ := Option.map_eq_some_iff.mp hu
        obtain ⟨rfl, rfl⟩ := Prod.mk.inj hxy
        obtain ⟨w, hw, heq⟩ := numberEnd_sound hy
        rw [heq] at hy ⊢
        exact ⟨w, .number hw hy, rfl⟩
    · rintro ⟨w, hread, heq⟩
      rcases hread with ⟨h, hend⟩ | ⟨hv, hw⟩
      · obtain ⟨d, u, rfl, hd⟩ := Numeral.head h
        obtain rfl : c = d := (List.cons.inj heq).1
        have hne : c ≠ 110 ∧ c ≠ 102 ∧ c ≠ 116 ∧ c ≠ 34 ∧ c ≠ 91 ∧ c ≠ 123 := by
          rcases hd with rfl | hd
          · decide
          · exact (isDigit_spec c hd).2
        obtain ⟨h1, h2, h3, h4, h5, h6⟩ := hne
        rw [if_neg h1, if_neg h2, if_neg h3, if_neg h4, if_neg h5, if_neg h6, heq, parseNumber,
          hend]
        rfl
      cases hw with
      | number _ => exact absurd rfl (hv _)
      | null =>
        obtain rfl : c = 110 := (List.cons.inj heq).1
        rw [if_pos rfl, expectLiteral_iff.mpr heq]
        rfl
      | bool b =>
        cases b
        · obtain rfl : c = 102 := (List.cons.inj heq).1
          rw [if_neg (by decide), if_pos rfl,
            expectLiteral_iff.mpr (show 102 :: t = ascii "false" ++ r from heq)]
          rfl
        · obtain rfl : c = 116 := (List.cons.inj heq).1
          rw [if_neg (by decide), if_neg (by decide), if_pos rfl,
            expectLiteral_iff.mpr (show 116 :: t = ascii "true" ++ r from heq)]
          rfl
      | string h =>
        obtain ⟨u, rfl⟩ := h.head
        obtain rfl : c = 34 := (List.cons.inj heq).1
        rw [if_neg (by decide), if_neg (by decide), if_neg (by decide), if_pos rfl,
          parseString_iff.mpr ⟨_, h, heq⟩]
        rfl
      | @noElement b hb =>
        obtain ⟨rfl, htail⟩ := List.cons.inj heq
        rw [if_neg (by decide), if_neg (by decide), if_neg (by decide), if_neg (by decide),
          if_pos rfl, (harray []).mpr (.inl ⟨rfl, b, hb, by rw [htail]; simp⟩)]
        rfl
      | @elements b w xs hb h =>
        obtain ⟨rfl, htail⟩ := List.cons.inj heq
        rw [if_neg (by decide), if_neg (by decide), if_neg (by decide), if_neg (by decide),
          if_pos rfl, (harray xs).mpr (.inr ⟨b, w, hb, h, by rw [htail]; simp⟩)]
        rfl
      | @noMember b hb =>
        obtain ⟨rfl, htail⟩ := List.cons.inj heq
        rw [if_neg (by decide), if_neg (by decide), if_neg (by decide), if_neg (by decide),
          if_neg (by decide), if_pos rfl, (hobject []).mpr (.inl ⟨rfl, b, hb, by rw [htail]; simp⟩)]
        rfl
      | @members b w ms hb h =>
        obtain ⟨rfl, htail⟩ := List.cons.inj heq
        rw [if_neg (by decide), if_neg (by decide), if_neg (by decide), if_neg (by decide),
          if_neg (by decide), if_pos rfl,
          (hobject ms).mpr (.inr ⟨b, w, hb, h, by rw [htail]; simp⟩)]
        rfl

/-! ### Texts -/

/-- There are no control characters in the text of a value, but for blanks. -/
theorem Denotes.control (h : Denotes strtod w v) : ∀ c ∈ w, 0x20 ≤ c ∨ isBlank c = true := by
  have hprintable : ∀ {w}, Printable w → ∀ c ∈ w, 0x20 ≤ c ∨ isBlank c = true :=
    fun h c hc => .inl (h c hc)
  have hblank : ∀ {b}, Blank isBlank b → ∀ c ∈ b, 0x20 ≤ c ∨ isBlank c = true :=
    fun h c hc => .inr (h c hc)
  have hlist : ∀ {b w : Bytes} {o : UInt8}, 0x20 ≤ o → Blank isBlank b →
      (∀ c ∈ w, 0x20 ≤ c ∨ isBlank c = true) → ∀ c ∈ o :: (b ++ w), 0x20 ≤ c ∨ isBlank c = true :=
    fun ho hb hw => List.forall_mem_cons.mpr ⟨.inl ho, List.forall_mem_append.mpr ⟨hblank hb, hw⟩⟩
  induction v using Json.induction generalizing w with
  | hnull =>
    cases h
    exact hprintable (by decide)
  | hbool b =>
    cases h
    cases b <;> exact hprintable (by decide)
  | hstring s =>
    cases h with
    | string h => exact hprintable h.printable
  | hnumber x =>
    cases h with
    | number h => exact hprintable h.printable
  | harray xs ih =>
    cases h with
    | noElement hb =>
      exact hlist (by decide) hb (List.forall_mem_singleton.mpr (.inl (by decide)))
    | elements hb h =>
      exact hlist (by decide) hb (h.forall_mem (.inl (by decide)) (.inl (by decide))
        (fun _ hc => .inr hc) fun x hx w hw => ih x hx hw)
  | hobject ms ih =>
    cases h with
    | noMember hb =>
      exact hlist (by decide) hb (List.forall_mem_singleton.mpr (.inl (by decide)))
    | members hb h =>
      refine hlist (by decide) hb (h.forall_mem (.inl (by decide)) (.inl (by decide))
        (fun _ hc => .inr hc) fun m hm w hw => ?_)
      cases hw with
      | mk hk hb hb' hv =>
        exact List.forall_mem_append.mpr ⟨hprintable hk.printable, List.forall_mem_append.mpr
          ⟨hblank hb, List.forall_mem_cons.mpr ⟨.inl (by decide),
            List.forall_mem_append.mpr ⟨hblank hb', ih _ hm hv⟩⟩⟩⟩

/-- No text has a zero in it. -/
theorem Denotes.zero_free (h : Denotes strtod w v) : 0 ∉ w := by
  intro h0
  rcases h.control 0 h0 with hc | hc <;> revert hc <;> decide

/-- A text that no blank begins. -/
def NoBlank (t : Bytes) : Prop := ∀ c ∈ t.head?, isBlank c = false

theorem noBlank_skipSpace (s : Bytes) : NoBlank (skipSpace s) := by
  intro c hc
  have hhead := List.head?_dropWhile_not isBlank s
  rw [skipSpace, Option.mem_def] at hc
  rw [hc] at hhead
  simpa using hhead

theorem skipSpace_append (hb : Blank isBlank b) (ht : NoBlank t) : skipSpace (b ++ t) = t := by
  cases t with
  | nil => rw [skipSpace, dropWhile_blank hb, List.dropWhile_nil]
  | cons c t => exact skipSpace_cons hb (ht c rfl) t

/-- **What `decodeStr` reads**: a value between blanks, with anything behind. -/
theorem decodeStr_iff (hlocal : StopsBehind strtod) {str : CString} {k : ℕ} :
    decodeStr strtod str = some (v, k) ↔
      ∃ b w b' t, Blank isBlank b ∧ ReadAs strtod w (b' ++ t) v ∧ Blank isBlank b' ∧ NoBlank t ∧
        str.bytes = b ++ (w ++ (b' ++ t)) ∧ k = (b ++ (w ++ b')).length := by
  have hlen : (skipSpace str.bytes).length < str.bytes.length + 1 :=
    Nat.lt_succ_of_le (List.length_dropWhile_le ..)
  rw [decodeStr, Option.map_eq_some_iff]
  constructor
  · rintro ⟨⟨x, r⟩, hvalue, hout⟩
    obtain ⟨rfl, rfl⟩ := Prod.mk.inj hout
    obtain ⟨w, hw, hs⟩ := (parseValue_iff hlocal hlen).mp hvalue
    obtain ⟨b, hb, hstr⟩ := exists_blank isBlank str.bytes
    obtain ⟨b', hb', hr⟩ := exists_blank isBlank r
    have hbytes : str.bytes = b ++ (w ++ (b' ++ skipSpace r)) :=
      hstr.trans (by rw [show r = b' ++ skipSpace r from hr] at hs; exact congrArg (b ++ ·) hs)
    refine ⟨b, w, b', skipSpace r, hb, ?_, hb', noBlank_skipSpace r, hbytes, ?_⟩
    · rwa [show b' ++ skipSpace r = r from hr.symm]
    · have hl := congrArg List.length hbytes
      simp only [List.length_append] at hl ⊢
      omega
  · rintro ⟨b, w, b', t, hb, hw, hb', ht, hs, rfl⟩
    obtain ⟨c, u, rfl, hc⟩ := hw.head
    have hskip : skipSpace str.bytes = c :: u ++ (b' ++ t) := by
      rw [hs, List.cons_append]
      exact skipSpace_cons hb hc _
    refine ⟨(v, b' ++ t), (parseValue_iff hlocal hlen).mpr ⟨_, hw, hskip⟩, ?_⟩
    dsimp only
    rw [skipSpace_append hb' ht, hs]
    congr 1
    simp only [List.length_append, List.length_cons]
    omega

theorem Ends.of_blank (hb : Blank isBlank b) (hr : Ends r) : Ends (b ++ r) := by
  cases b with
  | nil => exact hr
  | cons c b =>
    intro d hd
    obtain rfl := Option.some.inj hd
    exact .inl (hb _ (List.mem_cons_self ..))

theorem Blank.zero_free (hb : Blank isBlank b) : 0 ∉ b :=
  fun h => absurd (hb 0 h) (by decide)

/-- Up to a zero, a text begins as it does with what is behind the zero. -/
theorem head_takeWhile (memory : Bytes) :
    ∀ c ∈ (memory.takeWhile (· ≠ 0)).head?, c ∈ memory.head? := by
  intro c hc
  cases memory with
  | nil => exact hc
  | cons d memory =>
    rw [List.takeWhile_cons] at hc
    split_ifs at hc
    · exact hc
    · cases hc

theorem Ends.takeWhile {memory : Bytes} (h : Ends memory) : Ends (memory.takeWhile (· ≠ 0)) :=
  fun c hc => h c (head_takeWhile memory c hc)

theorem noBlank_takeWhile {memory : Bytes} :
    NoBlank (memory.takeWhile (· ≠ 0)) ↔ NoBlank memory := by
  refine ⟨fun h c hc => ?_, fun h c hc => h c (head_takeWhile memory c hc)⟩
  cases memory with
  | nil => cases hc
  | cons d memory =>
    obtain rfl := Option.some.inj hc
    by_cases hd : d = 0
    · rw [hd]
      decide
    · exact h d (by rw [List.takeWhile_cons_of_pos (by simpa using hd)]; rfl)

/-- A text is decoded when it is a value between blanks, and no blank stands behind it in memory. -/
theorem jsonDecode_eq_some_iff (hlocal : StopsBehind strtod) (s memory : Bytes) (hm : Ends memory)
    (v : Json N) : jsonDecode strtod s memory = some v ↔ NoBlank memory ∧
      ∃ b w b', Blank isBlank b ∧ Denotes strtod w v ∧ Blank isBlank b' ∧ s = b ++ (w ++ b') := by
  have hstr : (bufferString (s ++ memory)).bytes = (s ++ memory).takeWhile (· ≠ 0) := rfl
  rw [jsonDecode, Option.bind_eq_some_iff]
  constructor
  · rintro ⟨⟨x, k⟩, hdec, hout⟩
    split_ifs at hout with hk
    obtain rfl := Option.some.inj hout
    obtain ⟨b, w, b', t, hb, hw, hb', ht, hbytes, hlen⟩ := (decodeStr_iff hlocal).mp hdec
    rw [hstr] at hbytes
    -- what has been read is as long as the text, so that it is the text
    have hsplit : (s ++ memory).takeWhile (· ≠ 0) = b ++ (w ++ b') ++ t := by
      rw [hbytes]
      simp
    have hread : b ++ (w ++ b') <+: s ++ memory :=
      (show b ++ (w ++ b') <+: (s ++ memory).takeWhile (· ≠ 0) from ⟨t, hsplit.symm⟩).trans
        (List.takeWhile_prefix _)
    have hsize : (b ++ (w ++ b')).length = s.length := hlen.symm.trans (not_not.mp hk)
    have heq : b ++ (w ++ b') = s :=
      (List.prefix_of_prefix_length_le hread (List.prefix_append s memory) hsize.le).eq_of_length
        hsize
    have hzero : 0 ∉ s := by
      intro h0
      refine not_mem_takeWhile 0 (s ++ memory) ?_
      rw [hsplit, heq]
      exact List.mem_append_left t h0
    have hmemory : t = memory.takeWhile (· ≠ 0) := by
      rw [takeWhile_append_of_not_mem hzero, heq] at hsplit
      exact (List.append_cancel_left hsplit).symm
    subst hmemory
    exact ⟨noBlank_takeWhile.mp ht, b, w, b', hb,
      (readAs_iff hlocal (hm.takeWhile.of_blank hb')).mp hw, hb', heq.symm⟩
  · rintro ⟨hblank, b, w, b', hb, hw, hb', rfl⟩
    have hzero : 0 ∉ b ++ (w ++ b') := by
      simp only [List.mem_append, not_or]
      exact ⟨Blank.zero_free hb, hw.zero_free, Blank.zero_free hb'⟩
    refine ⟨(v, (b ++ (w ++ b')).length), (decodeStr_iff hlocal).mpr ⟨b, w, b',
      memory.takeWhile (· ≠ 0), hb, (readAs_iff hlocal (hm.takeWhile.of_blank hb')).mpr hw, hb',
      noBlank_takeWhile.mpr hblank, ?_, rfl⟩, if_neg (not_not.mpr rfl)⟩
    rw [hstr, takeWhile_append_of_not_mem hzero]
    simp

/-- `strtod` of the numbers without a sign, a fraction and an exponent. -/
def wholeValue (s : Bytes) : ℕ :=
  (s.takeWhile isDigit).foldl (fun x c => 10 * x + (c.toNat - 48)) 0

theorem wholeValue_stopsBehind : StopsBehind wholeValue := by
  intro w r _ hr
  have hnil : r.takeWhile isDigit = [] := by
    cases r with
    | nil => rfl
    | cons c r => exact List.takeWhile_cons_of_neg (by rw [(hr.endsNumber c rfl).1]; decide)
  have htake : (w ++ r).takeWhile isDigit = w.takeWhile isDigit := by
    rw [List.takeWhile_append, hnil, List.append_nil]
    split_ifs with h
    · exact ((List.takeWhile_prefix _).eq_of_length h).symm
    · rfl
  rw [wholeValue, htake, wholeValue]

end Suil.JsonDecode
