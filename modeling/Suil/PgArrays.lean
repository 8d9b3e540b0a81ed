/-
Arrays of strings on their way to PostgreSQL and back (`vhod_to_vnod`, `parse_array`).

A vector is sent as an array literal, its elements between quotes and otherwise as they are; a
literal that is received is cut at the commas, up to the first closing brace, and what stands in
between are the elements, quotes and all.

* `first_piece_ne` — an element that is written with more than its own bytes is not read back;
* `parse_returns_iff` — no vector comes back as it was sent; and of the arrays that PostgreSQL
  writes, those are read that have one dimension and an element, none of them null or quoted.
-/
import Suil.Buffer
import Suil.StringKeys

namespace Suil

namespace PgArrays

/-- The bytes of a C string. -/
def cstr (memory : Bytes) : Bytes := memory.takeWhile (· ≠ 0)

/-- `vhod_to_vnod_append`, for strings. -/
def vhodToVnodAppend (b : Buffer) (d : Bytes) : Option Buffer := do
  let b ← b.append [34]
  let b ← b.append d
  b.append [34]

/-- The loop of `vhod_to_vnod`. -/
def vhodToVnodLoop (first : Bool) : List Bytes → Buffer → Option Buffer
  | [], b => some b
  | d :: data, b => do
    let b ← (if first then some b else b.append [44])
    let b ← vhodToVnodAppend b d
    vhodToVnodLoop false data b

def vhodToVnod (b : Buffer) (data : List Bytes) : Option Buffer := do
  let b ← b.append [123]
  let b ← vhodToVnodLoop true data b
  b.append [125]

/-- `bind`, for vectors: the buffer whose bytes are sent. -/
def bind (v : List Bytes) : Option Buffer := do
  let b ← Buffer.new 32
  vhodToVnod b v

/-- `__array_value`, of the string from `in` on.  A literal has less than 2^32 bytes: a length
below 0, which the string holds in 32 bits, reaches behind the end of it. -/
def arrayValue (inp : Bytes) (len : ℤ) : Call Empty Bytes :=
  if 0 ≤ len then .ok (inp.take len.toNat) else .error .crash

/-- The loop of `parse_array`: `piece` is what `strchr` has passed from `s` on, and `stop` is
`end - s`. -/
def parseLoop (piece : Bytes) (stop : ℤ) : Bytes → Call Empty (List Bytes)
  | [] => do
    let v ← arrayValue piece stop
    return [v]
  | c :: rest =>
    if c = 44 then do
      let v ← arrayValue piece piece.length
      let vs ← parseLoop [] (stop - piece.length - 1) rest
      return v :: vs
    else parseLoop (piece ++ [c]) stop rest

/-- `parse_array`, which adds to `dest`. -/
def parseArray (dest : List Bytes) (memory : Bytes) : Call Empty (List Bytes) :=
  let literal := cstr memory
  match literal.idxOf? 123, literal.idxOf? 125 with
  | some start, some stop => do
    let vs ← parseLoop [] (stop - (start + 1)) (literal.drop (start + 1))
    return dest ++ vs
  | _, _ => return dest

/-- What a vector is sent as comes back as the vector. -/
def ComesBack (v : List Bytes) : Prop :=
  ∃ b, bind v = some b ∧ parseArray [] b.bytes = .ok v

/-- A value of the type `text`, which has no zero byte. -/
abbrev Text := {s : Bytes // (0 : UInt8) ∉ s}

/-- The values that PostgreSQL writes between quotes. -/
def quoted (x : Bytes) : Bool :=
  x == [] || x.map lower == [110, 117, 108, 108] ||
    x.any fun c => c == 34 || c == 92 || c == 123 || c == 125 || c == 44 || isSpace c

/-- Within quotes, a backslash stands before quotes and backslashes. -/
def escape (x : Bytes) : Bytes := x.flatMap fun c => if c = 34 ∨ c = 92 then [92, c] else [c]

/-- An element as PostgreSQL writes it, `NULL` for none. -/
def itemOut : Option Text → Bytes
  | none => [78, 85, 76, 76]
  | some x => if quoted x.1 then 34 :: escape x.1 ++ [34] else x.1

/-- An array that is not empty: its elements, or its rows when it has more than one dimension. -/
inductive Rows where
  | items (x : Option Text) (xs : List (Option Text))
  | rows (r : Rows) (rs : List Rows)

mutual

/-- What PostgreSQL writes for an array that is not empty. -/
def Rows.out : Rows → Bytes
  | .items x xs => 123 :: itemOut x ++ (xs.flatMap fun y => 44 :: itemOut y) ++ [125]
  | .rows r rs => 123 :: r.out ++ outRest rs ++ [125]

def outRest : List Rows → Bytes
  | [] => []
  | r :: rs => 44 :: r.out ++ outRest rs

end

mutual

/-- The elements, row by row. -/
def Rows.elements : Rows → List (Option Text)
  | .items x xs => x :: xs
  | .rows r rs => r.elements ++ elementsRest rs

def elementsRest : List Rows → List (Option Text)
  | [] => []
  | r :: rs => r.elements ++ elementsRest rs

end

/-- An array of texts: the bounds of its dimensions where they are written, and its rows if it is
not empty. -/
structure TextArray where
  bounds : List (ℤ × ℤ) := []
  value : Option Rows

def boundsOut (bounds : List (ℤ × ℤ)) : Bytes :=
  if bounds = [] then []
  else (bounds.flatMap fun p => 91 :: integerText p.1 ++ 58 :: integerText p.2 ++ [93]) ++ [61]

/-- What PostgreSQL writes for an array. -/
def TextArray.out (a : TextArray) : Bytes :=
  boundsOut a.bounds ++
    match a.value with
    | none => [123, 125]
    | some r => r.out

def TextArray.elements (a : TextArray) : List (Option Text) :=
  match a.value with
  | none => []
  | some r => r.elements

/-- The literal of an array is read as its elements. -/
def IsRead (a : TextArray) : Prop :=
  ∃ vs, parseArray [] a.out = .ok vs ∧ vs.map some = a.elements.map (Option.map Subtype.val)

/-- An element that is written as it is. -/
def Plain (y : Option Text) : Prop := ∃ x : Text, y = some x ∧ quoted x.1 = false

/-- One dimension, and plain elements. -/
def TextArray.Plain (a : TextArray) : Prop :=
  ∃ x xs, a.value = some (.items x xs) ∧ ∀ y ∈ x :: xs, PgArrays.Plain y

variable {b b' : Buffer} {c : UInt8} {d r s x piece post pre : Bytes} {v vs : List Bytes} {stop : ℕ}

theorem cstr_append (h : (0 : UInt8) ∉ d) (s : Bytes) : cstr (d ++ s) = d ++ cstr s :=
  takeWhile_append_of_not_mem h s

theorem cstr_of_not_mem (h : (0 : UInt8) ∉ d) : cstr d = d := takeWhile_of_not_mem h

theorem not_mem_cstr : (0 : UInt8) ∉ cstr s := not_mem_takeWhile 0 s

theorem arrayValue_length (d : Bytes) : arrayValue d d.length = .ok d := by
  rw [arrayValue, if_pos (Int.natCast_nonneg _), Int.toNat_natCast, List.take_length]

theorem parseLoop_comma (h : (44 : UInt8) ∉ r) (piece : Bytes) (stop : ℤ) (post : Bytes) :
    parseLoop piece stop (r ++ 44 :: post) = do
      let vs ← parseLoop [] (stop - (piece ++ r).length - 1) post
      return (piece ++ r) :: vs := by
  induction r generalizing piece with
  | nil =>
    rw [List.nil_append, parseLoop, if_pos rfl, arrayValue_length, List.append_nil]
    rfl
  | cons c r ih =>
    have hc : c ≠ 44 := fun heq => h (heq ▸ List.mem_cons_self)
    rw [List.cons_append, parseLoop, if_neg hc, ih fun hmem => h (List.mem_cons_of_mem _ hmem),
      List.append_assoc, List.singleton_append]

theorem parseLoop_last (h : (44 : UInt8) ∉ r) (piece : Bytes) (stop : ℤ) :
    parseLoop piece stop r = do
      let v ← arrayValue (piece ++ r) stop
      return [v] := by
  induction r generalizing piece with
  | nil => rw [parseLoop, List.append_nil]
  | cons c r ih =>
    have hc : c ≠ 44 := fun heq => h (heq ▸ List.mem_cons_self)
    rw [parseLoop, if_neg hc, ih fun hmem => h (List.mem_cons_of_mem _ hmem), List.append_assoc,
      List.singleton_append]

/-- A piece that ends at a byte reaches behind what does not have that byte. -/
theorem length_le_of_split {s₀ s₁ : Bytes} (h : r ++ post = s₀ ++ c :: s₁) (hr : c ∉ r) :
    r.length ≤ s₀.length := by
  rcases List.append_eq_append_iff.mp h with ⟨more, hs₀, _⟩ | ⟨more, hmore, hrest⟩
  · rw [hs₀, List.length_append]
    exact Nat.le_add_right _ _
  · cases more with
    | nil => rw [hmore, List.append_nil]
    | cons e more =>
      obtain ⟨rfl, _⟩ := List.cons.inj hrest
      exact absurd (hmore ▸ List.mem_append_right _ List.mem_cons_self) hr

/-- **What is written with more than its own bytes is not read back**: the first piece is cut at a
comma or a brace, and these are its own. -/
theorem first_piece_ne (hlen : x.length < r.length) (hcomma : (44 : UInt8) ∈ r → (44 : UInt8) ∈ x)
    (hbrace : (125 : UInt8) ∈ r → (125 : UInt8) ∈ x)
    (hstop : (r ++ post).idxOf? 125 = some stop) (h : parseLoop [] stop (r ++ post) = .ok vs) :
    vs.head? ≠ some x := by
  intro hhead
  by_cases hmem : (44 : UInt8) ∈ r ++ post
  · obtain ⟨s₀, s₁, hsplit, hs₀⟩ := List.eq_append_cons_of_mem hmem
    rw [hsplit, parseLoop_comma hs₀] at h
    -- the first piece is what is before the comma
    obtain rfl : s₀ = x := by
      cases hloop : parseLoop [] (stop - ([] ++ s₀).length - 1) s₁ with
      | error e =>
        rw [hloop] at h
        cases h
      | ok vs' =>
        rw [hloop] at h
        obtain rfl := Except.ok.inj h
        exact Option.some.inj hhead
    exact absurd (length_le_of_split hsplit fun hr => hs₀ (hcomma hr)) (Nat.not_le.mpr hlen)
  · have hin : (125 : UInt8) ∈ r ++ post := by
      by_contra hnot
      rw [List.idxOf?_eq_none_iff.mpr hnot] at hstop
      cases hstop
    obtain ⟨t₀, t₁, hsplit, ht₀⟩ := List.eq_append_cons_of_mem hin
    rw [hsplit, idxOf?_separator ht₀] at hstop
    obtain rfl := Option.some.inj hstop
    rw [parseLoop_last hmem, arrayValue, if_pos (Int.natCast_nonneg _), Int.toNat_natCast,
      List.nil_append, hsplit, List.take_left] at h
    obtain rfl : t₀ = x := by
      obtain rfl := Except.ok.inj h
      exact Option.some.inj hhead
    exact absurd (length_le_of_split hsplit fun hr => ht₀ (hbrace hr)) (Nat.not_le.mpr hlen)

/-- The first of a byte is behind what does not have it. -/
theorem idxOf?_behind {a : UInt8} (h : c ∉ d) (ha : a ≠ c) (s : Bytes) :
    (d ++ a :: s).idxOf? c = (s.idxOf? c).map (· + (d.length + 1)) := by
  have hnone : d.idxOf? c = none := List.idxOf?_eq_none_iff.mpr h
  rw [List.idxOf?] at hnone
  rw [List.idxOf?, List.findIdx?_append, hnone, Option.none_or, List.findIdx?_cons,
    if_neg (by simpa using ha), Option.map_map]
  refine congrArg (fun g => Option.map g (s.findIdx? (· == c))) (funext fun k => ?_)
  show k + 1 + d.length = k + (d.length + 1)
  omega

/-- What is before the first brace does not matter. -/
theorem parseArray_eq (h0 : (0 : UInt8) ∉ pre) (hopen : (123 : UInt8) ∉ pre)
    (hclose : (125 : UInt8) ∉ pre) (s : Bytes) : parseArray [] (pre ++ 123 :: s) =
      match (cstr s).idxOf? 125 with
      | none => .ok []
      | some stop => parseLoop [] stop (cstr s) := by
  have hcstr : cstr (pre ++ 123 :: s) = pre ++ 123 :: cstr s := by
    rw [← List.singleton_append, cstr_append h0, cstr_append (d := [123]) (by decide)]
    rfl
  have hdrop : (pre ++ 123 :: cstr s).drop (pre.length + 1) = cstr s := by
    rw [← List.singleton_append, ← List.append_assoc]
    exact List.drop_left' (by rw [List.length_append, List.length_singleton])
  rw [parseArray, hcstr, idxOf?_separator hopen, idxOf?_behind hclose (by decide)]
  cases (cstr s).idxOf? 125 with
  | none => rfl
  | some stop =>
    have hstop : ((stop + (pre.length + 1) : ℕ) : ℤ) - (pre.length + 1) = stop := by
      omega
    show (do
      let vs ← parseLoop [] (((stop + (pre.length + 1) : ℕ) : ℤ) - (pre.length + 1))
        ((pre ++ 123 :: cstr s).drop (pre.length + 1))
      return [] ++ vs) = _
    rw [hstop, hdrop]
    exact bind_pure _

/-- The elements of a literal that is sent. -/
def literal (first : Bool) : List Bytes → Bytes
  | [] => []
  | d :: data => (if first then [] else [44]) ++ 34 :: d ++ [34] ++ literal false data

theorem vhodToVnodAppend_bytes (h : vhodToVnodAppend b d = some b') :
    b'.bytes = b.bytes ++ 34 :: d ++ [34] := by
  obtain ⟨b₁, h₁, h⟩ := Option.bind_eq_some_iff.mp h
  obtain ⟨b₂, h₂, h⟩ := Option.bind_eq_some_iff.mp h
  rw [Buffer.append_bytes h, Buffer.append_bytes h₂, Buffer.append_bytes h₁]
  simp

theorem vhodToVnodLoop_bytes {first : Bool} (h : vhodToVnodLoop first v b = some b') :
    b'.bytes = b.bytes ++ literal first v := by
  induction v generalizing first b with
  | nil =>
    obtain rfl := Option.some.inj h
    exact (List.append_nil _).symm
  | cons d v ih =>
    rw [vhodToVnodLoop] at h
    obtain ⟨b₁, h₁, h⟩ := Option.bind_eq_some_iff.mp h
    obtain ⟨b₂, h₂, h⟩ := Option.bind_eq_some_iff.mp h
    have hfirst : b₁.bytes = b.bytes ++ if first then [] else [44] := by
      cases first with
      | true =>
        obtain rfl := Option.some.inj h₁
        exact (List.append_nil _).symm
      | false => exact Buffer.append_bytes h₁
    rw [ih h, vhodToVnodAppend_bytes h₂, hfirst, literal]
    simp

theorem bind_bytes (h : bind v = some b) : b.bytes = 123 :: (literal true v ++ [125]) := by
  have hbind : (Buffer.new 32).bind (fun b => vhodToVnod b v) = some b := h
  obtain ⟨b₁, h₁, h⟩ := Option.bind_eq_some_iff.mp hbind
  obtain ⟨b₂, h₂, h⟩ := Option.bind_eq_some_iff.mp h
  obtain ⟨b₃, h₃, h⟩ := Option.bind_eq_some_iff.mp h
  have hnew : b₁.bytes = [] := Buffer.grow_bytes h₁
  rw [Buffer.append_bytes h, vhodToVnodLoop_bytes h₃, Buffer.append_bytes h₂, hnew]
  simp

/-- Pieces have no zero byte. -/
theorem zero_not_mem_of_parse {stop : ℤ} (h : parseLoop piece stop s = .ok vs)
    (hpiece : (0 : UInt8) ∉ piece) (hs : (0 : UInt8) ∉ s) : ∀ y ∈ vs, (0 : UInt8) ∉ y := by
  induction s generalizing piece stop vs with
  | nil =>
    rw [parseLoop, arrayValue] at h
    split at h
    · obtain rfl := Except.ok.inj h
      intro y hy hzero
      rw [List.mem_singleton.mp hy] at hzero
      exact hpiece (List.mem_of_mem_take hzero)
    · cases h
  | cons c s ih =>
    have hrest : (0 : UInt8) ∉ s := fun hmem => hs (List.mem_cons_of_mem _ hmem)
    rw [parseLoop] at h
    split at h
    · rw [arrayValue_length] at h
      cases hloop : parseLoop [] (stop - piece.length - 1) s with
      | error e =>
        rw [hloop] at h
        cases h
      | ok vs' =>
        rw [hloop] at h
        obtain rfl := Except.ok.inj h
        intro y hy
        rcases List.mem_cons.mp hy with rfl | hy
        · exact hpiece
        · exact ih hloop nofun hrest y hy
    · refine ih h ?_ hrest
      rw [List.mem_append, List.mem_singleton]
      rintro (hp | rfl)
      · exact hpiece hp
      · exact hs List.mem_cons_self

theorem not_comesBack (v : List Bytes) : ¬ ComesBack v := by
  rintro ⟨b, hb, hparse⟩
  have heq := @parseArray_eq [] nofun nofun nofun (literal true v ++ [125])
  rw [List.nil_append, ← bind_bytes hb, hparse] at heq
  cases v with
  | nil => exact absurd heq (by decide)
  | cons x v =>
    cases hstop : (cstr (literal true (x :: v) ++ [125])).idxOf? 125 with
    | none =>
      rw [hstop] at heq
      cases heq
    | some stop =>
      rw [hstop] at heq
      have hx : (0 : UInt8) ∉ x :=
        zero_not_mem_of_parse heq.symm nofun not_mem_cstr x List.mem_cons_self
      have hr : (0 : UInt8) ∉ 34 :: x ++ [34] := by
        simpa using hx
      have hliteral : cstr (literal true (x :: v) ++ [125]) =
          (34 :: x ++ [34]) ++ cstr (literal false v ++ [125]) := by
        rw [literal, if_pos rfl, List.nil_append, List.append_assoc, cstr_append hr]
      rw [hliteral] at hstop heq
      refine first_piece_ne ?_ ?_ ?_ hstop heq.symm rfl
      · rw [List.length_append, List.length_cons]
        omega
      · intro hmem
        simpa using hmem
      · intro hmem
        simpa using hmem

theorem length_escape (x : Bytes) : x.length ≤ (escape x).length := by
  induction x with
  | nil => exact le_rfl
  | cons c x ih =>
    rw [escape, List.flatMap_cons, List.length_append, List.length_cons]
    change x.length ≤ (x.flatMap _).length at ih
    split <;> simp only [List.length_cons, List.length_nil] <;> omega

theorem mem_of_mem_escape (h : c ∈ escape x) (hc : c ≠ 92) : c ∈ x := by
  obtain ⟨a, ha, hin⟩ := List.mem_flatMap.mp h
  split at hin
  · rcases List.mem_cons.mp hin with rfl | hin
    · exact absurd rfl hc
    · exact List.mem_singleton.mp hin ▸ ha
  · exact List.mem_singleton.mp hin ▸ ha

theorem not_mem_of_plain (h : quoted x = false) : (44 : UInt8) ∉ x ∧ (125 : UInt8) ∉ x := by
  rw [quoted, Bool.or_eq_false_iff, List.any_eq_false] at h
  exact ⟨fun hmem => h.2 44 hmem rfl, fun hmem => h.2 125 hmem rfl⟩

/-- An element is written with its own commas and braces. -/
theorem mem_of_mem_itemOut {t : Text} (hc : c ≠ 92 ∧ c ≠ 34) (h : c ∈ itemOut (some t)) :
    c ∈ t.1 := by
  rw [itemOut] at h
  split at h
  · rcases List.mem_append.mp h with hin | hin
    · rcases List.mem_cons.mp hin with rfl | hin
      · exact absurd rfl hc.2
      · exact mem_of_mem_escape hin hc.1
    · exact absurd (List.mem_singleton.mp hin) hc.2
  · exact h

/-- **An element is not read back** that is null or between quotes, or stands behind an opening
brace. -/
theorem first_item_ne {y : Option Text} (hpre : ∀ a ∈ pre, a = 123) (hy : ¬ Plain y ∨ pre ≠ [])
    (hstop : (pre ++ itemOut y ++ post).idxOf? 125 = some stop)
    (h : parseLoop [] stop (pre ++ itemOut y ++ post) = .ok vs) :
    (vs.map some).head? ≠ some (y.map Subtype.val) := by
  cases y with
  | none => cases vs <;> exact nofun
  | some t =>
    have hne : vs.head? ≠ some t.1 := by
      have hmem : ∀ a : UInt8, a ≠ 123 → a ≠ 92 ∧ a ≠ 34 → a ∈ pre ++ itemOut (some t) →
          a ∈ t.1 := by
        intro a ha hesc hin
        rcases List.mem_append.mp hin with hin | hin
        · exact absurd (hpre a hin) ha
        · exact mem_of_mem_itemOut hesc hin
      refine first_piece_ne ?_ (hmem 44 (by decide) (by decide)) (hmem 125 (by decide) (by decide))
        hstop h
      rw [List.length_append, itemOut]
      split
      · have hlen := length_escape t.1
        rw [List.length_append, List.length_cons]
        omega
      · rename_i hquoted
        have hpos : 0 < pre.length := by
          refine List.length_pos_iff.mpr (hy.resolve_left fun hnot => hnot ⟨t, rfl, ?_⟩)
          exact Bool.eq_false_iff.mpr hquoted
        omega
    cases vs with
    | nil => exact nofun
    | cons v vs =>
      intro heq
      exact hne (congrArg some (Option.some.inj (Option.some.inj heq)))

/-- What stands between the braces of a row of elements. -/
def itemsOut (x : Option Text) (xs : List (Option Text)) : Bytes :=
  itemOut x ++ xs.flatMap fun y => 44 :: itemOut y

theorem itemOut_of_plain {t : Text} (h : quoted t.1 = false) : itemOut (some t) = t.1 :=
  if_neg (Bool.eq_false_iff.mp h)

theorem items_not_read {x : Option Text} {xs : List (Option Text)} (hx : ¬ Plain x)
    (hstop : (itemsOut x xs ++ [125]).idxOf? 125 = some stop) :
    ¬ ∃ vs, parseLoop [] stop (itemsOut x xs ++ [125]) = .ok vs ∧
      vs.map some = (x :: xs).map (Option.map Subtype.val) := by
  rintro ⟨vs, hparse, heq⟩
  rw [itemsOut, List.append_assoc, ← List.nil_append (itemOut x ++ _),
    ← List.append_assoc] at hparse hstop
  refine first_item_ne (fun a ha => absurd ha List.not_mem_nil) (.inl hx) hstop hparse ?_
  rw [heq]
  rfl

/-- A row of elements is read back iff all of them are plain. -/
theorem items_iff (x : Option Text) (xs : List (Option Text))
    (hstop : (itemsOut x xs ++ [125]).idxOf? 125 = some stop) :
    (∃ vs, parseLoop [] stop (itemsOut x xs ++ [125]) = .ok vs ∧
      vs.map some = (x :: xs).map (Option.map Subtype.val)) ↔ ∀ y ∈ x :: xs, Plain y := by
  induction xs generalizing x stop with
  | nil =>
    by_cases hx : Plain x
    · obtain ⟨t, rfl, ht⟩ := hx
      obtain ⟨hcomma, hbrace⟩ := not_mem_of_plain ht
      have hout : itemsOut (some t) [] ++ [125] = t.1 ++ [125] := by
        rw [itemsOut, itemOut_of_plain ht, List.flatMap_nil, List.append_nil]
      rw [hout, idxOf?_separator hbrace] at hstop
      obtain rfl := Option.some.inj hstop
      have hnot : (44 : UInt8) ∉ t.1 ++ [125] := by
        simpa using hcomma
      refine iff_of_true ⟨[t.1], ?_, rfl⟩ ?_
      · rw [hout, parseLoop_last hnot, arrayValue, if_pos (Int.natCast_nonneg _),
          Int.toNat_natCast, List.nil_append, List.take_left]
        rfl
      · intro y hy
        exact ⟨t, List.mem_singleton.mp hy, ht⟩
    · exact iff_of_false (items_not_read hx hstop) fun hall => hx (hall x List.mem_cons_self)
  | cons z xs ih =>
    by_cases hx : Plain x
    · obtain ⟨t, rfl, ht⟩ := hx
      obtain ⟨hcomma, hbrace⟩ := not_mem_of_plain ht
      have hout : itemsOut (some t) (z :: xs) ++ [125] =
          t.1 ++ 44 :: (itemsOut z xs ++ [125]) := by
        rw [itemsOut, itemOut_of_plain ht, itemsOut, List.flatMap_cons]
        simp
      rw [hout, idxOf?_behind hbrace (by decide)] at hstop
      obtain ⟨k, hk, rfl⟩ := Option.map_eq_some_iff.mp hstop
      have hrest : ((k + (t.1.length + 1) : ℕ) : ℤ) - t.1.length - 1 = k := by
        omega
      have hloop : parseLoop [] ((k + (t.1.length + 1) : ℕ) : ℤ)
          (itemsOut (some t) (z :: xs) ++ [125]) = do
          let vs ← parseLoop [] k (itemsOut z xs ++ [125])
          return t.1 :: vs := by
        rw [hout, parseLoop_comma hcomma, List.nil_append, hrest]
      rw [List.forall_mem_cons, ← ih z hk, hloop]
      constructor
      · rintro ⟨vs, hvs, heq⟩
        refine ⟨⟨t, rfl, ht⟩, ?_⟩
        cases hz : parseLoop [] k (itemsOut z xs ++ [125]) with
        | error e =>
          rw [hz] at hvs
          cases hvs
        | ok vs' =>
          rw [hz] at hvs
          obtain rfl := Except.ok.inj hvs
          exact ⟨vs', rfl, (List.cons.inj heq).2⟩
      · rintro ⟨_, vs, hvs, heq⟩
        refine ⟨t.1 :: vs, ?_, ?_⟩
        · rw [hvs]
          rfl
        · rw [List.map_cons, heq]
          rfl
    · exact iff_of_false (items_not_read hx hstop) fun hall => hx (hall x List.mem_cons_self)

theorem mem_integerText {i : ℤ} (h : c ∈ integerText i) : isDigit c = true ∨ c = 45 := by
  cases i with
  | ofNat n => exact .inl (isDigit_decimalText h)
  | negSucc n =>
    rcases List.mem_cons.mp h with rfl | h
    · exact .inr rfl
    · exact .inl (isDigit_decimalText h)

/-- The bounds are written with digits, signs and `[:]=`. -/
theorem mem_boundsOut {bounds : List (ℤ × ℤ)} (h : c ∈ boundsOut bounds) :
    isDigit c = true ∨ c ∈ ([45, 91, 58, 93, 61] : Bytes) := by
  rw [boundsOut] at h
  split at h
  · exact absurd h List.not_mem_nil
  · rcases List.mem_append.mp h with hin | hin
    · obtain ⟨p, _, hp⟩ := List.mem_flatMap.mp hin
      have hinteger : ∀ i : ℤ, c ∈ integerText i →
          isDigit c = true ∨ c ∈ ([45, 91, 58, 93, 61] : Bytes) := by
        intro i hi
        rcases mem_integerText hi with hdigit | rfl
        · exact .inl hdigit
        · exact .inr (by decide)
      simp only [List.mem_append, List.mem_cons, List.cons_append, List.not_mem_nil,
        or_false] at hp
      rcases hp with rfl | (hp | rfl | hp) | rfl
      · exact .inr (by decide)
      · exact hinteger _ hp
      · exact .inr (by decide)
      · exact hinteger _ hp
      · exact .inr (by decide)
    · rw [List.mem_singleton.mp hin]
      exact .inr (by decide)

theorem not_mem_boundsOut (bounds : List (ℤ × ℤ)) (hdigit : isDigit c = false)
    (hc : c ∉ ([45, 91, 58, 93, 61] : Bytes)) : c ∉ boundsOut bounds := by
  intro hmem
  rcases mem_boundsOut hmem with hin | hin
  · rw [hdigit] at hin
    cases hin
  · exact hc hin

theorem zero_not_mem_itemOut (y : Option Text) : (0 : UInt8) ∉ itemOut y := by
  cases y with
  | none => exact (by decide)
  | some t => exact fun hin => t.2 (mem_of_mem_itemOut (by decide) hin)

theorem zero_not_mem_itemsOut (x : Option Text) (xs : List (Option Text)) :
    (0 : UInt8) ∉ itemsOut x xs ++ [125] := by
  rw [itemsOut, List.mem_append, List.mem_append, List.mem_flatMap]
  rintro ((hx | ⟨y, _, hy⟩) | hclose)
  · exact zero_not_mem_itemOut x hx
  · rcases List.mem_cons.mp hy with heq | hy
    · cases heq
    · exact zero_not_mem_itemOut y hy
  · cases List.mem_singleton.mp hclose

/-- The first element stands behind as many braces as there are dimensions. -/
theorem Rows.out_first : ∀ r : Rows, ∃ pre y post ys, r.out = pre ++ itemOut y ++ post ∧
    pre ≠ [] ∧ (∀ a ∈ pre, a = 123) ∧ r.elements = y :: ys
  | .items x xs => by
    refine ⟨[123], x, (xs.flatMap fun y => 44 :: itemOut y) ++ [125], xs, ?_, nofun, ?_, ?_⟩
    · rw [Rows.out]
      simp
    · exact fun a ha => List.mem_singleton.mp ha
    · rw [Rows.elements]
  | .rows r rs => by
    obtain ⟨pre, y, post, ys, hout, hne, hpre, helements⟩ := Rows.out_first r
    refine ⟨123 :: pre, y, post ++ outRest rs ++ [125], ys ++ elementsRest rs, ?_, nofun, ?_, ?_⟩
    · rw [Rows.out, hout]
      simp
    · intro a ha
      exact (List.mem_cons.mp ha).elim id (hpre a)
    · rw [Rows.elements, helements]
      rfl

/-- The literal of an array is parsed from behind its first brace. -/
theorem parse_bounds (bounds : List (ℤ × ℤ)) (s : Bytes) :
    parseArray [] (boundsOut bounds ++ 123 :: s) =
      match (cstr s).idxOf? 125 with
      | none => .ok []
      | some stop => parseLoop [] stop (cstr s) :=
  parseArray_eq (not_mem_boundsOut bounds (by decide) (by decide))
    (not_mem_boundsOut bounds (by decide) (by decide))
    (not_mem_boundsOut bounds (by decide) (by decide)) s

/-- The empty array is read as one empty string. -/
theorem not_isRead_empty (bounds : List (ℤ × ℤ)) : ¬ IsRead ⟨bounds, none⟩ := by
  rintro ⟨vs, hparse, heq⟩
  change parseArray [] (boundsOut bounds ++ 123 :: [125]) = .ok vs at hparse
  rw [parse_bounds] at hparse
  obtain rfl := Except.ok.inj hparse
  cases heq

theorem isRead_items_iff (bounds : List (ℤ × ℤ)) (x : Option Text) (xs : List (Option Text)) :
    IsRead ⟨bounds, some (.items x xs)⟩ ↔ ∀ y ∈ x :: xs, Plain y := by
  have hout : TextArray.out ⟨bounds, some (.items x xs)⟩ =
      boundsOut bounds ++ 123 :: (itemsOut x xs ++ [125]) := by
    rw [TextArray.out, itemsOut]
    show _ ++ Rows.out _ = _
    rw [Rows.out]
    simp
  have hin : (125 : UInt8) ∈ itemsOut x xs ++ [125] :=
    List.mem_append_right _ List.mem_cons_self
  rw [IsRead, hout, parse_bounds, cstr_of_not_mem (zero_not_mem_itemsOut x xs)]
  cases hstop : (itemsOut x xs ++ [125]).idxOf? 125 with
  | none => exact absurd hin (List.idxOf?_eq_none_iff.mp hstop)
  | some stop =>
    rw [TextArray.elements]
    show (∃ vs, _ = _ ∧ _ = List.map _ (Rows.elements _)) ↔ _
    rw [Rows.elements]
    exact items_iff x xs hstop

/-- The first element of an array with rows is read with a brace. -/
theorem not_isRead_rows (bounds : List (ℤ × ℤ)) (r : Rows) (rs : List Rows) :
    ¬ IsRead ⟨bounds, some (.rows r rs)⟩ := by
  rintro ⟨vs, hparse, heq⟩
  obtain ⟨pre, y, post, ys, hout, hne, hpre, helements⟩ := r.out_first
  have hzero : (0 : UInt8) ∉ pre ++ itemOut y := by
    rw [List.mem_append]
    rintro (hin | hin)
    · cases hpre 0 hin
    · exact zero_not_mem_itemOut y hin
  have hrows : TextArray.out ⟨bounds, some (.rows r rs)⟩ =
      boundsOut bounds ++ 123 :: (pre ++ itemOut y ++ (post ++ outRest rs ++ [125])) := by
    rw [TextArray.out]
    show _ ++ Rows.out _ = _
    rw [Rows.out, hout]
    simp
  have hfirst : (vs.map some).head? = some (y.map Subtype.val) := by
    rw [heq]
    show (List.map _ (Rows.elements _)).head? = _
    rw [Rows.elements, helements]
    rfl
  rw [hrows, parse_bounds, cstr_append hzero] at hparse
  cases hstop : (pre ++ itemOut y ++ cstr (post ++ outRest rs ++ [125])).idxOf? 125 with
  | none =>
    rw [hstop] at hparse
    obtain rfl := Except.ok.inj hparse
    cases hfirst
  | some stop =>
    rw [hstop] at hparse
    exact first_item_ne hpre (.inr hne) hstop hparse hfirst

theorem isRead_iff (a : TextArray) : IsRead a ↔ a.Plain := by
  obtain ⟨bounds, value⟩ := a
  rcases value with _ | ⟨x, xs⟩ | ⟨r, rs⟩
  · refine iff_of_false (not_isRead_empty bounds) ?_
    rintro ⟨x, xs, heq, _⟩
    cases heq
  · rw [isRead_items_iff]
    constructor
    · exact fun hall => ⟨x, xs, rfl, hall⟩
    · rintro ⟨x', xs', heq, hall⟩
      cases heq
      exact hall
  · refine iff_of_false (not_isRead_rows bounds r rs) ?_
    rintro ⟨x, xs, heq, _⟩
    cases heq

/-- **What is sent and what is read**: no vector comes back as it was sent; and the literal of an
array is read as its elements iff it has one dimension and all its elements are written as they
are. -/
theorem parse_returns_iff (v : List Bytes) (a : TextArray) :
    ¬ ComesBack v ∧ (IsRead a ↔ a.Plain) :=
  ⟨not_comesBack v, isRead_iff a⟩

example : parseArray [] [123, 97, 44, 98, 125] = .ok [[97], [98]] := by decide

/-- The element `a` comes back with its quotes, and the array without elements with one. -/
theorem not_parse_returns :
    (bind [[97]]).map Buffer.bytes = some [123, 34, 97, 34, 125] ∧
      parseArray [] [123, 34, 97, 34, 125] = .ok [[34, 97, 34]] ∧
      parseArray [] (TextArray.out ⟨[], none⟩) = .ok [[]] ∧
      ¬ ((∀ v, ComesBack v) ∧ ∀ a, IsRead a) := by
  refine ⟨by decide, by decide, by decide, fun hall => ?_⟩
  obtain ⟨b, hb, hparse⟩ := hall.1 [[97]]
  rw [bind_bytes hb] at hparse
  exact absurd hparse (by decide)

end PgArrays
end Suil
