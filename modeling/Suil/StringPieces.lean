/-
Pieces of a string.

`String::strip` lets two pointers run towards each other and stops neither of them at an end
of the string.  `String::substr` compares lengths without a sign, and `String::endswith` hands
it what is left of a difference below zero.

* `front_eq`, `back_eq` — where the pointers of `strip` stop;
* `strips_iff` — the strings that are stripped;
* `substr_right_iff`, `endswith_right_iff` — the pieces that `substr` returns, and the ends that
  `endswith` knows;
* `pieces_iff` — both.
-/
import Suil.Base64Reading
import Suil.Cookie
import Suil.StringKeys

namespace Suil.StringPieces

/-! ### `strip` -/

/-- `while (strip == *s) s++`; it is none when `s` leaves the string. -/
def front (c : UInt8) : Bytes → Option ℕ
  | [] => none
  | x :: xs => if c = x then (front c xs).map (· + 1) else some 0

/-- `while (strip == *e) e--` and `e++`, of the `e` that stands before so many bytes. -/
def back (s : Bytes) (c : UInt8) : ℕ → Option ℕ
  | 0 => none
  | n + 1 => if c = s.getD n 0 then back s c n else some (n + 1)

/-- The loop over the characters between them. -/
def sift (c : UInt8) : Bytes → HeapBuffer → ℕ → Option (HeapBuffer × ℕ)
  | [], b, p => some (b, p)
  | x :: xs, b, p =>
    if x = c then sift c xs b p
    else if p < b.memory.length then
      sift c xs { b with data := some (b.memory.set p x) } (p + 1)
    else none

/-- What is stored from the start of the buffer on, and how much. -/
def store (c : UInt8) (text : Bytes) (ends : Bool) (b : HeapBuffer) : Option (HeapBuffer × ℕ) :=
  if ends then (b.fill text).map (·, text.length) else sift c text b 0

/-- `b.seek(n)`, whose sum does not overflow, and `String(b)`. -/
def asString (b : HeapBuffer) (n : ℕ) : Call Unit Bytes :=
  match b.bseek (b.m_offset + n) with
  | .undefined => .error .crash
  | .thrown _ => .error (.raised ())
  | .done b =>
    match b.release with
    | none => .error .crash
    | some (p, _) => .ok ((p.getD []).take b.m_offset)

/-- `String::strip` -/
def strip (s : Bytes) (c : UInt8) (ends : Bool) (a : Alloc) : Call Unit Bytes :=
  match HeapBuffer.null.grow s.length a with
  | .undefined => .error .crash
  | .thrown _ => .error (.raised ())
  | .done b =>
    match front c s, back s c s.length with
    | some i, some e =>
      match store c ((s.take e).drop i) ends b with
      | none => .error .crash
      | some (b, n) => asString b n
    | _, _ => .error .crash

/-- The string without the characters; or without those at its ends. -/
def stripped (s : Bytes) (c : UInt8) (ends : Bool) : Bytes :=
  if ends then (s.dropWhile (· == c)).rdropWhile (· == c) else s.filter (· != c)

variable {s t u d mid lead tail xs : Bytes} {c x y : UInt8} {b b' : HeapBuffer} {n p : ℕ}

/-- The first pointer stops at the first other character. -/
theorem front_eq (hlead : ∀ x ∈ lead, x = c) (hx : x ≠ c) (t : Bytes) :
    front c (lead ++ x :: t) = some lead.length := by
  induction lead with
  | nil => exact if_neg hx.symm
  | cons z lead ih =>
    have hz : c = z := (hlead z List.mem_cons_self).symm
    rw [List.cons_append, front, if_pos hz, ih fun w hw => hlead w (List.mem_cons_of_mem z hw)]
    rfl

theorem front_none (h : ∀ x ∈ s, x = c) : front c s = none := by
  induction s with
  | nil => rfl
  | cons z s ih =>
    have hz : c = z := (h z List.mem_cons_self).symm
    rw [front, if_pos hz, ih fun w hw => h w (List.mem_cons_of_mem z hw)]
    rfl

/-- The other one stops at the last. -/
theorem back_eq (htail : ∀ x ∈ tail, x = c) (hy : y ≠ c) (u : Bytes) :
    back (u ++ [y] ++ tail) c (u ++ [y] ++ tail).length = some (u ++ [y]).length := by
  have hback : ∀ n ≤ tail.length,
      back (u ++ [y] ++ tail) c ((u ++ [y]).length + n) = some (u ++ [y]).length := by
    intro n hn
    induction n with
    | zero =>
      have hat : (u ++ [y] ++ tail).getD u.length 0 = y := by simp
      rw [Nat.add_zero, List.length_append, List.length_singleton, back, hat, if_neg hy.symm]
    | succ n ih =>
      have hat : (u ++ [y] ++ tail).getD ((u ++ [y]).length + n) 0 = tail[n] := by
        rw [List.getD_append_right _ _ _ _ (Nat.le_add_right _ _), Nat.add_sub_cancel_left,
          List.getD_eq_getElem _ _ hn]
      rw [← Nat.add_assoc, back, hat, if_pos (htail _ (List.getElem_mem _)).symm]
      exact ih (by omega)
  rw [@List.length_append _ (u ++ [y]) tail]
  exact hback tail.length le_rfl

theorem dropWhile_eq (hlead : ∀ x ∈ lead, x = c) (hx : x ≠ c) (t : Bytes) :
    (lead ++ x :: t).dropWhile (· == c) = x :: t := by
  rw [List.dropWhile_append_of_pos fun z hz => beq_iff_eq.mpr (hlead z hz),
    List.dropWhile_cons_of_neg (by simpa using hx)]

theorem rdropWhile_eq (htail : ∀ x ∈ tail, x = c) (hy : y ≠ c) (u : Bytes) :
    (u ++ [y] ++ tail).rdropWhile (· == c) = u ++ [y] := by
  have hrev : ∀ x ∈ tail.reverse, x = c := fun x hx => htail x (List.mem_reverse.mp hx)
  rw [List.rdropWhile, List.reverse_append, List.reverse_append, List.reverse_singleton,
    List.singleton_append, dropWhile_eq hrev hy, List.reverse_cons, List.reverse_reverse]

theorem exists_lead (h : ∃ x ∈ s, x ≠ c) :
    ∃ lead x t, s = lead ++ x :: t ∧ (∀ z ∈ lead, z = c) ∧ x ≠ c := by
  have hne : s.dropWhile (· == c) ≠ [] := by
    obtain ⟨x, hx, hxc⟩ := h
    rw [Ne, List.dropWhile_eq_nil_iff]
    exact fun hall => hxc (beq_iff_eq.mp (hall x hx))
  obtain ⟨x, t, ht⟩ := List.exists_cons_of_ne_nil hne
  refine ⟨s.takeWhile (· == c), x, t, ?_, fun z hz => ?_, ?_⟩
  · rw [← ht, List.takeWhile_append_dropWhile]
  · exact beq_iff_eq.mp (List.mem_takeWhile_imp (p := (· == c)) hz)
  · have hhead := List.head_dropWhile_not (· == c) hne
    simp only [ht, List.head_cons, beq_eq_false_iff_ne] at hhead
    exact hhead

/-- A string with another character has a first and a last one. -/
theorem exists_ends (h : ∃ x ∈ s, x ≠ c) :
    ∃ lead mid tail, s = lead ++ mid ++ tail ∧ (∀ x ∈ lead, x = c) ∧ (∀ x ∈ tail, x = c) ∧
      (∃ x t, mid = x :: t ∧ x ≠ c) ∧ ∃ u y, mid = u ++ [y] ∧ y ≠ c := by
  obtain ⟨lead, x, t, rfl, hlead, hx⟩ := exists_lead h
  have hrev : ∃ z ∈ (x :: t).reverse, z ≠ c := ⟨x, by simp, hx⟩
  obtain ⟨tail, y, u, heq, htail, hy⟩ := exists_lead hrev
  have hsplit : x :: t = u.reverse ++ [y] ++ tail.reverse := by
    rw [← List.reverse_reverse (x :: t), heq]
    simp
  refine ⟨lead, u.reverse ++ [y], tail.reverse, ?_, hlead,
    fun z hz => htail z (List.mem_reverse.mp hz), ?_, u.reverse, y, rfl, hy⟩
  · rw [hsplit]
    simp only [List.append_assoc]
  · cases hu : u.reverse with
    | nil => exact ⟨y, [], rfl, hy⟩
    | cons z w =>
      rw [hu] at hsplit
      obtain rfl := (List.cons.inj hsplit).1
      exact ⟨x, w ++ [y], rfl, hx⟩

/-- What is stored one after the other, when it fits. -/
theorem sift_eq (c : UInt8) (xs : Bytes) (hp : p ≤ b.memory.length) :
    let kept := xs.filter (· != c)
    (p + kept.length ≤ b.memory.length → ∃ b', sift c xs b p = some (b', p + kept.length) ∧
        b'.m_size = b.m_size ∧ b'.m_offset = b.m_offset ∧
        b'.memory = b.memory.take p ++ kept ++ b.memory.drop (p + kept.length)) ∧
      ∀ b' n, sift c xs b p = some (b', n) →
        n = p + kept.length ∧ b'.m_size = b.m_size ∧ b'.m_offset = b.m_offset := by
  induction xs generalizing b p with
  | nil =>
    refine ⟨fun _ => ⟨b, rfl, rfl, rfl, ?_⟩, fun b' n h => ?_⟩
    · simp
    · cases h
      exact ⟨rfl, rfl, rfl⟩
  | cons x xs ih =>
    by_cases hx : x = c
    · have hkept : (x :: xs).filter (· != c) = xs.filter (· != c) :=
        List.filter_cons_of_neg (by simp [hx])
      rw [hkept, sift, if_pos hx]
      exact ih hp
    · have hkept : (x :: xs).filter (· != c) = x :: xs.filter (· != c) :=
        List.filter_cons_of_pos (by simp [hx])
      rw [hkept, sift, if_neg hx]
      dsimp only
      rw [List.length_cons]
      generalize hnext : ({ b with data := some (b.memory.set p x) } : HeapBuffer) = next
      have hmem : next.memory = b.memory.set p x := by rw [← hnext]; rfl
      have hlen : next.memory.length = b.memory.length := by rw [hmem, List.length_set]
      constructor
      · intro hfits
        rw [if_pos (by omega)]
        obtain ⟨b', hsift, hsize, hoffset, hmemory⟩ := (ih (b := next) (p := p + 1) (by omega)).1
          (by omega)
        refine ⟨b', ?_, ?_, ?_, ?_⟩
        · rw [hsift]
          congr 2
          omega
        · rw [hsize, ← hnext]
        · rw [hoffset, ← hnext]
        · have htake : (b.memory.set p x).take (p + 1) = b.memory.take p ++ [x] := by
            rw [List.take_add_one, List.take_set_of_le le_rfl,
              List.getElem?_set_self (show p < b.memory.length by omega)]
            rfl
          have hdrop : (b.memory.set p x).drop (p + 1 + (xs.filter (· != c)).length) =
              b.memory.drop (p + ((xs.filter (· != c)).length + 1)) := by
            rw [List.drop_set_of_lt (by omega)]
            congr 1
            omega
          rw [hmemory, hmem, htake, hdrop, List.append_assoc (b.memory.take p),
            List.singleton_append]
      · intro b' n h
        split_ifs at h with hin
        obtain ⟨rfl, hsize, hoffset⟩ := (ih (b := next) (p := p + 1) (by omega)).2 b' n h
        exact ⟨by omega, by rw [hsize, ← hnext], by rw [hoffset, ← hnext]⟩

/-- The characters that are stored, of a text. -/
def kept (c : UInt8) (text : Bytes) (ends : Bool) : Bytes :=
  if ends then text else text.filter (· != c)

theorem store_of_fits (ends : Bool) (hfits : (kept c u ends).length ≤ b.memory.length) :
    ∃ b', store c u ends b = some (b', (kept c u ends).length) ∧ b'.m_size = b.m_size ∧
      b'.m_offset = b.m_offset ∧
      b'.memory = kept c u ends ++ b.memory.drop (kept c u ends).length := by
  cases ends with
  | true =>
    obtain ⟨b', hfill, hsize, hoffset, hmemory⟩ := HeapBuffer.fill_eq (d := u) hfits
    refine ⟨b', ?_, hsize, hoffset, hmemory⟩
    rw [store, if_pos rfl, hfill]
    rfl
  | false =>
    have hsift := (sift_eq c u (b := b) (Nat.zero_le _)).1
    simp only [Nat.zero_add, List.take_zero, List.nil_append] at hsift
    exact hsift hfits

theorem of_store {ends : Bool} (h : store c u ends b = some (b', n)) :
    n = (kept c u ends).length ∧ b'.m_size = b.m_size ∧ b'.m_offset = b.m_offset := by
  cases ends with
  | true =>
    obtain ⟨b'', hfill, heq⟩ := Option.map_eq_some_iff.mp h
    cases heq
    have hfits : u.length ≤ b.memory.length := by
      by_contra hover
      rw [HeapBuffer.fill_of_lt (not_le.mp hover)] at hfill
      cases hfill
    obtain ⟨b'', hfill', hsize, hoffset, -⟩ := HeapBuffer.fill_eq (d := u) hfits
    obtain rfl := Option.some.inj (hfill.symm.trans hfill')
    exact ⟨rfl, hsize, hoffset⟩
  | false =>
    have hsift := (sift_eq c u (b := b) (Nat.zero_le _)).2 b' n h
    rwa [Nat.zero_add] at hsift

theorem bseek_eq (hoffset : b.m_offset = 0) (n : ℕ) :
    b.bseek (b.m_offset + n) =
      if n ≤ b.m_size then .done { b with m_offset := n } else .thrown b := by
  have hsum : (b.m_offset : ℤ) + n = n := by omega
  rw [hsum, HeapBuffer.bseek]
  refine if_congr ?_ ?_ rfl
  · omega
  · rw [Int.toNat_natCast]

/-- The text that is stored becomes the string, when the offset may stand behind it. -/
theorem asString_eq (hoffset : b.m_offset = 0) (hmemory : b.memory = d ++ t) (ht : t ≠ [])
    (hsize : d.length ≤ b.m_size) : asString b d.length = .ok d := by
  have hin : d.length < b.memory.length := by
    have hpos := List.length_pos_of_ne_nil ht
    rw [hmemory, List.length_append]
    omega
  cases hdata : b.data with
  | none =>
    rw [HeapBuffer.memory, hdata] at hin
    exact absurd hin (Nat.not_lt_zero _)
  | some mem =>
    have hmem : b.memory = mem := by
      rw [HeapBuffer.memory, hdata]
      rfl
    rw [hmem] at hin hmemory
    rw [asString, bseek_eq hoffset, if_pos hsize]
    simp only [HeapBuffer.release, hdata, if_pos hin, Option.getD_some]
    rw [hmemory, List.take_set_of_le le_rfl, List.take_left]

theorem asString_of_lt (hoffset : b.m_offset = 0) (hsize : b.m_size < n) :
    asString b n = .error (.raised ()) := by
  rw [asString, bseek_eq hoffset, if_neg (not_le.mpr hsize)]

/-- A buffer for a string that is not empty. -/
theorem exists_grow {n : ℕ} (hn : n ≠ 0) (junk : ℕ → UInt8) :
    ∃ b, HeapBuffer.null.grow n (some junk) = .done b ∧ b.m_size = aligned n % 2 ^ 32 ∧
      b.m_offset = 0 ∧ b.memory.length = aligned n % 2 ^ 32 + 1 := by
  have hgrown : HeapBuffer.null.grown n = aligned n % 2 ^ 32 := by
    rw [HeapBuffer.grown, HeapBuffer.null, Nat.zero_add, Nat.mod_mod]
  rcases HeapBuffer.valid_null.grow_eq n (some junk) with ⟨hrefused, -⟩ | ⟨-, b, hgrow, hgrew⟩
  · exact absurd hrefused.2.2 Bool.false_ne_true
  · have hlen := HeapBuffer.valid_null.length_of_grow hn hgrow
    have hlt : HeapBuffer.null.m_size + aligned n % 2 ^ 32 < 2 ^ 32 := by
      rw [HeapBuffer.null, Nat.zero_add]
      exact Nat.mod_lt _ (by decide)
    rw [if_pos hlt, hgrown] at hlen
    exact ⟨b, hgrow, hgrew.size_eq.trans hgrown, hgrew.offset_eq, hlen⟩

/-- Two pointers that stop have the string without its ends between them. -/
theorem exists_pointers (h : ∃ x ∈ s, x ≠ c) :
    ∃ i e, front c s = some i ∧ back s c s.length = some e ∧
      (∀ ends, kept c ((s.take e).drop i) ends = stripped s c ends) ∧
      ∀ ends, 0 < (stripped s c ends).length ∧ (stripped s c ends).length ≤ s.length := by
  obtain ⟨lead, mid, tail, rfl, hlead, htail, ⟨x, t, hx, hxc⟩, u, y, hy, hyc⟩ := exists_ends h
  have hmid : ((lead ++ mid ++ tail).take (lead ++ mid).length).drop lead.length = mid := by
    rw [List.take_left, List.drop_left]
  have hkept : ∀ ends, kept c mid ends = stripped (lead ++ mid ++ tail) c ends := by
    intro ends
    rw [kept, stripped]
    refine if_congr Iff.rfl ?_ ?_
    · have htrim : (mid ++ tail).rdropWhile (· == c) = mid := by
        rw [hy]
        exact rdropWhile_eq htail hyc u
      have hdrop : (lead ++ mid ++ tail).dropWhile (· == c) = mid ++ tail := by
        rw [hx, List.append_assoc, List.cons_append]
        exact dropWhile_eq hlead hxc _
      rw [hdrop, htrim]
    · have hnone : ∀ l : Bytes, (∀ x ∈ l, x = c) → l.filter (· != c) = [] := by
        intro l hl
        rw [List.filter_eq_nil_iff]
        intro z hz
        simpa using hl z hz
      rw [List.filter_append, List.filter_append, hnone lead hlead, hnone tail htail,
        List.nil_append, List.append_nil]
  refine ⟨lead.length, (lead ++ mid).length, ?_, ?_, fun ends => by rw [hmid, hkept],
    fun ends => ?_⟩
  · rw [hx, List.append_assoc, List.cons_append]
    exact front_eq hlead hxc _
  · have hback := back_eq htail hyc (lead ++ u)
    rwa [List.append_assoc lead u, ← hy] at hback
  · -- the first other character is kept
    have hin : x ∈ kept c mid ends := by
      rw [kept, hx]
      split_ifs
      · exact List.mem_cons_self
      · exact List.mem_filter.mpr ⟨List.mem_cons_self, by simpa using hxc⟩
    have hle : (kept c mid ends).length ≤ mid.length := by
      rw [kept]
      split_ifs
      · exact le_rfl
      · exact List.length_filter_le _ _
    rw [← hkept, List.length_append, List.length_append]
    exact ⟨List.length_pos_of_mem hin, by omega⟩

/-- **The strings that are stripped** of a character: those that have another one. -/
theorem strips_iff (hlen : s.length < 2 ^ 32) (c : UInt8) (ends : Bool) :
    (∀ junk, strip s c ends (some junk) = .ok (stripped s c ends)) ↔
      (∃ x ∈ s, x ≠ c) ∧ s.length ≤ 2 ^ 32 - 8 := by
  by_cases hother : ∃ x ∈ s, x ≠ c
  · rw [and_iff_right hother]
    obtain ⟨i, e, hfront, hback, hkept, hlength⟩ := exists_pointers hother
    have hne : s.length ≠ 0 := by
      have h := hlength ends
      omega
    have hle := le_aligned s.length
    have halign : aligned s.length = (s.length + 7) / 8 * 8 := rfl
    constructor
    · intro hall
      by_contra hlong
      -- the size wraps around, and the offset does not get behind it
      obtain ⟨b, hgrow, hsize, hoffset, -⟩ := exists_grow hne fun _ => 0
      have h := hall fun _ => 0
      rw [strip, hgrow, hfront, hback] at h
      dsimp only at h
      cases hstore : store c ((s.take e).drop i) ends b with
      | none =>
        rw [hstore] at h
        cases h
      | some stored =>
        obtain ⟨b', n⟩ := stored
        obtain ⟨hn, hsize', hoffset'⟩ := of_store hstore
        rw [hkept] at hn
        have hpos := (hlength ends).1
        rw [hstore] at h
        dsimp only at h
        rw [asString_of_lt (by rw [hoffset', hoffset]) (by omega)] at h
        cases h
    · intro hshort junk
      obtain ⟨b, hgrow, hsize, hoffset, hmem⟩ := exists_grow hne junk
      have hmod : aligned s.length % 2 ^ 32 = aligned s.length := Nat.mod_eq_of_lt (by omega)
      obtain ⟨-, hmax⟩ := hlength ends
      have hfits : (kept c ((s.take e).drop i) ends).length ≤ b.memory.length := by
        rw [hkept]
        omega
      obtain ⟨b', hstore, hsize', hoffset', hmemory⟩ := store_of_fits ends hfits
      rw [hkept] at hstore hmemory
      rw [strip, hgrow, hfront, hback]
      dsimp only
      rw [hstore]
      refine asString_eq (by rw [hoffset', hoffset]) hmemory (fun hnil => ?_) (by omega)
      have hover := List.drop_eq_nil_iff.mp hnil
      omega
  · -- the first pointer does not stop in the string
    refine iff_of_false (fun hall => ?_) fun h => hother h.1
    have hnone : front c s = none := front_none fun x hx => by
      by_contra hne
      exact hother ⟨x, hx, hne⟩
    have h := hall fun _ => 0
    rw [strip, hnone] at h
    split at h <;> cases h

/-- Then it is what a cookie's attributes are stripped with. -/
theorem cookies_strip (h : ∃ x ∈ s, x ≠ c) : Cookies.strip s c = some (stripped s c true) := by
  refine if_neg fun hall => ?_
  obtain ⟨x, hx, hxc⟩ := h
  exact hxc (beq_iff_eq.mp (List.all_eq_true.mp hall x hx))

theorem strips_spaces :
    (ascii " a b ").length < 2 ^ 32 ∧ ∀ junk, strip (ascii " a b ") 32 true (some junk) =
      .ok (ascii "a b") :=
  ⟨by decide, (strips_iff (by decide) 32 true).mpr ⟨⟨97, by decide⟩, by decide⟩⟩

/-- A string of spaces, and an empty one, are read behind their end. -/
theorem not_strips :
    ¬ (∀ junk, strip (ascii "  ") 32 true (some junk) = .ok (stripped (ascii "  ") 32 true)) ∧
      strip [] 32 false (some fun _ => 0) = .error .crash := by
  refine ⟨fun hall => ?_, rfl⟩
  have hcrash : strip (ascii "  ") 32 true (some fun _ => 0) = .error .crash := rfl
  cases hcrash.symm.trans (hall fun _ => 0)

/-! ### `substr` and `endswith` -/

/-- A `String` that stands for bytes of another, or has a copy of them. -/
structure Piece where
  bytes : Bytes
  own : Bool
deriving DecidableEq

/-- `String::substr`, with lengths of 64 bits without a sign; it is none when the piece has bytes
that are not the string's. -/
def substr (s : Bytes) (start nchars : ℕ) (zc : Bool) : Option Piece :=
  let fits := (s.length + 2 ^ 64 - start) % 2 ^ 64
  let nchars := if nchars = 0 then fits else nchars
  if nchars ≠ 0 ∧ nchars ≤ fits then
    let len := nchars % 2 ^ 32
    if len = 0 then some ⟨[], false⟩
    else if start + len ≤ s.length then some ⟨(s.drop start).take len, !zc⟩
    else none
  else some ⟨[], false⟩

/-- `String::endswith`; the case is not looked at. -/
def endswith (s : Bytes) (part : Option Bytes) (_igc : Bool) : Option Bool :=
  match part with
  | none => some false
  | some part =>
    let tmp := part.take (part.length % 2 ^ 32)
    (substr s ((s.length + 2 ^ 64 - tmp.length) % 2 ^ 64) 0 true).map fun piece =>
      strEq piece.bytes tmp

/-- The bytes from a start on: so many, or all of them; nothing when they do not fit. -/
def pieceAt (s : Bytes) (start count : ℕ) : Bytes :=
  if count = 0 then s.drop start
  else if start + count ≤ s.length then (s.drop start).take count
  else []

/-- A string that ends with another; or that does but for the case. -/
def EndsIn (s p : Bytes) (igc : Bool) : Prop :=
  if igc then p.map lower <:+ s.map lower else p <:+ s

instance (s p : Bytes) (igc : Bool) : Decidable (EndsIn s p igc) :=
  inferInstanceAs (Decidable (if igc then _ else _))

def SubstrRight (s : Bytes) (start count : ℕ) (zc : Bool) : Prop :=
  (substr s start count zc).map Piece.bytes = some (pieceAt s start count)

def EndsRight (s : Bytes) (part : Option Bytes) (igc : Bool) : Prop :=
  endswith s part igc = some (part.any fun p => decide (EndsIn s p igc))

/-- The start is in the string; or the length that comes of it is, in 32 bits, zero; or it does not
fit what the difference below zero says. -/
def Startable (s : Bytes) (start count : ℕ) : Prop :=
  start ≤ s.length ∨
    let n := if count = 0 then 2 ^ 64 + s.length - start else count
    n % 2 ^ 32 = 0 ∨ 2 ^ 64 + s.length < start + n

/-- The end, of a length in 32 bits, is not longer than the string, and the case does not matter. -/
def Endable (s : Bytes) (part : Option Bytes) (igc : Bool) : Prop :=
  ∀ p ∈ part,
    let tmp := p.take (p.length % 2 ^ 32)
    tmp.length ≤ s.length ∧ (tmp <:+ s ↔ EndsIn s p igc)

/-- Of a string that it begins in, the piece is what other modules take for it. -/
theorem pieceAt_eq {start : ℕ} (hstart : start ≤ s.length) (count : ℕ) :
    pieceAt s start count = Suil.substr s start count := by
  rw [pieceAt]
  by_cases hcount : count = 0
  · rw [if_pos hcount, hcount, Suil.substr_rest]
  · rw [Suil.substr]
    simp only [if_neg hcount]
    exact if_congr ⟨fun hle => ⟨hcount, by omega⟩, fun hand => by omega⟩ rfl rfl

/-- Within the string the piece is the right one. -/
theorem substr_within {start count : ℕ} (hlen : s.length < 2 ^ 32) (hstart : start ≤ s.length)
    (zc : Bool) : SubstrRight s start count zc := by
  have hfits : (s.length + 2 ^ 64 - start) % 2 ^ 64 = s.length - start := by omega
  rw [SubstrRight, substr, pieceAt]
  dsimp only
  rw [hfits]
  by_cases hcount : count = 0
  · rw [if_pos hcount, if_pos hcount]
    by_cases hrest : s.length - start = 0
    · rw [if_neg fun hand => hand.1 hrest, List.drop_eq_nil_of_le (by omega)]
      rfl
    · have hmod : (s.length - start) % 2 ^ 32 = s.length - start := Nat.mod_eq_of_lt (by omega)
      rw [if_pos ⟨hrest, le_rfl⟩, hmod, if_neg hrest, if_pos (by omega), Option.map_some,
        ← List.length_drop, List.take_length]
  · rw [if_neg hcount, if_neg hcount]
    by_cases hin : start + count ≤ s.length
    · have hmod : count % 2 ^ 32 = count := Nat.mod_eq_of_lt (by omega)
      rw [if_pos ⟨hcount, by omega⟩, hmod, if_neg hcount, if_pos hin, if_pos hin]
      rfl
    · rw [if_neg (by omega), if_neg hin]
      rfl

/-- A piece that is not copied. -/
theorem substr_view (hlen : s.length < 2 ^ 32) {start : ℕ} (hstart : start ≤ s.length)
    (count : ℕ) : substr s start count true =
      some ⟨pieceAt s start count, false⟩ := by
  have hright : SubstrRight s start count true := substr_within hlen hstart true
  rw [SubstrRight] at hright
  obtain ⟨p, hp, hbytes⟩ := Option.map_eq_some_iff.mp hright
  have hown : p.own = false := by
    rw [substr] at hp
    dsimp only at hp
    split_ifs at hp <;> exact (Option.some.inj hp) ▸ rfl
  obtain ⟨bytes, own⟩ := p
  rw [hp, ← hbytes]
  exact congrArg (fun o => some (Piece.mk bytes o)) hown

/-- **The pieces that `substr` returns.** -/
theorem substr_right_iff {start count : ℕ} (hlen : s.length < 2 ^ 32) (hstart : start < 2 ^ 64)
    (zc : Bool) : SubstrRight s start count zc ↔ Startable s start count := by
  by_cases hin : start ≤ s.length
  · exact iff_of_true (substr_within hlen hin zc) (.inl hin)
  have hfits : (s.length + 2 ^ 64 - start) % 2 ^ 64 = 2 ^ 64 + s.length - start := by omega
  have hpiece : pieceAt s start count = [] := by
    rw [pieceAt, List.drop_eq_nil_of_le (by omega), List.take_nil]
    split_ifs <;> rfl
  rw [SubstrRight, Startable, or_iff_right hin, hpiece, substr]
  dsimp only
  rw [hfits]
  generalize hn : (if count = 0 then 2 ^ 64 + s.length - start else count) = n
  have hpos : n ≠ 0 := by
    rw [← hn]
    split_ifs <;> omega
  by_cases hle : n ≤ 2 ^ 64 + s.length - start
  · rw [if_pos ⟨hpos, hle⟩, or_iff_left (by omega)]
    -- a piece behind the end is the right one only when its length is zero in 32 bits
    by_cases hzero : n % 2 ^ 32 = 0
    · rw [if_pos hzero]
      exact iff_of_true rfl hzero
    · rw [if_neg hzero, if_neg (by omega)]
      exact iff_of_false (by simp) hzero
  · rw [if_neg fun hand => hle hand.2]
    exact iff_of_true rfl (.inr (by omega))

theorem strEq_iff (h0 : 0 ∉ t) : strEq s t = true ↔ s = t := by
  rw [strEq]
  by_cases hnil : s = [] ∨ t = []
  · rw [if_pos hnil, Bool.and_eq_true, decide_eq_true_eq, decide_eq_true_eq]
    constructor
    · rintro ⟨rfl, rfl⟩
      rfl
    · rintro rfl
      exact ⟨hnil.elim id id, hnil.elim id id⟩
  · rw [if_neg hnil, Bool.and_eq_true, decide_eq_true_eq]
    constructor
    · rintro ⟨hlen, heq⟩
      rw [hlen, strncmpEq_iff (.inl h0) hlen.ge] at heq
      exact (heq.eq_of_length hlen.symm).symm
    · rintro rfl
      exact ⟨rfl, strncmpEq_self _ _⟩

/-- **The ends that `endswith` knows.** -/
theorem endswith_right_iff (hlen : s.length < 2 ^ 32) {part : Option Bytes}
    (h0 : ∀ p ∈ part, 0 ∉ p) (igc : Bool) : EndsRight s part igc ↔ Endable s part igc := by
  cases part with
  | none =>
    refine iff_of_true rfl ?_
    intro p hp
    cases hp
  | some p =>
    rw [EndsRight, Endable, endswith]
    simp only [Option.mem_some_iff, forall_eq', Option.any_some]
    generalize htmp : p.take (p.length % 2 ^ 32) = tmp
    have htmp0 : 0 ∉ tmp := by
      rw [← htmp]
      exact fun hmem => h0 p rfl (List.mem_of_mem_take hmem)
    have hlt : tmp.length < 2 ^ 32 := by
      rw [← htmp, List.length_take]
      exact (min_le_left _ _).trans_lt (Nat.mod_lt _ (by decide))
    by_cases hle : tmp.length ≤ s.length
    · have hstart : (s.length + 2 ^ 64 - tmp.length) % 2 ^ 64 = s.length - tmp.length := by omega
      have hright := @substr_within s (s.length - tmp.length) 0 hlen (Nat.sub_le _ _) true
      obtain ⟨piece, hpiece, hbytes⟩ := Option.map_eq_some_iff.mp hright
      have hrest : piece.bytes = s.drop (s.length - tmp.length) := hbytes
      rw [hstart, hpiece, and_iff_right hle, Option.map_some, Option.some_inj, hrest,
        Bool.eq_iff_iff, decide_eq_true_eq, strEq_iff htmp0, eq_comm, ← List.suffix_iff_eq_drop]
    · -- the piece begins before the string
      have hnone : substr s ((s.length + 2 ^ 64 - tmp.length) % 2 ^ 64) 0 true = none := by
        have hfits : (s.length + 2 ^ 64 - (s.length + 2 ^ 64 - tmp.length) % 2 ^ 64) % 2 ^ 64 =
            tmp.length := by omega
        rw [substr]
        dsimp only
        rw [hfits, if_pos rfl, if_pos ⟨by omega, le_rfl⟩, Nat.mod_eq_of_lt hlt, if_neg (by omega),
          if_neg (by omega)]
      rw [hnone]
      exact iff_of_false (by simp) fun h => hle h.1

/-- **The pieces and the ends** that are the string's. -/
theorem pieces_iff (hlen : s.length < 2 ^ 32) (start count : UInt64) (zc : Bool)
    (part : Option Bytes) (h0 : ∀ p ∈ part, 0 ∉ p) (igc : Bool) :
    (SubstrRight s start.toNat count.toNat zc ↔ Startable s start.toNat count.toNat) ∧
      (EndsRight s part igc ↔ Endable s part igc) :=
  ⟨substr_right_iff hlen start.toNat_lt zc, endswith_right_iff hlen h0 igc⟩

theorem pieces_middle :
    (ascii "abc").length < 2 ^ 32 ∧ (∀ p ∈ some (ascii "bc"), 0 ∉ p) ∧
      SubstrRight (ascii "abc") (1 : UInt64).toNat (1 : UInt64).toNat true ∧
      EndsRight (ascii "abc") (some (ascii "bc")) false := by
  have hiff := pieces_iff (s := ascii "abc") (by decide) 1 1 true (some (ascii "bc")) (by decide)
    false
  refine ⟨by decide, by decide, hiff.1.mpr (.inl (by decide)), hiff.2.mpr ?_⟩
  rintro p ⟨⟩
  exact ⟨by decide, Iff.rfl⟩

/-- From behind the end `substr` gives bytes that are not the string's; a longer end is compared
with what stands before the string, and the case is not ignored. -/
theorem not_pieces :
    ¬ SubstrRight (ascii "ab") (5 : UInt64).toNat (0 : UInt64).toNat true ∧
      ¬ EndsRight (ascii "b") (some (ascii "ab")) false ∧
      ¬ EndsRight (ascii "aB") (some (ascii "b")) true := by
  refine ⟨fun h => ?_, fun h => ?_, fun h => ?_⟩
  · rw [substr_right_iff (by decide) (5 : UInt64).toNat_lt] at h
    have hstart : (5 : UInt64).toNat = 5 := rfl
    have hcount : (0 : UInt64).toNat = 0 := rfl
    have hlen : (ascii "ab").length = 2 := rfl
    rw [Startable, hstart, hcount, if_pos rfl, hlen] at h
    omega
  · rw [endswith_right_iff (by decide) (by decide)] at h
    exact absurd (h _ rfl).1 (by decide)
  · rw [endswith_right_iff (by decide) (by decide)] at h
    exact absurd ((h _ rfl).2.mpr (by decide)) (by decide)

end Suil.StringPieces
