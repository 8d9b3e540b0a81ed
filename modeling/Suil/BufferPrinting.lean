/-
Text printed to a buffer.

`Buffer::appendf` prints to an array of 2048 bytes, and appends as many bytes of it as the
whole text would have.  `Buffer::appendnf` prints to the room that is left, where the zero
byte behind the text takes the place of its last byte when there is no other.

* `terminated_iff` — when a text that is cut for its zero byte is still there;
* `ahead_iff` — what was written is the text, and the offset moves behind it;
* `Valid.appendf_exact_iff`, `Valid.appendnf_exact_iff` — when a call appends the text and
  returns its length, or throws and leaves the buffer;
* `prints_iff` — both.
-/
import Suil.Base64Reading

namespace Suil.HeapBuffer

/-- What a call returns and leaves, or throws and leaves. -/
inductive Written where
  | returned (n : ℕ) (b : HeapBuffer)
  | thrown (b : HeapBuffer)
  | undefined

def Outcome.returning (n : ℕ) : Outcome → Written
  | .done b => .returned n b
  | .thrown b => .thrown b
  | .undefined => .undefined

/-- `append(data, len)`, with the memory at `data`. -/
def appendFrom (b : HeapBuffer) (src : Bytes) (len : ℕ) (a : Alloc) : Outcome :=
  (if b.room < len then b.grow (max b.m_size (len % 2 ^ 32)) a else .done b).andThen fun b =>
    if src.length < len then .undefined
    else
      match b.write (src.take len) with
      | none => .undefined
      | some b => .done (b.ahead len)

/-- The array `sb` behind `vsnprintf`, as far as it is written. -/
def sb (d : Bytes) : Bytes := d.take 2047 ++ [0]

/-- `appendf` and `appendv`; without a text `vsnprintf` fails. -/
def appendf (b : HeapBuffer) (text : Option Text) (a : Alloc) : Written :=
  match text with
  | none => .thrown b
  | some d => (b.appendFrom (sb d.val) d.val.length a).returning d.val.length

/-- `appendnf` -/
def appendnf (b : HeapBuffer) (hint : UInt32) (text : Option Text) (a : Alloc) : Written :=
  (b.appendnv hint.toNat text a).returning ((text.map fun d => d.val.length).getD 0)

/-- The text is appended and its length returned; or nothing has changed before the offset. -/
def Written.Exact (b : HeapBuffer) (text : Option Text) : Written → Prop
  | .returned n b' => ∃ d ∈ text, n = d.val.length ∧ b'.m_offset = b.m_offset + d.val.length ∧
      b'.bytes = b.bytes ++ d.val
  | .thrown b' => b'.m_offset = b.m_offset ∧ b'.bytes = b.bytes
  | .undefined => False

/-- The array has all of the text, which fits the memory; or a growth is refused that has nothing
to lose. -/
def Copyable (b : HeapBuffer) (text : Option Text) (a : Alloc) : Prop :=
  ∀ d ∈ text,
    let want := max b.m_size d.val.length
    if b.room < d.val.length ∧ b.Refused want a then b.m_offset = 0
    else b.m_offset + d.val.length ≤ b.heldGrown d.val.length want ∧
      b.m_offset + d.val.length < 2 ^ 32 ∧
      (d.val.length < 2048 ∨ d.val.length = 2048 ∧ d.val.getLast? = some 0)

/-- What is printed is within the memory; and the text ends behind the size, so that the call
throws, or before it, or there with a zero byte of its own. -/
def Printable (b : HeapBuffer) (hint : ℕ) (text : Option Text) (a : Alloc) : Prop :=
  let want := max b.m_size hint
  if b.room < hint ∧ b.Refused want a then b.m_offset = 0
  else ∀ d ∈ text,
    let after := { b with m_size := b.sizeGrown hint want }
    b.m_offset + (after.cut d.val).length ≤ b.heldGrown hint want ∧
      (after.m_size < (d.val.length + b.m_offset) % 2 ^ 32 ∨
        b.m_offset + d.val.length < 2 ^ 32 ∧
          (b.m_offset + d.val.length < after.m_size ∨ d.val = [] ∨ d.val.getLast? = some 0))

variable {b b' b'' : HeapBuffer} {d e : Bytes} {n size : ℕ}

/-- All of the memory is appended. -/
theorem append_eq (b : HeapBuffer) (d : Bytes) (a : Alloc) :
    b.append (some d) a = b.appendFrom d d.length a := by
  rw [append, appendFrom, List.take_length]
  exact congrArg (Outcome.andThen _) (funext fun b => (if_neg (lt_irrefl d.length)).symm)

/-- **A text with a zero byte behind it**, in `n` bytes, is there when it is shorter, or ends in a
zero byte itself. -/
theorem terminated_iff (hn : 0 < n) (hle : d.length ≤ n) :
    (d.take (n - 1) ++ [0]).take d.length = d ↔ d.length < n ∨ d.getLast? = some 0 := by
  rcases hle.lt_or_eq with hlt | heq
  · refine iff_of_true ?_ (.inl hlt)
    rw [List.take_of_length_le (show d.length ≤ n - 1 by omega), List.take_left]
  · have hne : d ≠ [] := by
      rintro rfl
      exact absurd heq hn.ne
    have hlen : (d.dropLast ++ [0]).length ≤ d.length := by
      rw [List.length_append, List.length_dropLast, List.length_singleton]
      omega
    rw [or_iff_right (by omega), ← heq, ← List.dropLast_eq_take, List.take_of_length_le hlen,
      List.getLast?_eq_some_getLast hne, Option.some_inj]
    constructor
    · intro h
      have hsplit := List.dropLast_append_getLast hne
      have hlast := List.append_cancel_left (h.trans hsplit.symm)
      exact (List.cons.inj hlast).1.symm
    · intro h
      rw [← h, List.dropLast_append_getLast hne]

/-- A growth leaves the memory before the offset. -/
theorem Grew.offset_le_length (hgrew : Grew b b' size) (h : b.Valid) :
    b'.m_offset ≤ b'.memory.length := by
  have hlen := congrArg List.length hgrew.bytes_eq
  rw [h.length_bytes, bytes, List.length_take, hgrew.offset_eq] at hlen
  rw [hgrew.offset_eq]
  omega

theorem write_none (hoffset : b.m_offset ≤ b.memory.length)
    (hover : b.memory.length < b.m_offset + e.length) : b.write e = none := by
  have hne : e ≠ [] := by
    rintro rfl
    exact absurd hover (not_lt.mpr hoffset)
  rw [write, if_neg hne, if_neg (not_le.mpr hover)]

/-- **What is written** from the offset on is the text, and the offset moves behind it. -/
theorem ahead_iff (hgrew : Grew b b' size) (h : b.Valid)
    (hfits : b'.m_offset + e.length ≤ b'.memory.length) (hle : d.length ≤ e.length)
    (hwrite : b'.write e = some b'') :
    ((b''.ahead d.length).m_offset = b.m_offset + d.length ∧
        (b''.ahead d.length).bytes = b.bytes ++ d) ↔
      b.m_offset + d.length < 2 ^ 32 ∧ e.take d.length = d := by
  obtain ⟨mem, hsome, -, -, htake, -⟩ := write_eq hfits
  obtain rfl := Option.some.inj (hsome.symm.trans hwrite)
  rw [hgrew.bytes_eq, hgrew.offset_eq] at htake
  have hoffset : (({ b' with data := mem } : HeapBuffer).ahead d.length).m_offset =
      (b.m_offset + d.length) % 2 ^ 32 := by
    rw [ahead, hgrew.offset_eq]
  have hbytes : (mem.getD []).take (b.m_offset + d.length) = b.bytes ++ e.take d.length := by
    have hcut := congrArg (List.take (b.m_offset + d.length)) htake
    rw [List.take_take, min_eq_left (by omega), ← h.length_bytes, List.take_length_add_append,
      h.length_bytes] at hcut
    exact hcut
  rw [hoffset]
  have hmod : (b.m_offset + d.length) % 2 ^ 32 = b.m_offset + d.length ↔
      b.m_offset + d.length < 2 ^ 32 := by omega
  rw [hmod]
  refine and_congr_right fun hlt => ?_
  have hall : (({ b' with data := mem } : HeapBuffer).ahead d.length).bytes =
      b.bytes ++ e.take d.length := by
    rw [bytes, hoffset, Nat.mod_eq_of_lt hlt]
    exact hbytes
  rw [hall, List.append_cancel_left_eq]

/-- A growth that is refused takes the memory with it. -/
theorem Valid.refused_exact_iff (h : b.Valid) (text : Option Text) :
    (Written.thrown { b with data := none }).Exact b text ↔ b.m_offset = 0 := by
  have hnone : ({ b with data := none } : HeapBuffer).bytes = [] := by
    rw [bytes, memory]
    exact List.take_nil
  show _ ∧ ({ b with data := none } : HeapBuffer).bytes = b.bytes ↔ _
  rw [and_iff_right rfl, hnone, eq_comm, ← List.length_eq_zero_iff, h.length_bytes]

theorem returned_exact_iff (d : Text) : (Written.returned d.val.length b').Exact b (some d) ↔
    b'.m_offset = b.m_offset + d.val.length ∧ b'.bytes = b.bytes ++ d.val := by
  constructor
  · rintro ⟨d', hd', -, hoffset, hbytes⟩
    obtain rfl := Option.some.inj hd'
    exact ⟨hoffset, hbytes⟩
  · exact fun h => ⟨d, rfl, rfl, h⟩

/-- **`appendf`** appends the text when the array has all of it. -/
theorem Valid.appendf_exact_iff (h : b.Valid) (text : Option Text) (a : Alloc) :
    (b.appendf text a).Exact b text ↔ b.Copyable text a := by
  cases text with
  | none =>
    refine iff_of_true ⟨rfl, rfl⟩ ?_
    intro d hd
    cases hd
  | some d =>
    have hd := d.property
    have hmod : d.val.length % 2 ^ 32 = d.val.length := Nat.mod_eq_of_lt (by omega)
    have hsb : (sb d.val).length < d.val.length ↔ 2048 < d.val.length := by
      rw [sb, List.length_append, List.length_take, List.length_singleton]
      omega
    have hcopyable : b.Copyable (some d) a ↔
        if b.room < d.val.length ∧ b.Refused (max b.m_size d.val.length) a then b.m_offset = 0
        else b.m_offset + d.val.length ≤ b.heldGrown d.val.length (max b.m_size d.val.length) ∧
          b.m_offset + d.val.length < 2 ^ 32 ∧
          (d.val.length < 2048 ∨ d.val.length = 2048 ∧ d.val.getLast? = some 0) := by
      simp only [Copyable, Option.mem_some_iff, forall_eq']
    rw [hcopyable, appendf, appendFrom, hmod]
    rcases @Valid.grows_eq b h d.val.length (max b.m_size d.val.length) (fun hroom => by omega) a
      with ⟨hrefused, hgrow⟩ | ⟨hrefused, b', hgrow, hgrew, hheld⟩
    · rw [hgrow, if_pos hrefused]
      exact h.refused_exact_iff (some d)
    · rw [hgrow, if_neg hrefused, ← hheld]
      show (Outcome.returning _ (if _ then _ else _)).Exact b (some d) ↔ _
      -- the array holds 2048 bytes, the last of which is the zero byte
      by_cases hlong : 2048 < d.val.length
      · rw [if_pos (hsb.mpr hlong)]
        exact iff_of_false (fun hexact => hexact) (by omega)
      · have htake : ((sb d.val).take d.val.length).length = d.val.length :=
          List.length_take_of_le (not_lt.mp (mt hsb.mp hlong))
        rw [if_neg (mt hsb.mp hlong)]
        by_cases hfits : b'.m_offset + ((sb d.val).take d.val.length).length ≤ b'.memory.length
        · obtain ⟨mem, hwrite, -⟩ := write_eq hfits
          have hiff := ahead_iff (d := d.val) hgrew h hfits htake.ge hwrite
          have hsame : ((sb d.val).take d.val.length).take d.val.length = d.val ↔
              d.val.length < 2048 ∨ d.val.length = 2048 ∧ d.val.getLast? = some 0 := by
            rw [List.take_take, min_self, sb, terminated_iff (n := 2048) (by decide) (by omega)]
            exact or_congr_right' fun hnot =>
              (and_iff_right (show d.val.length = 2048 by omega)).symm
          rw [htake, hgrew.offset_eq] at hfits
          rw [hwrite, and_iff_right hfits, ← hsame, ← hiff]
          exact returned_exact_iff d
        · rw [write_none (hgrew.offset_le_length h) (not_le.mp hfits)]
          rw [htake, hgrew.offset_eq] at hfits
          exact iff_of_false (fun hexact => hexact) fun hand => hfits hand.1

/-- What is printed to the room is the text, when there is room for it. -/
theorem cut_exact_iff (hle : d.length ≤ b.room) : d.length ≤ (b.cut d).length ∧
    ((b.cut d).take d.length = d ↔ d.length < b.room ∨ d = [] ∨ d.getLast? = some 0) := by
  rw [cut]
  by_cases hroom : b.room = 0
  · obtain rfl : d = [] := List.length_eq_zero_iff.mp (by omega)
    rw [if_pos hroom]
    exact ⟨le_rfl, iff_of_true rfl (.inr (.inl rfl))⟩
  · rw [if_neg hroom, terminated_iff (by omega) hle, List.length_append, List.length_take,
      List.length_singleton]
    refine ⟨by omega, or_congr_right' fun hnot => ?_⟩
    have hne : d ≠ [] := by
      rintro rfl
      exact hnot (Nat.pos_of_ne_zero hroom)
    rw [or_iff_right hne]

/-- **`appendnf`** appends the text when the room that is left has all of it. -/
theorem Valid.appendnf_exact_iff (h : b.Valid) (hint : UInt32) (text : Option Text) (a : Alloc) :
    (b.appendnf hint text a).Exact b text ↔ b.Printable hint.toNat text a := by
  rw [appendnf, appendnv, Printable]
  dsimp only
  rcases @Valid.grows_eq b h hint.toNat (max b.m_size hint.toNat) (fun hroom => by omega) a with
    ⟨hrefused, hgrow⟩ | ⟨hrefused, b', hgrow, hgrew, hheld⟩
  · rw [hgrow, if_pos hrefused]
    exact h.refused_exact_iff text
  rw [hgrow, if_neg hrefused, ← hheld, ← hgrew.size_eq]
  show (Outcome.returning _ (b'.print text)).Exact b text ↔ _
  cases text with
  | none =>
    refine iff_of_true ⟨hgrew.offset_eq, hgrew.bytes_eq⟩ ?_
    intro d hd
    cases hd
  | some d =>
    have hcut : ({ b with m_size := b'.m_size } : HeapBuffer).cut d.val = b'.cut d.val := by
      rw [cut, cut, room, room, hgrew.offset_eq]
    simp only [Option.mem_some_iff, forall_eq', hcut]
    rw [← hgrew.offset_eq]
    by_cases hfits : b'.m_offset + (b'.cut d.val).length ≤ b'.memory.length
    · obtain ⟨mem, hwrite, -⟩ := write_eq hfits
      rw [and_iff_right hfits, print, hwrite]
      dsimp only
      have hgrew' := hgrew.write hwrite
      by_cases hover : (d.val.length + b'.m_offset) % 2 ^ 32 > b'.m_size
      · rw [if_pos hover]
        exact iff_of_true ⟨hgrew'.offset_eq, hgrew'.bytes_eq⟩ (.inl hover)
      · rw [if_neg hover, or_iff_right hover]
        refine (returned_exact_iff d).trans ?_
        -- the length that is compared wraps around, the offset must not
        by_cases hlt : b'.m_offset + d.val.length < 2 ^ 32
        · have hin : b'.m_offset + d.val.length ≤ b'.m_size := by omega
          have hroom : b'.room = b'.m_size - b'.m_offset := if_pos (by omega)
          obtain ⟨hle, hsame⟩ := cut_exact_iff (b := b') (d := d.val) (by omega)
          have hbefore : d.val.length < b'.room ↔ b'.m_offset + d.val.length < b'.m_size := by omega
          rw [ahead_iff hgrew h hfits hle hwrite, hsame, hbefore, hgrew.offset_eq]
        · refine iff_of_false (fun hexact => ?_) fun hand => hlt hand.1
          have hoffset : (b'.m_offset + d.val.length) % 2 ^ 32 = b.m_offset + d.val.length :=
            hexact.1
          rw [hgrew.offset_eq] at hlt hoffset
          omega
    · rw [print, write_none (hgrew.offset_le_length h) (not_le.mp hfits)]
      exact iff_of_false (fun hexact => hexact) fun hand => hfits hand.1

/-- **The calls that print exactly.** -/
theorem prints_iff (h : b.Valid) (hint : UInt32) (text : Option Text) (a : Alloc) :
    ((b.appendf text a).Exact b text ↔ b.Copyable text a) ∧
      ((b.appendnf hint text a).Exact b text ↔ b.Printable hint.toNat text a) :=
  ⟨h.appendf_exact_iff text a, h.appendnf_exact_iff hint text a⟩

/-- A buffer of eight bytes. -/
def small : HeapBuffer := ⟨some (List.replicate 9 0), 8, 0⟩

theorem valid_small : small.Valid := ⟨by decide, by decide, by decide, .inr (by decide)⟩

theorem prints_small :
    small.Valid ∧ (small.appendf (some ⟨ascii "ab", by decide⟩) none).Exact small
        (some ⟨ascii "ab", by decide⟩) ∧
      (small.appendnf 4 (some ⟨ascii "ab", by decide⟩) none).Exact small
        (some ⟨ascii "ab", by decide⟩) := by
  have hiff := prints_iff valid_small 4 (some ⟨ascii "ab", by decide⟩) none
  refine ⟨valid_small, hiff.1.mpr ?_, hiff.2.mpr ?_⟩
  · rintro d ⟨⟩
    decide
  · have hroom : ¬ (small.room < (4 : UInt32).toNat ∧
        small.Refused (max small.m_size (4 : UInt32).toNat) none) := by decide
    rw [Printable, if_neg hroom]
    rintro d ⟨⟩
    decide

/-- A long text is read behind the array, where memory is not refused. -/
theorem not_exact_of_long {d : Text} (h : 2048 < d.val.length) (junk : ℕ → UInt8) :
    ¬ (null.appendf (some d) (some junk)).Exact null (some d) := by
  rw [valid_null.appendf_exact_iff]
  intro hcopy
  have hd := hcopy d rfl
  rw [if_neg fun hrefused => Bool.false_ne_true hrefused.2.2.2] at hd
  omega

/-- A text of 2049 bytes. -/
def tooLong : Text := ⟨List.replicate 2049 97, by rw [List.length_replicate]; decide⟩

/-- The long text is read behind the array.  A text that fills the room loses its last byte, and is
said to have been appended. -/
theorem not_prints :
    ¬ (null.appendf (some tooLong) (some fun _ => 0)).Exact null (some tooLong) ∧
      ¬ (small.appendnf 4 (some ⟨ascii "abcdefgh", by decide⟩) none).Exact small
        (some ⟨ascii "abcdefgh", by decide⟩) ∧
      small.appendnf 4 (some ⟨ascii "abcdefgh", by decide⟩) none =
        .returned 8 ⟨some (ascii "abcdefg" ++ [0, 0]), 8, 8⟩ := by
  have hreturned : small.appendnf 4 (some ⟨ascii "abcdefgh", by decide⟩) none =
      .returned 8 ⟨some (ascii "abcdefg" ++ [0, 0]), 8, 8⟩ := rfl
  refine ⟨not_exact_of_long ?_ _, fun h => ?_, hreturned⟩
  · rw [tooLong, List.length_replicate]
    decide
  · rw [hreturned] at h
    obtain ⟨d, hd, -, -, hbytes⟩ := h
    obtain rfl := Option.some.inj hd
    exact absurd hbytes (by decide)

end Suil.HeapBuffer
