/-
The memory of the output buffer.

A `HeapBuffer` is a `Buffer` with all of the memory behind `m_data`, so that it is
told what a write leaves of the bytes that were there, and of a buffer whose
growth wraps around or gets no memory.

* `Valid.grow_eq` — what a growth does, in 32 bits;
* `Valid.append_right_iff`, `Valid.hex_right_iff`, `Valid.appendnv_right_iff`,
  `Valid.reset_right_iff` — when a call keeps the offset within the memory and the bytes before it,
  or throws and changes nothing;
* `allowed_append_iff` — for an append: when it fits, or its growth stays below 2^32;
* `run_keeps_iff` — the runs of which every call does.
-/
import Suil.Breadboard
import Suil.Buffer

open Runs

namespace Suil

/-- What the allocator answers: nothing, or what new memory holds. -/
abbrev Alloc := Option (ℕ → UInt8)

/-- `data` is the memory behind `m_data`, or a null pointer. -/
structure HeapBuffer where
  data : Option Bytes
  m_size : ℕ
  m_offset : ℕ
deriving DecidableEq

namespace HeapBuffer

def memory (b : HeapBuffer) : Bytes := b.data.getD []

/-- The bytes before the offset. -/
def bytes (b : HeapBuffer) : Bytes := b.memory.take b.m_offset

/-- `m_size - m_offset`, in 32 bits. -/
def room (b : HeapBuffer) : ℕ :=
  if b.m_offset ≤ b.m_size then b.m_size - b.m_offset else b.m_size + 2 ^ 32 - b.m_offset

/-- `Buffer()`. -/
def null : HeapBuffer := ⟨none, 0, 0⟩

/-- A call returns, throws, or leaves the memory; the first two leave a buffer. -/
inductive Outcome where
  | done (b : HeapBuffer)
  | thrown (b : HeapBuffer)
  | undefined

def Outcome.andThen : Outcome → (HeapBuffer → Outcome) → Outcome
  | .done b, k => k b
  | .thrown b, _ => .thrown b
  | .undefined, _ => .undefined

def reallocate (b : HeapBuffer) (ns : ℕ) (a : Alloc) : Option Bytes :=
  if ns = 0 then none
  else if b.m_size > ns then b.data
  else a.map fun junk => b.memory.take ns ++ (List.range (ns - b.memory.length)).map junk

def grow (b : HeapBuffer) (add : ℕ) (a : Alloc) : Outcome :=
  if add = 0 then .done b
  else
    let add := aligned add % 2 ^ 32
    match b.reallocate ((b.m_size + add + 1) % 2 ^ 32) a with
    | none => .thrown { b with data := none }
    | some mem => .done { b with data := some mem, m_size := (b.m_size + add) % 2 ^ 32 }

def reserve (b : HeapBuffer) (size : ℕ) (a : Alloc) : Outcome :=
  if b.room < size then b.grow (max b.m_size ((size - b.room) % 2 ^ 32)) a else .done b

/-- Bytes written at the offset, which stays; none when they are not within the memory. -/
def write (b : HeapBuffer) (d : Bytes) : Option HeapBuffer :=
  if d = [] then some b
  else if b.m_offset + d.length ≤ b.memory.length then
    some { b with
      data := some (b.memory.take b.m_offset ++ d ++ b.memory.drop (b.m_offset + d.length)) }
  else none

/-- `m_offset += n`. -/
def ahead (b : HeapBuffer) (n : ℕ) : HeapBuffer := { b with m_offset := (b.m_offset + n) % 2 ^ 32 }

/-- `append`, of bytes that are not the buffer's own; or of a null pointer with a length. -/
def append (b : HeapBuffer) (d : Option Bytes) (a : Alloc) : Outcome :=
  match d with
  | none => .thrown b
  | some d =>
    (if b.room < d.length then b.grow (max b.m_size (d.length % 2 ^ 32)) a else .done b).andThen
      fun b =>
        match b.write d with
        | none => .undefined
        | some b => .done (b.ahead d.length)

/-- What the format stands for, whose length `vsnprintf` returns as an `int`. -/
abbrev Text := { d : Bytes // d.length < 2 ^ 31 }

/-- What `vsnprintf` writes: as much as fits the size, with a zero byte at the end. -/
def cut (b : HeapBuffer) (d : Bytes) : Bytes :=
  if b.room = 0 then [] else d.take (b.room - 1) ++ [0]

/-- The part of `appendnv` behind its growth; without a text `vsnprintf` fails. -/
def print (b : HeapBuffer) (text : Option Text) : Outcome :=
  match text with
  | none => .thrown b
  | some d =>
    match b.write (b.cut d.val) with
    | none => .undefined
    | some b =>
      if (d.val.length + b.m_offset) % 2 ^ 32 > b.m_size then .thrown b
      else .done (b.ahead d.val.length)

def appendnv (b : HeapBuffer) (hint : ℕ) (text : Option Text) (a : Alloc) : Outcome :=
  (if b.room < hint then b.grow (max b.m_size hint) a else .done b).andThen fun b => b.print text

/-- The digits that `hex` writes. -/
def digits (caps : Bool) (d : Bytes) : Bytes :=
  let digit (n : UInt8) : UInt8 := if caps ∧ 9 < n then n + 55 else i2c n
  d.flatMap fun c : UInt8 => [digit (c >>> 4), digit (c &&& 15)]

/-- The loop of `hex`, one digit after the other. -/
def put (b : HeapBuffer) : Bytes → Option HeapBuffer
  | [] => some b
  | c :: cs =>
    match b.write [c] with
    | none => none
    | some b => (b.ahead 1).put cs

def hex (b : HeapBuffer) (d : Bytes) (caps : Bool) (a : Alloc) : Outcome :=
  (b.reserve (2 * d.length % 2 ^ 64) a).andThen fun b =>
    match b.put (digits caps d) with
    | none => .undefined
    | some b => .done b

def reset (b : HeapBuffer) (size : ℕ) (keep : Bool) (a : Alloc) : Outcome :=
  let b := { b with m_offset := 0 }
  if keep = false ∨ b.m_size < size then
    let size := aligned (max 8 size) % 2 ^ 64
    match b.reallocate ((size + 1) % 2 ^ 64) a with
    | none => .thrown { b with data := none }
    | some mem => .done { b with data := some mem, m_size := size % 2 ^ 32 }
  else .done b

def bseek (b : HeapBuffer) (off : ℤ) : Outcome :=
  if 0 ≤ off ∧ off ≤ b.m_size then .done { b with m_offset := off.toNat } else .thrown b

/-- `seek`, whose sum is one of 64 bits. -/
def seek (b : HeapBuffer) (off : ℤ) : Outcome :=
  if b.m_offset + off < 2 ^ 63 then b.bseek (b.m_offset + off) else .undefined

/-- `release` hands the memory out, with a zero byte at the offset. -/
def release (b : HeapBuffer) : Option (Option Bytes × HeapBuffer) :=
  match b.data with
  | none => some (none, b)
  | some mem =>
    if b.m_offset < mem.length then some (some (mem.set b.m_offset 0), null) else none

end HeapBuffer

open HeapBuffer

/-- The buffers of a program, by number; one that was not constructed is null. -/
abbrev Buffers := ℕ → HeapBuffer

namespace Buffers

inductive Op where
  | create (i : ℕ) (is : UInt64) (a : Alloc)
  | append (i : ℕ) (d : Option Bytes) (a : Alloc)
  | appendnf (i : ℕ) (hint : UInt32) (text : Option Text) (a : Alloc)
  | grow (i : ℕ) (add : UInt32) (a : Alloc)
  | reserve (i : ℕ) (size : UInt64) (a : Alloc)
  | reset (i : ℕ) (size : UInt64) (keep : Bool) (a : Alloc)
  | seek (i : ℕ) (off : Int64)
  | bseek (i : ℕ) (off : Int64)
  | hex (i : ℕ) (d : Bytes) (caps : Bool) (a : Alloc)
  | release (i : ℕ)
  | clear (i : ℕ)
  | moveConstruct (i j : ℕ)
  | moveAssign (i j : ℕ)

inductive Answer where
  | done
  | thrown
  | released (p : Option Bytes)
  | undefined
deriving DecidableEq

/-- A call on one of the buffers. -/
def call (bs : Buffers) (i : ℕ) : HeapBuffer.Outcome → Answer × Buffers
  | .done b => (.done, Function.update bs i b)
  | .thrown b => (.thrown, Function.update bs i b)
  | .undefined => (.undefined, bs)

/-- One operation, with the target first; the target of a construction is a new buffer, and there
is none when its constructor throws. -/
def step (bs : Buffers) : Op → Answer × Buffers
  | .create i is a =>
    match null.grow (is.toNat % 2 ^ 32) a with
    | .done b => (.done, Function.update bs i b)
    | _ => (.thrown, bs)
  | .append i d a => bs.call i ((bs i).append d a)
  | .appendnf i hint text a => bs.call i ((bs i).appendnv hint.toNat text a)
  | .grow i add a => bs.call i ((bs i).grow add.toNat a)
  | .reserve i size a => bs.call i ((bs i).reserve size.toNat a)
  | .reset i size keep a => bs.call i ((bs i).reset size.toNat keep a)
  | .seek i off => bs.call i ((bs i).seek off.toInt)
  | .bseek i off => bs.call i ((bs i).bseek off.toInt)
  | .hex i d caps a => bs.call i ((bs i).hex d caps a)
  | .release i =>
    match (bs i).release with
    | none => (.undefined, bs)
    | some (p, b) => (.released p, Function.update bs i b)
  | .clear i => (.done, Function.update bs i null)
  | .moveConstruct i j => (.done, Function.update (Function.update bs j null) i (bs j))
  | .moveAssign i j =>
    (.done, if i = j then bs else Function.update (Function.update bs i (bs j)) j null)

end Buffers

namespace HeapBuffer

/-- The offset is within the size, and the memory has a byte more, unless there is none. -/
structure Valid (b : HeapBuffer) : Prop where
  offset_le : b.m_offset ≤ b.m_size
  size_lt : b.m_size < 2 ^ 32
  aligned : 8 ∣ b.m_size
  held : b.data = none ∧ b.m_size = 0 ∨ b.m_size + 1 ≤ b.memory.length

/-- A call that throws has changed nothing. -/
def Same (b b' : HeapBuffer) : Prop :=
  b'.bytes = b.bytes ∧ b'.m_size = b.m_size ∧ b'.m_offset = b.m_offset

/-- What a call should leave of `b`, and `K` of what it returns with. -/
def Outcome.Right (b : HeapBuffer) (K : HeapBuffer → Prop) : Outcome → Prop
  | .done b' => b'.Valid ∧ K b'
  | .thrown b' => b'.Valid ∧ b.Same b'
  | .undefined => False

/-- A growth that asks for memory and gets none. -/
def Refused (b : HeapBuffer) (want : ℕ) (a : Alloc) : Prop :=
  want ≠ 0 ∧ b.m_size + Suil.aligned want % 2 ^ 32 < 2 ^ 32 ∧ a.isNone

instance (b : HeapBuffer) (want : ℕ) (a : Alloc) : Decidable (b.Refused want a) :=
  inferInstanceAs (Decidable (_ ∧ _ ∧ _))

/-- The size after a growth, in 32 bits. -/
def grown (b : HeapBuffer) (want : ℕ) : ℕ := (b.m_size + Suil.aligned want % 2 ^ 32) % 2 ^ 32

/-- A growth is refused only of a buffer of no size, and `P` holds of the size that it ends in. -/
def Growth (b : HeapBuffer) (want : ℕ) (a : Alloc) (P : ℕ → Prop) : Prop :=
  if b.Refused want a then b.m_size = 0 else P (b.grown want)

/-- The same of a call that grows when it has no room for `need` bytes. -/
def Grows (b : HeapBuffer) (need want : ℕ) (a : Alloc) (P : ℕ → Prop) : Prop :=
  if b.room < need then b.Growth want a P else P b.m_size

/-- The text fits the size; or it does not fit a size that stays, and the call throws. -/
def Printed (b : HeapBuffer) (text : Option Text) (size : ℕ) : Prop :=
  if size = b.m_size then ∀ d ∈ text, b.m_offset + d.val.length < 2 ^ 32
  else ∃ d ∈ text, b.m_offset + d.val.length ≤ size

variable {b b' b'' : HeapBuffer} {a : Alloc} {d e : Bytes} {K : HeapBuffer → Prop} {P : ℕ → Prop}

theorem valid_null : null.Valid := ⟨le_rfl, by decide, dvd_zero 8, .inl ⟨rfl, rfl⟩⟩

theorem Valid.offset_le_length (h : b.Valid) : b.m_offset ≤ b.memory.length := by
  have hle := h.offset_le
  rcases h.held with ⟨-, hsize⟩ | hheld
  · omega
  · omega

theorem Valid.length_bytes (h : b.Valid) : b.bytes.length = b.m_offset :=
  List.length_take_of_le h.offset_le_length

theorem Valid.room_eq (h : b.Valid) : b.room = b.m_size - b.m_offset := if_pos h.offset_le

/-- What a growth to this size leaves: a valid buffer, but for the offset. -/
structure Grew (b b' : HeapBuffer) (size : ℕ) : Prop where
  size_eq : b'.m_size = size
  offset_eq : b'.m_offset = b.m_offset
  bytes_eq : b'.bytes = b.bytes
  size_lt : size < 2 ^ 32
  aligned : 8 ∣ size
  held : b'.data = none ∧ size = 0 ∨ size + 1 ≤ b'.memory.length

theorem Valid.grew_self (h : b.Valid) : Grew b b b.m_size :=
  ⟨rfl, rfl, rfl, h.size_lt, h.aligned, h.held⟩

theorem Grew.valid {size : ℕ} (h : Grew b b' size) (hle : b.m_offset ≤ size) : b'.Valid :=
  ⟨by rw [h.size_eq, h.offset_eq]; exact hle, h.size_eq ▸ h.size_lt, h.size_eq ▸ h.aligned,
    h.size_eq ▸ h.held⟩

theorem length_realloc {mem : Bytes} {ns : ℕ} {junk : ℕ → UInt8} :
    (mem.take ns ++ (List.range (ns - mem.length)).map junk).length = ns := by
  simp only [List.length_append, List.length_take, List.length_map, List.length_range]
  omega

/-- New memory of more than `n` bytes has the first ones of the old memory. -/
theorem take_realloc {mem : Bytes} {n ns : ℕ} {junk : ℕ → UInt8} (hn : n ≤ ns)
    (hmem : n ≤ mem.length) :
    (mem.take ns ++ (List.range (ns - mem.length)).map junk).take n = mem.take n := by
  rw [List.take_append_of_le_length (by rw [List.length_take]; omega), List.take_take,
    min_eq_left hn]

theorem grow_of_ne {want : ℕ} (hwant : want ≠ 0) (a : Alloc) : b.grow want a =
    match b.reallocate ((b.m_size + Suil.aligned want % 2 ^ 32 + 1) % 2 ^ 32) a with
    | none => .thrown { b with data := none }
    | some mem => .done { b with data := some mem, m_size := b.grown want } := if_neg hwant

/-- **A growth** is refused, or ends in the size of 32 bits; it keeps the memory that it has when the
sum wraps around. -/
theorem Valid.grow_eq (h : b.Valid) (want : ℕ) (a : Alloc) :
    (b.Refused want a ∧ b.grow want a = .thrown { b with data := none }) ∨
      (¬ b.Refused want a ∧ ∃ b', b.grow want a = .done b' ∧ Grew b b' (b.grown want)) := by
  have hle := h.offset_le
  have hlength := h.offset_le_length
  have hlt := h.size_lt
  obtain ⟨k, hk⟩ := h.aligned
  obtain ⟨j, hj⟩ := dvd_aligned want
  by_cases hzero : want = 0
  · have hgrown : b.grown want = b.m_size := by
      rw [grown, hzero]
      exact Nat.mod_eq_of_lt hlt
    exact .inr ⟨fun hr => hr.1 hzero, b, by rw [grow, if_pos hzero], hgrown ▸ h.grew_self⟩
  have hsize : b.grown want < 2 ^ 32 := Nat.mod_lt _ (by decide)
  have hdvd : 8 ∣ b.grown want := by
    rw [grown]
    omega
  rw [grow_of_ne hzero]
  by_cases hwrap : b.m_size + Suil.aligned want % 2 ^ 32 < 2 ^ 32
  · -- the memory is as large as the new size
    have hgrown : b.grown want = b.m_size + Suil.aligned want % 2 ^ 32 := Nat.mod_eq_of_lt hwrap
    have hns : (b.m_size + Suil.aligned want % 2 ^ 32 + 1) % 2 ^ 32 = b.grown want + 1 := by
      rw [hgrown]
      omega
    have hkeeps : ¬ b.m_size > b.grown want + 1 := by omega
    rw [hns, reallocate, if_neg (Nat.succ_ne_zero _), if_neg hkeeps]
    cases a with
    | none => exact .inl ⟨⟨hzero, hwrap, rfl⟩, rfl⟩
    | some junk =>
      refine .inr ⟨fun hr => Bool.false_ne_true hr.2.2, _, rfl, ?_⟩
      have hkept : b.m_offset ≤ b.grown want + 1 := by omega
      refine ⟨rfl, rfl, take_realloc hkept hlength, hsize, hdvd, .inr ?_⟩
      exact length_realloc.ge
  · -- the sum wraps around, and the old memory is larger
    have hgrown : b.grown want + 2 ^ 32 = b.m_size + Suil.aligned want % 2 ^ 32 := by
      rw [grown]
      omega
    have hns : (b.m_size + Suil.aligned want % 2 ^ 32 + 1) % 2 ^ 32 = b.grown want + 1 := by omega
    have hkeeps : b.m_size > b.grown want + 1 := by omega
    refine .inr ⟨fun hr => hwrap hr.2.1, ?_⟩
    rw [hns, reallocate, if_neg (Nat.succ_ne_zero _), if_pos hkeeps]
    rcases h.held with ⟨-, hnull⟩ | hheld
    · omega
    · cases hdata : b.data with
      | none =>
        rw [memory, hdata] at hheld
        exact absurd hheld (Nat.not_succ_le_zero _)
      | some mem =>
        have hmem : b.memory = mem := by rw [memory, hdata]; rfl
        rw [hmem] at hheld
        refine ⟨_, rfl, rfl, rfl, ?_, hsize, hdvd, .inr ?_⟩
        · show mem.take b.m_offset = b.memory.take b.m_offset
          rw [hmem]
        · show b.grown want + 1 ≤ mem.length
          omega

/-- A call that grows first, and goes on with `k` in the new size. -/
theorem Valid.right_growth_iff (h : b.Valid) {k : HeapBuffer → Outcome}
    (hk : ∀ b' size, Grew b b' size → ((k b').Right b K ↔ P size)) (want : ℕ) (a : Alloc) :
    ((b.grow want a).andThen k).Right b K ↔ b.Growth want a P := by
  rw [Growth]
  rcases h.grow_eq want a with ⟨hrefused, hgrow⟩ | ⟨hrefused, b', hgrow, hgrew⟩
  · rw [hgrow, if_pos hrefused]
    show Valid { b with data := none } ∧ b.Same { b with data := none } ↔ _
    constructor
    · rintro ⟨hvalid, -⟩
      rcases hvalid.held with ⟨-, hsize⟩ | hheld
      · exact hsize
      · exact absurd hheld (Nat.not_succ_le_zero _)
    · intro hsize
      have hoffset : b.m_offset = 0 := by
        have hle := h.offset_le
        omega
      refine ⟨⟨h.offset_le, h.size_lt, h.aligned, .inl ⟨rfl, hsize⟩⟩, ?_, rfl, rfl⟩
      rw [bytes, bytes, hoffset, List.take_zero, List.take_zero]
  · rw [hgrow, if_neg hrefused]
    exact hk b' _ hgrew

/-- The same of a call that grows when it has no room. -/
theorem Valid.right_grows_iff (h : b.Valid) {k : HeapBuffer → Outcome}
    (hk : ∀ b' size, Grew b b' size → ((k b').Right b K ↔ P size)) (need want : ℕ) (a : Alloc) :
    ((if b.room < need then b.grow want a else .done b).andThen k).Right b K ↔
      b.Grows need want a P := by
  rw [Grows]
  split_ifs
  · exact h.right_growth_iff hk want a
  · exact hk b _ h.grew_self

/-- A call that returns behind `e`, in a size that it did not change, has room for `e` in it. -/
theorem Valid.add_le_of_right (h : b.Valid) (hb'' : b''.Valid) (hbytes : b''.bytes = b.bytes ++ e) :
    b.m_offset + e.length ≤ b''.m_size := by
  have hlen := congrArg List.length hbytes
  rw [List.length_append, h.length_bytes, hb''.length_bytes] at hlen
  rw [← hlen]
  exact hb''.offset_le

theorem write_eq (hfits : b.m_offset + d.length ≤ b.memory.length) :
    ∃ mem, b.write d = some { b with data := mem } ∧ (mem = none ↔ b.data = none) ∧
      (mem.getD []).length = b.memory.length ∧
      (mem.getD []).take (b.m_offset + d.length) = b.bytes ++ d ∧
      (mem.getD []).take b.m_offset = b.bytes := by
  have hoffset : b.m_offset ≤ b.memory.length := (Nat.le_add_right _ _).trans hfits
  rw [write]
  split_ifs with hnil
  · refine ⟨b.data, rfl, Iff.rfl, rfl, ?_, rfl⟩
    rw [hnil, List.length_nil, List.append_nil]
    rfl
  · have hsome : b.data ≠ none := by
      intro hnone
      rw [memory, hnone] at hfits
      exact hnil (List.length_eq_zero_iff.mp (Nat.le_zero.mp ((Nat.le_add_left _ _).trans hfits)))
    have htake : (b.memory.take b.m_offset).length = b.m_offset := List.length_take_of_le hoffset
    refine ⟨_, rfl, iff_of_false nofun hsome, Breadboard.length_put hfits, ?_, ?_⟩
    · exact Breadboard.drop_take_put (Nat.zero_le _) hoffset
    · show List.take _ (_ ++ _ ++ _) = _
      rw [List.append_assoc, List.take_append_of_le_length htake.ge, List.take_take, min_self]
      rfl

/-- Bytes within the size are written, and the offset moves behind them. -/
theorem Grew.write_ahead {size : ℕ} (h : Grew b b' size)
    (hfits : b.m_offset + d.length ≤ size) :
    ∃ b'', b'.write d = some b'' ∧ Grew b b'' size ∧ (b''.ahead d.length).Valid ∧
      (b''.ahead d.length).bytes = b.bytes ++ d := by
  have hlt := h.size_lt
  have hmem : b'.m_offset + d.length ≤ b'.memory.length := by
    rw [h.offset_eq]
    rcases h.held with ⟨-, hsize⟩ | hheld
    · omega
    · omega
  obtain ⟨mem, hwrite, hnone, hlen, htake, hkept⟩ := write_eq hmem
  rw [h.bytes_eq] at htake hkept
  have hheld : mem = none ∧ size = 0 ∨ size + 1 ≤ (mem.getD []).length := by
    rw [hnone, hlen]
    exact h.held
  have hahead : (b'.m_offset + d.length) % 2 ^ 32 = b'.m_offset + d.length := by
    rw [h.offset_eq]
    exact Nat.mod_eq_of_lt (by omega)
  refine ⟨_, hwrite, ⟨h.size_eq, h.offset_eq, hkept, hlt, h.aligned, hheld⟩, ⟨?_, ?_, ?_, ?_⟩, ?_⟩
  · show (b'.m_offset + d.length) % 2 ^ 32 ≤ b'.m_size
    rw [hahead, h.offset_eq, h.size_eq]
    exact hfits
  · exact h.size_eq ▸ hlt
  · exact h.size_eq ▸ h.aligned
  · exact h.size_eq ▸ hheld
  · show (mem.getD []).take ((b'.m_offset + d.length) % 2 ^ 32) = _
    rw [hahead, htake]

theorem write_size (h : b.write d = some b') : b'.m_size = b.m_size := by
  rw [write] at h
  split_ifs at h
  · rw [Option.some.inj h]
  · rw [← Option.some.inj h]

theorem put_size (h : b.put d = some b') : b'.m_size = b.m_size := by
  induction d generalizing b with
  | nil => rw [Option.some.inj h]
  | cons c cs ih =>
    rw [put] at h
    cases hwrite : b.write [c] with
    | none => simp [hwrite] at h
    | some b₁ =>
      rw [hwrite] at h
      rw [ih h]
      show b₁.m_size = b.m_size
      exact write_size hwrite

/-- The loop of `hex` writes its digits at once, while the offset does not wrap around. -/
theorem put_eq (hfits : b.m_offset + d.length ≤ b.memory.length)
    (hlt : b.m_offset + d.length < 2 ^ 32) :
    ∃ mem, b.put d = some ⟨mem, b.m_size, b.m_offset + d.length⟩ ∧ (mem = none ↔ b.data = none) ∧
      (mem.getD []).length = b.memory.length ∧
      (mem.getD []).take (b.m_offset + d.length) = b.bytes ++ d := by
  induction d generalizing b with
  | nil => exact ⟨b.data, rfl, Iff.rfl, rfl, (List.append_nil _).symm⟩
  | cons c cs ih =>
    rw [List.length_cons] at hfits hlt ⊢
    have hone : b.m_offset + [c].length ≤ b.memory.length := by
      rw [List.length_singleton]
      omega
    obtain ⟨mem₁, hwrite, hnone₁, hlen₁, htake₁, -⟩ := write_eq hone
    have hahead : ahead { b with data := mem₁ } 1 = ⟨mem₁, b.m_size, b.m_offset + 1⟩ := by
      rw [ahead, Nat.mod_eq_of_lt (show b.m_offset + 1 < 2 ^ 32 by omega)]
    have hrest : b.m_offset + 1 + cs.length = b.m_offset + (cs.length + 1) := by omega
    obtain ⟨mem, hput, hnone, hlen, htake⟩ := ih (b := ⟨mem₁, b.m_size, b.m_offset + 1⟩)
      (by rw [hrest]; exact hfits.trans hlen₁.ge) (by rw [hrest]; exact hlt)
    refine ⟨mem, ?_, hnone.trans hnone₁, hlen.trans hlen₁, ?_⟩
    · rw [put, hwrite]
      show (ahead { b with data := mem₁ } 1).put cs = _
      rw [hahead, hput, hrest]
    · rw [← hrest, htake]
      show (mem₁.getD []).take (b.m_offset + 1) ++ cs = _
      rw [List.length_singleton] at htake₁
      rw [htake₁, List.append_assoc]
      rfl

theorem length_digits (caps : Bool) (d : Bytes) : (digits caps d).length = 2 * d.length := by
  rw [digits, List.length_flatMap]
  simp [Nat.mul_comm]

/-- **`append`** writes its bytes when they fit the size, as it is or after a growth. -/
theorem Valid.append_right_iff (h : b.Valid) (d : Bytes) (a : Alloc) :
    (b.append (some d) a).Right b (fun b' => b'.bytes = b.bytes ++ d) ↔
      b.Grows d.length (max b.m_size (d.length % 2 ^ 32)) a (b.m_offset + d.length ≤ ·) := by
  refine h.right_grows_iff (fun b' size hgrew => ?_) _ _ a
  constructor
  · intro hright
    cases hwrite : b'.write d with
    | none => rw [hwrite] at hright; exact hright.elim
    | some b'' =>
      rw [hwrite] at hright
      have hle := h.add_le_of_right hright.1 hright.2
      rwa [ahead, write_size hwrite, hgrew.size_eq] at hle
  · intro hfits
    obtain ⟨b'', hwrite, -, hvalid, hbytes⟩ := hgrew.write_ahead hfits
    rw [hwrite]
    exact ⟨hvalid, hbytes⟩

/-- **`hex`** writes its digits when they fit the size. -/
theorem Valid.hex_right_iff (h : b.Valid) (d : Bytes) (caps : Bool) (a : Alloc) :
    (b.hex d caps a).Right b (fun b' => b'.bytes = b.bytes ++ digits caps d) ↔
      b.Grows (2 * d.length % 2 ^ 64) (max b.m_size ((2 * d.length % 2 ^ 64 - b.room) % 2 ^ 32)) a
        (b.m_offset + 2 * d.length ≤ ·) := by
  refine h.right_grows_iff (fun b' size hgrew => ?_) _ _ a
  rw [← length_digits caps d]
  constructor
  · intro hright
    cases hput : b'.put (digits caps d) with
    | none => rw [hput] at hright; exact hright.elim
    | some b'' =>
      rw [hput] at hright
      have hle := h.add_le_of_right hright.1 hright.2
      rwa [put_size hput, hgrew.size_eq] at hle
  · intro hfits
    have hlt := hgrew.size_lt
    have hmem : b'.m_offset + (digits caps d).length ≤ b'.memory.length := by
      rw [hgrew.offset_eq]
      rcases hgrew.held with ⟨-, hsize⟩ | hheld
      · omega
      · omega
    obtain ⟨mem, hput, hnone, hlen, htake⟩ := put_eq hmem (by rw [hgrew.offset_eq]; omega)
    rw [hput]
    refine ⟨⟨?_, hgrew.size_eq ▸ hlt, hgrew.size_eq ▸ hgrew.aligned, ?_⟩, ?_⟩
    · show b'.m_offset + (digits caps d).length ≤ b'.m_size
      rw [hgrew.offset_eq, hgrew.size_eq]
      exact hfits
    · show mem = none ∧ b'.m_size = 0 ∨ b'.m_size + 1 ≤ (mem.getD []).length
      rw [hnone, hlen, hgrew.size_eq]
      exact hgrew.held
    · exact htake.trans (by rw [hgrew.bytes_eq])

/-- What `appendnv` should leave of `b` when it returns. -/
def PrintedTo (b : HeapBuffer) (text : Option Text) (b' : HeapBuffer) : Prop :=
  b.bytes <+: b'.bytes ∧ ∃ d ∈ text, b'.m_offset = b.m_offset + d.val.length

/-- A write leaves the bytes before the offset. -/
theorem Grew.write {size : ℕ} (h : Grew b b' size) (hwrite : b'.write d = some b'') :
    Grew b b'' size := by
  by_cases hfits : b'.m_offset + d.length ≤ b'.memory.length
  · obtain ⟨mem, hsome, hnone, hlen, -, hkept⟩ := write_eq hfits
    obtain rfl := Option.some.inj (hsome.symm.trans hwrite)
    refine ⟨h.size_eq, h.offset_eq, hkept.trans h.bytes_eq, h.size_lt, h.aligned, ?_⟩
    show mem = none ∧ size = 0 ∨ size + 1 ≤ (mem.getD []).length
    rw [hnone, hlen]
    exact h.held
  · rw [HeapBuffer.write] at hwrite
    split_ifs at hwrite
    obtain rfl := Option.some.inj hwrite
    exact h

theorem length_cut_le : (b.cut d).length ≤ b.room := by
  rw [cut]
  split_ifs
  · exact Nat.zero_le _
  · rw [List.length_append, List.length_take, List.length_singleton]
    omega

/-- What `vsnprintf` writes is within the size. -/
theorem Grew.exists_write_cut {size : ℕ} (h : Grew b b' size) (hle : b.m_offset ≤ size) (d : Bytes) :
    ∃ b'', b'.write (b'.cut d) = some b'' := by
  have hvalid := h.valid hle
  have hcut : (b'.cut d).length ≤ b'.room := length_cut_le
  rw [hvalid.room_eq] at hcut
  have hoffset := hvalid.offset_le
  have hmem : b'.m_offset + (b'.cut d).length ≤ b'.memory.length := by
    rcases hvalid.held with ⟨-, hsize⟩ | hheld
    · omega
    · omega
  obtain ⟨mem, hsome, -⟩ := write_eq hmem
  exact ⟨_, hsome⟩

/-- The text is printed within the size, or the call throws with the size as it was. -/
theorem Grew.print_right_iff {size : ℕ} (hgrew : Grew b b' size) (h : b.Valid)
    (text : Option Text) : (b'.print text).Right b (b.PrintedTo text) ↔ b.Printed text size := by
  have hlt := hgrew.size_lt
  have hle := h.offset_le
  cases text with
  | none =>
    show b'.Valid ∧ b.Same b' ↔ if size = b.m_size then _ else _
    split_ifs with hsize
    · refine iff_of_true ⟨hgrew.valid (hsize ▸ hle), hgrew.bytes_eq, ?_, hgrew.offset_eq⟩ nofun
      rw [hgrew.size_eq, hsize]
    · refine iff_of_false (fun hright => hsize ?_) (by rintro ⟨d, hd, -⟩; cases hd)
      rw [← hgrew.size_eq, hright.2.2.1]
  | some d =>
    have hd := d.property
    have hprinted : b.Printed (some d) size ↔
        if size = b.m_size then b.m_offset + d.val.length < 2 ^ 32
        else b.m_offset + d.val.length ≤ size := by
      rw [Printed]
      split_ifs <;> simp
    rw [hprinted, print]
    cases hwrite : b'.write (b'.cut d.val) with
    | none =>
      -- the offset is behind the size that is left
      refine iff_of_false (fun hright => hright) fun hfits => ?_
      have hin : b.m_offset ≤ size := by
        split_ifs at hfits with hsize
        · exact hsize ▸ hle
        · omega
      obtain ⟨b'', hsome⟩ := hgrew.exists_write_cut hin d.val
      rw [hwrite] at hsome
      cases hsome
    | some b'' =>
      have hgrew'' := hgrew.write hwrite
      show Outcome.Right b _ (if (d.val.length + b''.m_offset) % 2 ^ 32 > b''.m_size then
        .thrown b'' else .done (b''.ahead d.val.length)) ↔ _
      rw [hgrew''.size_eq, hgrew''.offset_eq]
      by_cases hover : (d.val.length + b.m_offset) % 2 ^ 32 > size
      · rw [if_pos hover]
        show b''.Valid ∧ b.Same b'' ↔ _
        split_ifs with hsize
        · -- the call throws in the size that it had
          refine iff_of_true ⟨hgrew''.valid (hsize ▸ hle), hgrew''.bytes_eq, ?_, hgrew''.offset_eq⟩ ?_
          · rw [hgrew''.size_eq, hsize]
          · omega
        · refine iff_of_false (fun hright => hsize ?_) (by omega)
          rw [← hgrew''.size_eq, hright.2.2.1]
      · rw [if_neg hover]
        have hsum : (b''.ahead d.val.length).m_offset = (d.val.length + b.m_offset) % 2 ^ 32 := by
          rw [ahead, hgrew''.offset_eq, Nat.add_comm]
        constructor
        · rintro ⟨-, -, d', hd', heq⟩
          obtain rfl := Option.some.inj hd'
          rw [hsum] at heq
          split_ifs
          · omega
          · omega
        · intro hfits
          have hend : (d.val.length + b.m_offset) % 2 ^ 32 = b.m_offset + d.val.length := by
            split_ifs at hfits
            · omega
            · omega
          rw [hend] at hover hsum
          refine ⟨⟨?_, ?_, ?_, ?_⟩, ?_, d, rfl, hsum⟩
          · rw [hsum]
            exact (not_lt.mp hover).trans hgrew''.size_eq.ge
          · exact hgrew''.size_eq.trans_lt hlt
          · exact hgrew''.size_eq.symm ▸ hgrew''.aligned
          · exact hgrew''.size_eq.symm ▸ hgrew''.held
          · rw [← hgrew''.bytes_eq, bytes, bytes, hsum, hgrew''.offset_eq]
            exact List.take_prefix_take_left (Nat.le_add_right _ _)

/-- **`appendnf`** is right when its text fits, or when it throws without having grown. -/
theorem Valid.appendnv_right_iff (h : b.Valid) (hint : ℕ) (text : Option Text) (a : Alloc) :
    (b.appendnv hint text a).Right b (b.PrintedTo text) ↔
      b.Grows hint (max b.m_size hint) a (b.Printed text) :=
  h.right_grows_iff (fun _ _ hgrew => hgrew.print_right_iff h text) _ _ a

theorem Outcome.andThen_done (o : Outcome) : o.andThen .done = o := by
  cases o <;> rfl

/-- A growth is right when the bytes stay within the size. -/
theorem Grew.right_iff {size : ℕ} (hgrew : Grew b b' size) :
    (Outcome.done b').Right b (fun b' => b'.bytes = b.bytes) ↔ b.m_offset ≤ size := by
  constructor
  · intro hright
    rw [← hgrew.offset_eq, ← hgrew.size_eq]
    exact hright.1.offset_le
  · intro hle
    exact ⟨hgrew.valid hle, hgrew.bytes_eq⟩

theorem Valid.grow_right_iff (h : b.Valid) (add : ℕ) (a : Alloc) :
    (b.grow add a).Right b (fun b' => b'.bytes = b.bytes) ↔ b.Growth add a (b.m_offset ≤ ·) := by
  rw [← (b.grow add a).andThen_done]
  exact h.right_growth_iff (fun _ _ hgrew => hgrew.right_iff) add a

theorem Valid.reserve_right_iff (h : b.Valid) (size : ℕ) (a : Alloc) :
    (b.reserve size a).Right b (fun b' => b'.bytes = b.bytes) ↔
      b.Grows size (max b.m_size ((size - b.room) % 2 ^ 32)) a (b.m_offset ≤ ·) := by
  rw [← (b.reserve size a).andThen_done]
  exact h.right_grows_iff (fun _ _ hgrew => hgrew.right_iff) _ _ a

/-- `reset` asks for new memory. -/
def Asks (b : HeapBuffer) (size : ℕ) (keep : Bool) : Prop :=
  (keep = false ∨ b.m_size < size) ∧ b.m_size ≤ Suil.aligned (max 8 size) % 2 ^ 64 + 1

instance (b : HeapBuffer) (size : ℕ) (keep : Bool) : Decidable (b.Asks size keep) :=
  inferInstanceAs (Decidable (_ ∧ _))

/-- **`reset`** is right unless it asks for memory and gets none. -/
theorem Valid.reset_right_iff (h : b.Valid) {size : ℕ} (keep : Bool) (a : Alloc) :
    (b.reset size keep a).Right b (fun b' => b'.m_offset = 0) ↔
      (b.Asks size keep → a = none → b.m_size = 0) := by
  have hlt := h.size_lt
  have hzero : Valid { b with m_offset := 0 } :=
    ⟨Nat.zero_le _, h.size_lt, h.aligned, h.held⟩
  rw [reset, Asks]
  by_cases hmore : keep = false ∨ b.m_size < size
  swap
  · rw [if_neg hmore]
    exact iff_of_true ⟨hzero, rfl⟩ fun hasks => absurd hasks.1 hmore
  rw [if_pos hmore]
  set want := Suil.aligned (max 8 size) % 2 ^ 64 with hwant
  obtain ⟨j, hj⟩ := dvd_aligned (max 8 size)
  have hdvd : 8 ∣ want := by omega
  have hns : (want + 1) % 2 ^ 64 = want + 1 := by omega
  show Outcome.Right b _ (match reallocate { b with m_offset := 0 } ((want + 1) % 2 ^ 64) a with
    | none => .thrown { b with data := none, m_offset := 0 }
    | some mem => .done { b with data := some mem, m_offset := 0, m_size := want % 2 ^ 32 }) ↔ _
  rw [hns, reallocate, if_neg (Nat.succ_ne_zero _)]
  have hdone : ∀ mem : Bytes, want + 1 ≤ mem.length → Outcome.Right b (fun b' => b'.m_offset = 0)
      (.done { b with data := some mem, m_offset := 0, m_size := want % 2 ^ 32 }) := by
    intro mem hmem
    refine ⟨⟨Nat.zero_le _, Nat.mod_lt _ (by decide), ?_, .inr ?_⟩, rfl⟩
    · show 8 ∣ want % 2 ^ 32
      omega
    · show want % 2 ^ 32 + 1 ≤ mem.length
      omega
  by_cases hkeeps : b.m_size > want + 1
  · -- the memory is larger than what is asked for
    rw [if_pos hkeeps]
    rcases h.held with ⟨-, hnull⟩ | hheld
    · omega
    · cases hdata : b.data with
      | none =>
        rw [memory, hdata] at hheld
        exact absurd hheld (Nat.not_succ_le_zero _)
      | some mem =>
        rw [memory, hdata] at hheld
        refine iff_of_true (hdone mem ?_) fun hasks => absurd hkeeps (not_lt.mpr hasks.2)
        exact hkeeps.le.trans ((Nat.le_succ _).trans hheld)
  · rw [if_neg hkeeps]
    cases a with
    | some junk => exact iff_of_true (hdone _ length_realloc.ge) fun _ hnone => by cases hnone
    | none =>
      show Valid { b with data := none, m_offset := 0 } ∧
        b.Same { b with data := none, m_offset := 0 } ↔ _
      constructor
      · rintro ⟨hvalid, -⟩ - -
        rcases hvalid.held with ⟨-, hsize⟩ | hheld
        · exact hsize
        · exact absurd hheld (Nat.not_succ_le_zero _)
      · intro hsize
        have hsize₀ := hsize ⟨hmore, not_lt.mp hkeeps⟩ rfl
        have hoffset : b.m_offset = 0 := by
          have hle := h.offset_le
          omega
        refine ⟨⟨Nat.zero_le _, hlt, h.aligned, .inl ⟨rfl, hsize₀⟩⟩, ?_, rfl, hoffset.symm⟩
        rw [bytes, bytes, hoffset, List.take_zero, List.take_zero]

/-- `bseek` throws at what is not within the size. -/
theorem Valid.bseek_right (h : b.Valid) (off : ℤ) :
    (b.bseek off).Right b (fun b' => b'.memory = b.memory ∧ (b'.m_offset : ℤ) = off) := by
  rw [bseek]
  split_ifs with hin
  · refine ⟨⟨?_, h.size_lt, h.aligned, h.held⟩, rfl, Int.toNat_of_nonneg hin.1⟩
    show off.toNat ≤ b.m_size
    omega
  · exact ⟨h, rfl, rfl, rfl⟩

theorem Valid.seek_right_iff (h : b.Valid) (off : ℤ) :
    (b.seek off).Right b (fun b' => b'.memory = b.memory ∧ (b'.m_offset : ℤ) = b.m_offset + off) ↔
      b.m_offset + off < 2 ^ 63 := by
  rw [seek]
  split_ifs with hsum
  · exact iff_of_true (h.bseek_right _) hsum
  · exact iff_of_false (fun hright => hright) hsum

/-- The memory that is handed out begins with the bytes. -/
theorem Valid.release_eq (h : b.Valid) :
    ∃ p, b.release = some (p, null) ∧ (p.getD []).take b.m_offset = b.bytes := by
  have hle := h.offset_le
  rw [release, bytes, memory]
  rcases h.held with ⟨hdata, hsize⟩ | hheld
  · have hnull : b = null := by
      obtain ⟨data, m_size, m_offset⟩ := b
      obtain rfl : data = none := hdata
      obtain rfl : m_size = 0 := hsize
      obtain rfl : m_offset = 0 := Nat.le_zero.mp hle
      rfl
    rw [hnull]
    exact ⟨none, rfl, rfl⟩
  · cases hdata : b.data with
    | none =>
      rw [memory, hdata] at hheld
      exact absurd hheld (Nat.not_succ_le_zero _)
    | some mem =>
      rw [memory, hdata] at hheld
      have hlength : b.m_size + 1 ≤ mem.length := hheld
      refine ⟨_, if_pos (by omega), ?_⟩
      show (mem.set b.m_offset 0).take b.m_offset = mem.take b.m_offset
      exact List.take_set_of_le le_rfl

end HeapBuffer

namespace Buffers

variable {bs : Buffers}

/-- A call on `i` that returns leaves what `K` says, and one that throws has changed nothing. -/
def Left (m : Move Buffers Op Answer) (i : ℕ) (K : HeapBuffer → HeapBuffer → Prop) : Prop :=
  (m.output = .done → K (m.before i) (m.after i)) ∧
    (m.output = .thrown → (m.before i).Same (m.after i))

/-- What an operation does to the bytes before the offset. -/
def Kept (m : Move Buffers Op Answer) : Prop :=
  match m.input with
  | .create i _ _ => m.output = .done → (m.after i).bytes = []
  | .append i d _ => Left m i fun b b' => ∃ e ∈ d, b'.bytes = b.bytes ++ e
  | .appendnf i _ text _ => Left m i fun b b' => b.PrintedTo text b'
  | .grow i _ _ | .reserve i _ _ => Left m i fun b b' => b'.bytes = b.bytes
  | .reset i _ _ _ => Left m i fun _ b' => b'.m_offset = 0
  | .seek i off => Left m i fun b b' =>
    b'.memory = b.memory ∧ (b'.m_offset : ℤ) = b.m_offset + off.toInt
  | .bseek i off => Left m i fun b b' => b'.memory = b.memory ∧ (b'.m_offset : ℤ) = off.toInt
  | .hex i d caps _ => Left m i fun b b' => b'.bytes = b.bytes ++ digits caps d
  | .release i => ∃ p, m.output = .released p ∧
    (p.getD []).take (m.before i).m_offset = (m.before i).bytes
  | .clear i => (m.after i).bytes = []
  | .moveConstruct i j | .moveAssign i j => (m.after i).bytes = (m.before j).bytes

/-- An operation that leaves all buffers valid, and the bytes as it should. -/
structure Right (m : Move Buffers Op Answer) : Prop where
  answered : m.output ≠ .undefined
  valid : ∀ i, (m.after i).Valid
  kept : Kept m

/-- The operations that are right, by the size that their growth ends in: it has room for the bytes
and for what is written; a buffer that has a size gets the memory that it asks for; and the sum
of `seek` is one of 64 bits. -/
def Allowed (bs : Buffers) : Op → Prop
  | .append i (some d) a =>
    (bs i).Grows d.length (max (bs i).m_size (d.length % 2 ^ 32)) a ((bs i).m_offset + d.length ≤ ·)
  | .appendnf i hint text a =>
    (bs i).Grows hint.toNat (max (bs i).m_size hint.toNat) a ((bs i).Printed text)
  | .grow i add a => (bs i).Growth add.toNat a ((bs i).m_offset ≤ ·)
  | .reserve i size a => (bs i).Grows size.toNat
    (max (bs i).m_size ((size.toNat - (bs i).room) % 2 ^ 32)) a ((bs i).m_offset ≤ ·)
  | .reset i size keep a => (bs i).Asks size.toNat keep → a = none → (bs i).m_size = 0
  | .seek i off => (bs i).m_offset + off.toInt < 2 ^ 63
  | .hex i d _ a => (bs i).Grows (2 * d.length % 2 ^ 64)
    (max (bs i).m_size ((2 * d.length % 2 ^ 64 - (bs i).room) % 2 ^ 32)) a
    ((bs i).m_offset + 2 * d.length ≤ ·)
  | _ => True

theorem valid_update (h : ∀ i, (bs i).Valid) {i : ℕ} {b : HeapBuffer} (hb : b.Valid) :
    ∀ k, (Function.update bs i b k).Valid := by
  intro k
  rcases eq_or_ne k i with rfl | hne
  · rwa [Function.update_self]
  · rw [Function.update_of_ne hne]
    exact h k

/-- A call is right when its outcome is. -/
theorem right_call_iff (h : ∀ i, (bs i).Valid) {op : Op} {i : ℕ} {o : HeapBuffer.Outcome}
    {K : HeapBuffer → Prop} (hright : o.Right (bs i) K ↔ Allowed bs op)
    (hkept : ∀ a bs', Kept ⟨bs, op, a, bs'⟩ ↔
      (a = .done → K (bs' i)) ∧ (a = .thrown → (bs i).Same (bs' i))) :
    Right ⟨bs, op, (bs.call i o).1, (bs.call i o).2⟩ ↔ Allowed bs op := by
  rw [← hright]
  cases o with
  | done b =>
    have hself : Function.update bs i b i = b := Function.update_self i b bs
    constructor
    · intro hright
      have hvalid := hright.valid i
      have hleft := ((hkept _ _).mp hright.kept).1 rfl
      change (Function.update bs i b i).Valid at hvalid
      change K (Function.update bs i b i) at hleft
      rw [hself] at hvalid hleft
      exact ⟨hvalid, hleft⟩
    · rintro ⟨hvalid, hleft⟩
      refine ⟨nofun, valid_update h hvalid, (hkept _ _).mpr ⟨fun _ => ?_, nofun⟩⟩
      show K (Function.update bs i b i)
      rwa [hself]
  | thrown b =>
    have hself : Function.update bs i b i = b := Function.update_self i b bs
    constructor
    · intro hright
      have hvalid := hright.valid i
      have hsame := ((hkept _ _).mp hright.kept).2 rfl
      change (Function.update bs i b i).Valid at hvalid
      change (bs i).Same (Function.update bs i b i) at hsame
      rw [hself] at hvalid hsame
      exact ⟨hvalid, hsame⟩
    · rintro ⟨hvalid, hsame⟩
      refine ⟨nofun, valid_update h hvalid, (hkept _ _).mpr ⟨nofun, fun _ => ?_⟩⟩
      show (bs i).Same (Function.update bs i b i)
      rwa [hself]
  | undefined => exact iff_of_false (fun hright => hright.answered rfl) fun hright => hright

/-- **One operation** on valid buffers is right exactly when it is allowed. -/
theorem step_right_iff (h : ∀ i, (bs i).Valid) (op : Op) :
    Right ⟨bs, op, (bs.step op).1, (bs.step op).2⟩ ↔ Allowed bs op := by
  have hnull (k : ℕ) : ∀ j, (Function.update bs k null j).Valid := valid_update h valid_null
  cases op with
  | create i is a =>
    refine iff_of_true ?_ trivial
    rw [step]
    rcases valid_null.grow_eq (is.toNat % 2 ^ 32) a with ⟨-, hgrow⟩ | ⟨-, b', hgrow, hgrew⟩
    · rw [hgrow]
      exact ⟨nofun, h, nofun⟩
    · rw [hgrow]
      refine ⟨nofun, valid_update h (hgrew.valid (Nat.zero_le _)), fun _ => ?_⟩
      show (Function.update bs i b' i).bytes = []
      rw [Function.update_self, hgrew.bytes_eq]
      rfl
  | append i d a =>
    cases d with
    | none =>
      have hright : (Outcome.thrown (bs i)).Right (bs i) (fun _ => False) :=
        ⟨h i, rfl, rfl, rfl⟩
      exact right_call_iff h (iff_of_true hright trivial) fun _ _ => by simp [Kept, Left]
    | some d =>
      exact right_call_iff h ((h i).append_right_iff d a) fun _ _ => by simp [Kept, Left]
  | appendnf i hint text a =>
    exact right_call_iff h ((h i).appendnv_right_iff hint.toNat text a) fun _ _ => Iff.rfl
  | grow i add a => exact right_call_iff h ((h i).grow_right_iff add.toNat a) fun _ _ => Iff.rfl
  | reserve i size a =>
    exact right_call_iff h ((h i).reserve_right_iff size.toNat a) fun _ _ => Iff.rfl
  | reset i size keep a =>
    exact right_call_iff h ((h i).reset_right_iff keep a) fun _ _ => Iff.rfl
  | seek i off => exact right_call_iff h ((h i).seek_right_iff off.toInt) fun _ _ => Iff.rfl
  | bseek i off =>
    have hright := (h i).bseek_right off.toInt
    exact right_call_iff h (iff_of_true hright trivial) fun _ _ => Iff.rfl
  | hex i d caps a => exact right_call_iff h ((h i).hex_right_iff d caps a) fun _ _ => Iff.rfl
  | release i =>
    refine iff_of_true ?_ trivial
    obtain ⟨p, hrelease, hbytes⟩ := (h i).release_eq
    rw [step, hrelease]
    exact ⟨nofun, hnull i, p, rfl, hbytes⟩
  | clear i =>
    refine iff_of_true ⟨nofun, hnull i, ?_⟩ trivial
    show (Function.update bs i null i).bytes = []
    rw [Function.update_self]
    rfl
  | moveConstruct i j =>
    refine iff_of_true ⟨nofun, valid_update (hnull j) (h j), ?_⟩ trivial
    show (Function.update (Function.update bs j null) i (bs j) i).bytes = (bs j).bytes
    rw [Function.update_self]
  | moveAssign i j =>
    refine iff_of_true ?_ trivial
    rw [step]
    split_ifs with hself
    · refine ⟨nofun, h, ?_⟩
      show (bs i).bytes = (bs j).bytes
      rw [hself]
    · refine ⟨nofun, valid_update (valid_update h (h j)) valid_null, ?_⟩
      show (Function.update (Function.update bs i (bs j)) j null i).bytes = (bs j).bytes
      rw [Function.update_of_ne hself, Function.update_self]

/-- An append that gets its memory is right when it fits, or the size doubled and rounded is below
2^32. -/
theorem allowed_append_iff (h : ∀ i, (bs i).Valid) (i : ℕ) (d : Bytes) (junk : ℕ → UInt8) :
    Allowed bs (.append i (some d) (some junk)) ↔ d.length ≤ (bs i).room ∨
      Buffer.grown (bs i).m_size d.length < 2 ^ 32 := by
  have hle := (h i).offset_le
  have hlt := (h i).size_lt
  have hroom := (h i).room_eq
  obtain ⟨k, hk⟩ := (h i).aligned
  rw [Allowed, Grows]
  split_ifs with hfull
  · rw [or_iff_right (not_le.mpr hfull), Growth, if_neg fun hr => Bool.false_ne_true hr.2.2,
      HeapBuffer.grown, Buffer.grown]
    obtain ⟨j, hj⟩ := dvd_aligned (max (bs i).m_size (d.length % 2 ^ 32))
    have hwant := le_aligned (max (bs i).m_size (d.length % 2 ^ 32))
    have hlen := le_aligned (max (bs i).m_size d.length)
    rcases lt_or_ge d.length (2 ^ 32) with h32 | h32
    · rw [Nat.mod_eq_of_lt h32] at hj hwant ⊢
      have htop : Suil.aligned (max (bs i).m_size d.length) ≤ 2 ^ 32 := by
        rw [Suil.aligned]
        omega
      omega
    · -- more bytes than any size has room for
      have hsize : ((bs i).m_size + Suil.aligned (max (bs i).m_size (d.length % 2 ^ 32)) % 2 ^ 32)
          % 2 ^ 32 < 2 ^ 32 := Nat.mod_lt _ (by decide)
      omega
  · rw [or_iff_left_of_imp]
    · omega
    · omega

/-- The buffers as a machine. -/
def machine (bs : Buffers) (op : Op) : Option (Answer × Buffers) := some (bs.step op)

/-- **The runs that are right throughout** are those of allowed operations. -/
theorem run_keeps_iff {ms : List (Move Buffers Op Answer)} {bs : Buffers}
    (h : Run machine (fun _ => null) ms bs) :
    (∀ m ∈ ms, Right m) ↔ ∀ m ∈ ms, Allowed m.before m.input := by
  refine h.moves_iff (K := fun bs => ∀ i, (bs i).Valid) (fun _ => valid_null) ?_
  intro u op a v hvalid hstep
  obtain ⟨rfl, rfl⟩ := Prod.mk.inj (Option.some.inj hstep)
  have hiff := step_right_iff hvalid op
  exact ⟨hiff, fun hallowed => (hiff.mpr hallowed).valid⟩

instance {b : HeapBuffer} {want : ℕ} {a : Alloc} {P : ℕ → Prop} [DecidablePred P] :
    Decidable (b.Growth want a P) :=
  inferInstanceAs (Decidable (if b.Refused want a then b.m_size = 0 else P (b.grown want)))

instance {b : HeapBuffer} {need want : ℕ} {a : Alloc} {P : ℕ → Prop} [DecidablePred P] :
    Decidable (b.Grows need want a P) :=
  inferInstanceAs (Decidable (if b.room < need then b.Growth want a P else P b.m_size))

instance {b : HeapBuffer} {text : Option Text} : DecidablePred (b.Printed text) := fun size =>
  inferInstanceAs (Decidable (if size = b.m_size then ∀ d ∈ text, b.m_offset + d.val.length < 2 ^ 32
    else ∃ d ∈ text, b.m_offset + d.val.length ≤ size))

instance : DecidablePred (Allowed bs)
  | .append i (some d) a => inferInstanceAs (Decidable ((bs i).Grows d.length
      (max (bs i).m_size (d.length % 2 ^ 32)) a ((bs i).m_offset + d.length ≤ ·)))
  | .appendnf i hint text a => inferInstanceAs (Decidable ((bs i).Grows hint.toNat
      (max (bs i).m_size hint.toNat) a ((bs i).Printed text)))
  | .grow i add a => inferInstanceAs (Decidable ((bs i).Growth add.toNat a ((bs i).m_offset ≤ ·)))
  | .reserve i size a => inferInstanceAs (Decidable ((bs i).Grows size.toNat
      (max (bs i).m_size ((size.toNat - (bs i).room) % 2 ^ 32)) a ((bs i).m_offset ≤ ·)))
  | .reset i size keep a => inferInstanceAs
      (Decidable ((bs i).Asks size.toNat keep → a = none → (bs i).m_size = 0))
  | .seek i off => inferInstanceAs (Decidable ((bs i).m_offset + off.toInt < 2 ^ 63))
  | .hex i d _ a => inferInstanceAs (Decidable ((bs i).Grows (2 * d.length % 2 ^ 64)
      (max (bs i).m_size ((2 * d.length % 2 ^ 64 - (bs i).room) % 2 ^ 32)) a
      ((bs i).m_offset + 2 * d.length ≤ ·)))
  | .append _ none _ | .create .. | .bseek .. | .release _ | .clear _ | .moveConstruct ..
  | .moveAssign .. => inferInstanceAs (Decidable True)

/-- Two buffers, one of which grows when it is appended to and is moved. -/
theorem run_keeps_of_text :
    let memory : Alloc := some fun _ => 0
    let calls : List Op := [.create 0 4 memory, .append 0 (some [1, 2, 3]) none,
      .append 0 (some [4, 5, 6, 7, 8, 9]) memory, .appendnf 0 4 (some ⟨[48], by decide⟩) none,
      .bseek 0 99, .moveConstruct 1 0, .hex 1 [171] true memory, .seek 1 (-2), .reset 0 1 false none,
      .release 1]
    (∀ m ∈ moves machine (fun _ => null) calls, Right m) ∧
      (moves machine (fun _ => null) calls).map Move.output = [.done, .done, .done, .done, .thrown,
        .done, .done, .done, .thrown,
        .released (some [1, 2, 3, 4, 5, 6, 7, 8, 9, 48, 0, 66, 0, 0, 0, 0, 0])] :=
  ⟨(run_keeps_iff (run_final machine (fun _ => null) _)).mpr (by decide), by decide⟩

/-- A buffer of 16 bytes that holds 12 is asked to reserve almost 2^32: its size becomes 8. -/
theorem not_run_keeps :
    let memory : Alloc := some fun _ => 0
    let calls : List Op := [.create 0 16 memory,
      .append 0 (some [1, 2, 3, 4, 5, 6, 7, 8, 9, 10, 11, 12]) none, .reserve 0 4294967292 memory]
    Run machine (fun _ => null) (moves machine (fun _ => null) calls)
        (final machine (fun _ => null) calls) ∧
      (final machine (fun _ => null) calls 0).m_size = 8 ∧
      ¬ ∀ m ∈ moves machine (fun _ => null) calls, Right m := by
  refine ⟨run_final _ _ _, by decide, fun hright => ?_⟩
  have hlast := hright _ (List.mem_of_getLast? rfl)
  have hle := (hlast.valid 0).offset_le
  revert hle
  decide

end Buffers
end Suil
