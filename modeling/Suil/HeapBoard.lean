/-
The board that owns its buffer.

A `HeapBoard` is a `Breadboard` over memory of the heap, which it frees when it is
its own.  The indices of the board are kept beside the pointer, so an operation
that puts new memory under them has to set them to it.

* `call_refines` — the inherited calls are those on a bounded queue;
* `step_right_iff` — which operations keep the indices within the memory, and the
  unread bytes;
* `run_right_iff` — the runs of which every operation does.
-/
import Suil.Breadboard

open Runs

namespace Suil

/-- `data`, which is `sink`, too: the memory behind it, or a null pointer. -/
structure HeapBoard where
  data : Option Bytes
  own : Bool
  H : ℕ
  T : ℕ
  M : ℕ
deriving DecidableEq

namespace HeapBoard

/-- The bytes allocated. -/
def memory (b : HeapBoard) : Bytes := b.data.getD []

/-- `size`. -/
def size (b : HeapBoard) : ℕ := b.T - b.H

def unread (b : HeapBoard) : Bytes := (b.memory.take b.T).drop b.H

/-- `HeapBoard()`. -/
def null : HeapBoard := ⟨none, false, 0, 0, 0⟩

/-- `HeapBoard(size)`; `mem` is what the new memory holds. -/
def ofSize (mem : Bytes) : HeapBoard := ⟨some mem, true, 0, 0, mem.length⟩

/-- `HeapBoard(buf, size, own)`. -/
def ofBytes (buf : Option Bytes) (own : Bool) : HeapBoard :=
  ⟨buf, own, 0, (buf.getD []).length, (buf.getD []).length⟩

/-- `push`, `pull` and `move`; none when they leave the memory. -/
def call (b : HeapBoard) : Breadboard.Op → Option (Breadboard.Answer × HeapBoard)
  | .push e =>
    if b.M - b.T < e.length then some (.thrown, b)
    else if b.T + e.length ≤ b.memory.length then
      some (.pushed true,
        { b with
          data := b.data.map fun mem => mem.take b.T ++ e ++ mem.drop (b.T + e.length)
          T := b.T + e.length })
    else none
  | .pull es =>
    if es ≤ b.T - b.H then
      if b.H + es ≤ b.memory.length then
        some (.pulled ((b.memory.drop b.H).take es), { b with H := b.H + es })
      else none
    else some (.thrown, b)
  | .move size =>
    if size ≤ b.size then some (.moved true, { b with H := b.H + size }) else some (.moved false, b)

/-- `reset`. -/
def reset (b : HeapBoard) : HeapBoard := { b with H := 0, T := 0 }

/-- `clear`: only what is owned has its indices set. -/
def clear (b : HeapBoard) : HeapBoard :=
  if b.own && b.data.isSome then ⟨none, false, b.T, b.T, b.T⟩ else { b with data := none }

/-- `copyfrom(data, sz)`. -/
def copyfrom (b : HeapBoard) (d : Bytes) : HeapBoard :=
  if d ≠ [] then ⟨some d, true, 0, d.length, d.length⟩ else b

/-- `copyfrom(hb.data, hb.M)` unless the pointer is null; none when `hb` has less memory. -/
def copyOf (b hb : HeapBoard) : Option HeapBoard :=
  match hb.data with
  | none => some b
  | some mem => if hb.M ≤ mem.length then some (b.copyfrom (mem.take hb.M)) else none

/-- `seal`: the unread bytes are moved to memory of their size, and the indices stay. -/
def sealBoard (b : HeapBoard) : Option (Bool × HeapBoard) :=
  if b.own && b.size ≠ 0 && b.size < b.M - b.M / 2 then
    if b.H + b.size ≤ b.memory.length then
      some (true, { b with data := some ((b.memory.drop b.H).take b.size) })
    else none
  else some (false, b)

/-- `release`: the first bytes of what `seal` leaves, as many as are unread. -/
def release (b : HeapBoard) : Option (Bytes × HeapBoard) :=
  if b.size ≠ 0 then
    b.sealBoard.map fun p => (p.2.memory.take p.2.size, clear { p.2 with own := false })
  else some ([], b)

end HeapBoard

open HeapBoard

/-- The boards of a program, by number; one that was not constructed is null. -/
abbrev Boards := ℕ → HeapBoard

namespace Boards

inductive Op where
  | ofSize (i : ℕ) (mem : Bytes)
  | ofBytes (i : ℕ) (buf : Option Bytes) (own : Bool)
  | call (i : ℕ) (op : Breadboard.Op)
  | reset (i : ℕ)
  | copyConstruct (i j : ℕ)
  | copyAssign (i j : ℕ)
  | moveConstruct (i j : ℕ)
  | moveAssign (i j : ℕ)
  | copyfrom (i : ℕ) (d : Bytes)
  | sealBoard (i : ℕ)
  | clear (i : ℕ)
  | release (i : ℕ)

inductive Answer where
  | done
  | called (a : Breadboard.Answer)
  | sealed (ok : Bool)
  | released (d : Bytes)
  | undefined
deriving DecidableEq

/-- One operation, with the target first; the target of a construction is a new board. -/
def step (bs : Boards) : Op → Answer × Boards
  | .ofSize i mem => (.done, Function.update bs i (ofSize mem))
  | .ofBytes i buf own => (.done, Function.update bs i (ofBytes buf own))
  | .call i op =>
    match (bs i).call op with
    | none => (.undefined, bs)
    | some (a, b) => (.called a, Function.update bs i b)
  | .reset i => (.done, Function.update bs i (bs i).reset)
  | .copyConstruct i j =>
    match null.copyOf (bs j) with
    | none => (.undefined, bs)
    | some b => (.done, Function.update bs i b)
  | .copyAssign i j =>
    -- a board that owns its memory frees it before it copies from it
    if i = j ∧ (bs i).own = true ∧ (bs i).data.isSome ∧ (bs i).M ≠ 0 then (.undefined, bs)
    else
      match (bs i).copyOf (bs j) with
      | none => (.undefined, bs)
      | some b => (.done, Function.update bs i b)
  | .moveConstruct i j => (.done, Function.update (Function.update bs j null) i (bs j))
  | .moveAssign i j => (.done, Function.update (Function.update bs i (bs j)) j null)
  | .copyfrom i d => (.done, Function.update bs i ((bs i).copyfrom d))
  | .sealBoard i =>
    match (bs i).sealBoard with
    | none => (.undefined, bs)
    | some (ok, b) => (.sealed ok, Function.update bs i b)
  | .clear i => (.done, Function.update bs i (bs i).clear)
  | .release i =>
    match (bs i).release with
    | none => (.undefined, bs)
    | some (d, b) => (.released d, Function.update bs i b)

end Boards

namespace HeapBoard

/-- The indices are in order, within the memory allocated. -/
structure Valid (b : HeapBoard) : Prop where
  read_le : b.H ≤ b.T
  write_le : b.T ≤ b.M
  room : b.M ≤ b.memory.length

/-- The board is moved to new memory by `sealBoard`. -/
def Seals (b : HeapBoard) : Prop := b.own = true ∧ b.size ≠ 0 ∧ b.size < b.M - b.M / 2

/-- All the bytes are unread, from the first one on. -/
def Whole (b : HeapBoard) : Prop := b.H = 0 ∧ b.T = b.M

variable {b b' hb : HeapBoard}

theorem valid_null : null.Valid := ⟨le_rfl, le_rfl, le_rfl⟩

@[simp] theorem unread_null : null.unread = [] := rfl

theorem Valid.length_unread (h : b.Valid) : b.unread.length = b.size := by
  have hT := h.write_le.trans h.room
  simp only [unread, size, List.length_drop, List.length_take]
  omega

theorem Valid.unread_eq_nil_iff (h : b.Valid) : b.unread = [] ↔ b.size = 0 := by
  rw [← List.length_eq_zero_iff, h.length_unread]

/-- A board without memory has nothing to read. -/
theorem Valid.unread_of_zero (h : b.Valid) (hM : b.M = 0) : b.unread = [] := by
  refine h.unread_eq_nil_iff.mpr ?_
  have hwrite := h.write_le
  rw [size]
  omega

/-- A board with memory has data. -/
theorem Valid.data_isSome (h : b.Valid) (hM : b.M ≠ 0) : b.data.isSome := by
  have hroom := h.room
  rw [memory] at hroom
  cases hd : b.data with
  | some mem => rfl
  | none =>
    rw [hd] at hroom
    exact absurd (Nat.le_zero.mp hroom) hM

theorem valid_ofSize (mem : Bytes) : (ofSize mem).Valid := ⟨le_rfl, Nat.zero_le _, le_rfl⟩

theorem valid_ofBytes (buf : Option Bytes) (own : Bool) : (ofBytes buf own).Valid :=
  ⟨Nat.zero_le _, le_rfl, le_rfl⟩

theorem Valid.reset (h : b.Valid) : b.reset.Valid := ⟨le_rfl, Nat.zero_le _, h.room⟩

/-- The queue that a board stands for. -/
def queue (b : HeapBoard) : Breadboard.Queue := ⟨b.unread, b.M - b.T⟩

/-- **The inherited calls** are defined, and are those on the queue. -/
theorem Valid.call_refines (h : b.Valid) (op : Breadboard.Op) :
    ∃ a b', b.call op = some (a, b') ∧ (a, b'.queue) = b.queue.step op ∧ b'.Valid := by
  have hread := h.read_le
  have hwrite := h.write_le
  have hroom := h.room
  have hlen := h.length_unread
  have hsize : b.size = b.T - b.H := rfl
  cases op with
  | push e =>
    by_cases hover : b.queue.Overrun (.push e)
    · exact ⟨.thrown, b, if_pos hover, (Breadboard.Queue.step_of_overrun hover).symm, h⟩
    · have hle : e.length ≤ b.M - b.T := not_lt.mp hover
      have hfits : b.T + e.length ≤ b.memory.length := by omega
      -- the memory keeps its size, and a null pointer takes no bytes
      have hput : (b.data.map fun mem => mem.take b.T ++ e ++ mem.drop (b.T + e.length)).getD [] =
          b.memory.take b.T ++ e ++ b.memory.drop (b.T + e.length) := by
        rw [memory] at hfits ⊢
        cases hdata : b.data with
        | some mem => rfl
        | none =>
          rw [hdata] at hfits
          obtain rfl : e = [] := List.length_eq_zero_iff.mp (Nat.le_zero.mp (by
            simpa using le_trans (Nat.le_add_left _ _) hfits))
          simp
      refine ⟨_, _, (if_neg hover).trans (if_pos hfits), ?_, ?_⟩
      · have hqueue : b.queue.step (.push e) = _ := if_neg hover
        rw [hqueue]
        simp only [queue, unread, memory, Prod.mk.injEq, Breadboard.Queue.mk.injEq, true_and]
        refine ⟨?_, (Nat.sub_sub _ _ _).symm⟩
        rw [hput, Breadboard.drop_take_put hread (hwrite.trans hroom)]
        rfl
      · refine ⟨hread.trans (Nat.le_add_right _ _), ?_, ?_⟩
        · show b.T + e.length ≤ b.M
          omega
        · show b.M ≤ (Option.getD _ []).length
          rw [hput, Breadboard.length_put hfits]
          exact hroom
  | pull es =>
    by_cases hover : b.queue.Overrun (.pull es)
    · have hlt : b.unread.length < es := hover
      exact ⟨.thrown, b, if_neg (by omega), (Breadboard.Queue.step_of_overrun hover).symm, h⟩
    · have hle : es ≤ b.unread.length := not_lt.mp hover
      refine ⟨_, _, (if_pos (by omega)).trans (if_pos (by omega)), ?_, ⟨?_, hwrite, hroom⟩⟩
      · have hqueue : b.queue.step (.pull es) = _ := if_neg hover
        have hbytes : (b.memory.drop b.H).take es = b.unread.take es := by
          rw [unread, List.drop_take, List.take_take, min_eq_left (by omega)]
        rw [hqueue, hbytes]
        simp only [queue, unread, memory, List.drop_drop]
      · show b.H + es ≤ b.T
        omega
  | move size =>
    by_cases hover : b.queue.Overrun (.move size)
    · have hlt : b.unread.length < size := hover
      exact ⟨.moved false, b, if_neg (by omega), (Breadboard.Queue.step_of_overrun hover).symm, h⟩
    · have hle : size ≤ b.unread.length := not_lt.mp hover
      refine ⟨_, _, if_pos (by omega), ?_, ⟨?_, hwrite, hroom⟩⟩
      · have hqueue : b.queue.step (.move size) = _ := if_neg hover
        rw [hqueue]
        simp only [queue, unread, memory, List.drop_drop]
      · show b.H + size ≤ b.T
        omega

/-- What is copied from a board is all of its memory, up to `M`. -/
theorem Valid.copyOf_eq (h : hb.Valid) (b : HeapBoard) :
    ∃ b', b.copyOf hb = some b' ∧ (b.Valid → b'.Valid) ∧
      (hb.M = 0 → b' = b) ∧ (hb.M ≠ 0 → b'.unread = hb.memory.take hb.M) := by
  have hroom := h.room
  rw [copyOf, memory] at *
  cases hdata : hb.data with
  | none =>
    rw [hdata] at hroom
    exact ⟨b, rfl, id, fun _ => rfl, fun hM => absurd (Nat.le_zero.mp hroom) hM⟩
  | some mem =>
    rw [hdata] at hroom
    refine ⟨_, if_pos hroom, ?_⟩
    rw [copyfrom]
    by_cases hM : hb.M = 0
    · rw [hM, List.take_zero, if_neg (not_not.mpr rfl)]
      exact ⟨id, fun _ => rfl, fun h => absurd rfl h⟩
    · have hlen : (mem.take hb.M).length = hb.M := List.length_take_of_le hroom
      have hne : mem.take hb.M ≠ [] := by
        intro hnil
        rw [hnil] at hlen
        exact hM hlen.symm
      rw [if_pos hne]
      refine ⟨fun _ => ⟨Nat.zero_le _, le_rfl, le_rfl⟩, fun h => absurd h hM, fun _ => ?_⟩
      show ((mem.take hb.M).take (mem.take hb.M).length).drop 0 = _
      rw [List.take_length, List.drop_zero]
      rfl

/-- All of the memory is unread only of a whole board. -/
theorem Valid.unread_eq_take_iff (h : b.Valid) : b.memory.take b.M = b.unread ↔ b.Whole := by
  have hread := h.read_le
  have hwrite := h.write_le
  constructor
  · intro heq
    have hlen := congrArg List.length heq
    rw [List.length_take_of_le h.room, h.length_unread, size] at hlen
    rw [Whole]
    omega
  · rintro ⟨hH, hT⟩
    rw [unread, hH, hT, List.drop_zero]

theorem Valid.clear_valid_iff (h : b.Valid) :
    b.clear.Valid ↔ if b.own = true ∧ b.data.isSome then b.T = 0 else b.M = 0 := by
  rw [clear]
  by_cases howned : b.own = true ∧ b.data.isSome
  · rw [if_pos (by simpa using howned), if_pos howned]
    exact ⟨fun hv => Nat.le_zero.mp hv.room, fun hT => ⟨le_rfl, le_rfl, hT.le⟩⟩
  · rw [if_neg (by simpa using howned), if_neg howned]
    exact ⟨fun hv => Nat.le_zero.mp hv.room, fun hM => ⟨h.read_le, h.write_le, hM.le⟩⟩

/-- New memory of the size of the unread bytes has no room for the indices. -/
theorem Valid.sealBoard_eq (h : b.Valid) :
    (¬ b.Seals → b.sealBoard = some (false, b)) ∧
      (b.Seals → ∃ b', b.sealBoard = some (true, b') ∧ ¬ b'.Valid) := by
  have hcond : (b.own && b.size ≠ 0 && b.size < b.M - b.M / 2) = true ↔ b.Seals := by
    simp [Seals, and_assoc]
  rw [sealBoard]
  refine ⟨fun hseals => if_neg (hcond.not.mpr hseals), fun hseals => ?_⟩
  have hread := h.read_le
  have hroom := h.write_le.trans h.room
  have hsize : b.size = b.T - b.H := rfl
  refine ⟨_, (if_pos (hcond.mpr hseals)).trans (if_pos (by omega)), fun hv => ?_⟩
  have hlen : b.M ≤ ((b.memory.drop b.H).take b.size).length := hv.room
  have hsmall := hseals.2.2
  rw [List.length_take] at hlen
  omega

/-- What has unread bytes is not left empty: the indices stay where they are. -/
theorem Valid.release_eq (h : b.Valid) :
    (b.size = 0 → b.release = some ([], b)) ∧
      (b.size ≠ 0 → ∃ d b', b.release = some (d, b') ∧ ¬ b'.Valid) := by
  refine ⟨fun hsize => if_neg (not_not.mpr hsize), fun hsize => ?_⟩
  have hindex : b.M ≠ 0 := by
    intro hM
    have hread := h.write_le
    have hdef : b.size = b.T - b.H := rfl
    omega
  have hclear : ∀ b' : HeapBoard, b'.M = b.M → ¬ (clear { b' with own := false }).Valid := by
    intro b' hM hv
    exact hindex (hM ▸ Nat.le_zero.mp hv.room)
  rw [release, if_pos hsize]
  by_cases hseals : b.Seals
  · obtain ⟨b', hb', -⟩ := h.sealBoard_eq.2 hseals
    have hM : b'.M = b.M := by
      rw [sealBoard] at hb'
      split_ifs at hb'
      · obtain ⟨-, rfl⟩ := Prod.mk.inj (Option.some.inj hb')
        rfl
      · obtain ⟨hfalse, -⟩ := Prod.mk.inj (Option.some.inj hb')
        cases hfalse
    rw [hb']
    exact ⟨_, _, rfl, hclear b' hM⟩
  · rw [h.sealBoard_eq.1 hseals]
    exact ⟨_, _, rfl, hclear b rfl⟩

end HeapBoard

namespace Boards

variable {bs : Boards}

/-- What an operation does to the unread bytes: copying and moving take them along, sealing
keeps them, and releasing hands them out. -/
def Kept (m : Move Boards Op Answer) : Prop :=
  match m.input with
  | .copyConstruct i j | .copyAssign i j =>
    (m.after i).unread = (m.before j).unread ∧ (i ≠ j → (m.after j).unread = (m.before j).unread)
  | .moveConstruct i j | .moveAssign i j => (m.after i).unread = (m.before j).unread
  | .sealBoard i => (m.after i).unread = (m.before i).unread
  | .release i => m.output = .released (m.before i).unread ∧ (m.after i).size = 0
  | _ => True

/-- An operation that is defined and leaves all boards valid, with the right unread bytes. -/
structure Right (m : Move Boards Op Answer) : Prop where
  answered : m.output ≠ .undefined
  valid : ∀ i, (m.after i).Valid
  kept : Kept m

/-- The operations that are right: copies of boards that are whole or have no memory, no
`sealBoard` that does anything, `clear` of boards without bytes in their memory, `release` of
boards that are empty. -/
def Allowed (bs : Boards) : Op → Prop
  | .copyConstruct _ j => (bs j).M = 0 ∨ (bs j).Whole
  | .copyAssign i j =>
    if (bs j).M = 0 then (bs i).size = 0 else (bs j).Whole ∧ ¬ (i = j ∧ (bs i).own = true)
  | .moveAssign i j => i = j → (bs i).size = 0
  | .sealBoard i => ¬ (bs i).Seals
  | .clear i => if (bs i).own = true ∧ (bs i).data.isSome then (bs i).T = 0 else (bs i).M = 0
  | .release i => (bs i).size = 0
  | _ => True

instance (b : HeapBoard) : Decidable b.Seals := inferInstanceAs (Decidable (_ ∧ _ ∧ _))

instance (b : HeapBoard) : Decidable b.Whole := inferInstanceAs (Decidable (_ ∧ _))

instance : DecidablePred (Allowed bs)
  | .copyConstruct _ _ => inferInstanceAs (Decidable (_ ∨ _))
  | .copyAssign i j => inferInstanceAs (Decidable (if (bs j).M = 0 then (bs i).size = 0
      else (bs j).Whole ∧ ¬ (i = j ∧ (bs i).own = true)))
  | .moveAssign i j => inferInstanceAs (Decidable (i = j → (bs i).size = 0))
  | .sealBoard _ => inferInstanceAs (Decidable (¬ _))
  | .clear i => inferInstanceAs
      (Decidable (if (bs i).own = true ∧ (bs i).data.isSome then (bs i).T = 0 else (bs i).M = 0))
  | .release _ => inferInstanceAs (Decidable (_ = _))
  | .ofSize .. | .ofBytes .. | .call .. | .reset _ | .moveConstruct .. | .copyfrom .. =>
    inferInstanceAs (Decidable True)

theorem valid_update_iff (h : ∀ i, (bs i).Valid) {i : ℕ} {b : HeapBoard} :
    (∀ k, (Function.update bs i b k).Valid) ↔ b.Valid := by
  constructor
  · intro hv
    simpa using hv i
  · intro hb k
    rcases eq_or_ne k i with rfl | hne
    · rwa [Function.update_self]
    · rw [Function.update_of_ne hne]
      exact h k

/-- An operation that is answered and replaces one board. -/
theorem right_iff (h : ∀ i, (bs i).Valid) {op : Op} {a : Answer} {i : ℕ} {b : HeapBoard}
    (ha : a ≠ .undefined) : Right ⟨bs, op, a, Function.update bs i b⟩ ↔
      b.Valid ∧ Kept ⟨bs, op, a, Function.update bs i b⟩ :=
  ⟨fun hr => ⟨(valid_update_iff h).mp hr.valid, hr.kept⟩,
    fun hb => ⟨ha, (valid_update_iff h).mpr hb.1, hb.2⟩⟩

/-- A copy is right when it has the unread bytes of the other board. -/
theorem kept_copy_iff {op : Op} {a : Answer} {i j : ℕ} {b : HeapBoard}
    (hop : op = .copyConstruct i j ∨ op = .copyAssign i j) :
    Kept ⟨bs, op, a, Function.update bs i b⟩ ↔ b.unread = (bs j).unread := by
  have hboth : ((Function.update bs i b i).unread = (bs j).unread ∧
      (i ≠ j → (Function.update bs i b j).unread = (bs j).unread)) ↔ b.unread = (bs j).unread := by
    rw [Function.update_self]
    exact and_iff_left fun hne => by rw [Function.update_of_ne (Ne.symm hne)]
  rcases hop with rfl | rfl
  · exact hboth
  · exact hboth

/-- A copy over a board. -/
theorem right_copyAssign (h : ∀ i, (bs i).Valid) (i j : ℕ) :
    Right ⟨bs, .copyAssign i j, (bs.step (.copyAssign i j)).1,
      (bs.step (.copyAssign i j)).2⟩ ↔ Allowed bs (.copyAssign i j) := by
  have hdone : Answer.done ≠ .undefined := by decide
  obtain ⟨b, hcopy, hvalid, hzero, hsome⟩ := (h j).copyOf_eq (bs i)
  rw [step, Allowed]
  by_cases hM : (bs j).M = 0
  · have hself : ¬ (i = j ∧ (bs i).own = true ∧ (bs i).data.isSome ∧ (bs i).M ≠ 0) := by
      rintro ⟨rfl, -, -, hne⟩
      exact hne hM
    obtain rfl := hzero hM
    rw [if_neg hself, if_pos hM, hcopy]
    show Right ⟨bs, _, .done, Function.update bs i (bs i)⟩ ↔ _
    rw [right_iff h hdone, Function.update_eq_self, and_iff_right (h i)]
    show (_ = _ ∧ _) ↔ _
    rw [(h j).unread_of_zero hM, (h i).unread_eq_nil_iff]
    exact and_iff_left fun _ => rfl
  · rw [if_neg hM]
    by_cases hself : i = j ∧ (bs i).own = true
    · -- the memory is read after it was freed
      obtain ⟨rfl, hown⟩ := hself
      rw [if_pos ⟨rfl, hown, (h i).data_isSome hM, hM⟩]
      exact iff_of_false (fun hr => hr.answered rfl) fun hallowed => hallowed.2 ⟨rfl, hown⟩
    · rw [if_neg fun hall => hself ⟨hall.1, hall.2.1⟩, hcopy]
      show Right ⟨bs, _, .done, Function.update bs i b⟩ ↔ _
      rw [right_iff h hdone, and_iff_right (hvalid (h i)), kept_copy_iff (.inr rfl), hsome hM,
        (h j).unread_eq_take_iff]
      exact (and_iff_left hself).symm

/-- **One operation** on valid boards is right exactly when it is allowed. -/
theorem step_right_iff (h : ∀ i, (bs i).Valid) (op : Op) :
    Right ⟨bs, op, (bs.step op).1, (bs.step op).2⟩ ↔ Allowed bs op := by
  have hdone : Answer.done ≠ .undefined := by decide
  cases op with
  | ofSize i mem =>
    show Right ⟨bs, _, .done, Function.update bs i (ofSize mem)⟩ ↔ True
    rw [right_iff h hdone]
    exact iff_of_true ⟨valid_ofSize mem, trivial⟩ trivial
  | ofBytes i buf own =>
    show Right ⟨bs, _, .done, Function.update bs i (ofBytes buf own)⟩ ↔ True
    rw [right_iff h hdone]
    exact iff_of_true ⟨valid_ofBytes buf own, trivial⟩ trivial
  | call i op =>
    obtain ⟨a, b', hcall, -, hvalid⟩ := (h i).call_refines op
    rw [step, hcall]
    show Right ⟨bs, _, .called a, Function.update bs i b'⟩ ↔ True
    rw [right_iff h (by simp)]
    exact iff_of_true ⟨hvalid, trivial⟩ trivial
  | reset i =>
    show Right ⟨bs, _, .done, Function.update bs i (bs i).reset⟩ ↔ True
    rw [right_iff h hdone]
    exact iff_of_true ⟨(h i).reset, trivial⟩ trivial
  | copyConstruct i j =>
    obtain ⟨b, hcopy, hvalid, hzero, hsome⟩ := (h j).copyOf_eq null
    rw [step, hcopy]
    show Right ⟨bs, _, .done, Function.update bs i b⟩ ↔ (bs j).M = 0 ∨ (bs j).Whole
    rw [right_iff h hdone, and_iff_right (hvalid valid_null), kept_copy_iff (.inl rfl)]
    by_cases hM : (bs j).M = 0
    · -- the copy is null, and the board has no bytes to copy
      refine iff_of_true ?_ (.inl hM)
      rw [hzero hM, unread_null, (h j).unread_of_zero hM]
    · rw [hsome hM, (h j).unread_eq_take_iff]
      exact (or_iff_right hM).symm
  | copyAssign i j =>
    exact right_copyAssign h i j
  | moveConstruct i j =>
    have hnull : ∀ k, (Function.update bs j null k).Valid := (valid_update_iff h).mpr valid_null
    show Right ⟨bs, _, .done, Function.update (Function.update bs j null) i (bs j)⟩ ↔ True
    refine iff_of_true ⟨hdone, (valid_update_iff hnull).mpr (h j), ?_⟩ trivial
    show (Function.update (Function.update bs j null) i (bs j) i).unread = (bs j).unread
    rw [Function.update_self]
  | moveAssign i j =>
    have hmoved : ∀ k, (Function.update bs i (bs j) k).Valid := (valid_update_iff h).mpr (h j)
    show Right ⟨bs, _, .done, Function.update (Function.update bs i (bs j)) j null⟩ ↔ _
    have hvalid := (valid_update_iff (i := j) hmoved).mpr valid_null
    have hkept : Kept ⟨bs, .moveAssign i j, .done,
        Function.update (Function.update bs i (bs j)) j null⟩ ↔ (i = j → (bs i).size = 0) := by
      show (Function.update (Function.update bs i (bs j)) j null i).unread = (bs j).unread ↔ _
      rcases eq_or_ne i j with rfl | hne
      · rw [Function.update_self, unread_null, eq_comm, (h i).unread_eq_nil_iff]
        exact ⟨fun hsize _ => hsize, fun hsize => hsize rfl⟩
      · rw [Function.update_of_ne hne, Function.update_self]
        exact iff_of_true rfl fun heq => absurd heq hne
    exact ⟨fun hr => hkept.mp hr.kept, fun hallowed => ⟨hdone, hvalid, hkept.mpr hallowed⟩⟩
  | copyfrom i d =>
    show Right ⟨bs, _, .done, Function.update bs i ((bs i).copyfrom d)⟩ ↔ True
    rw [right_iff h hdone]
    refine iff_of_true ⟨?_, trivial⟩ trivial
    rw [copyfrom]
    split_ifs
    · exact ⟨Nat.zero_le _, le_rfl, le_rfl⟩
    · exact h i
  | sealBoard i =>
    rw [step]
    show _ ↔ ¬ (bs i).Seals
    by_cases hseals : (bs i).Seals
    · obtain ⟨b, hb, hvalid⟩ := (h i).sealBoard_eq.2 hseals
      rw [hb]
      show Right ⟨bs, _, .sealed true, Function.update bs i b⟩ ↔ _
      rw [right_iff h (by simp)]
      exact iff_of_false (fun hr => hvalid hr.1) (not_not.mpr hseals)
    · rw [(h i).sealBoard_eq.1 hseals]
      show Right ⟨bs, _, .sealed false, Function.update bs i (bs i)⟩ ↔ _
      rw [right_iff h (by simp), Function.update_eq_self]
      exact iff_of_true ⟨h i, rfl⟩ hseals
  | clear i =>
    show Right ⟨bs, _, .done, Function.update bs i (bs i).clear⟩ ↔ _
    rw [right_iff h hdone, (h i).clear_valid_iff]
    exact and_iff_left trivial
  | release i =>
    rw [step]
    show _ ↔ (bs i).size = 0
    by_cases hsize : (bs i).size = 0
    · rw [(h i).release_eq.1 hsize]
      show Right ⟨bs, _, .released [], Function.update bs i (bs i)⟩ ↔ _
      rw [right_iff h (by simp), Function.update_eq_self]
      refine iff_of_true ⟨h i, ?_, hsize⟩ hsize
      show Answer.released [] = .released (bs i).unread
      rw [(h i).unread_eq_nil_iff.mpr hsize]
    · obtain ⟨d, b, hb, hvalid⟩ := (h i).release_eq.2 hsize
      rw [hb]
      show Right ⟨bs, _, .released d, Function.update bs i b⟩ ↔ _
      rw [right_iff h (by simp)]
      exact iff_of_false (fun hr => hvalid hr.1) hsize

/-- The boards as a machine. -/
def machine (bs : Boards) (op : Op) : Option (Answer × Boards) := some (bs.step op)

/-- **The runs that are right throughout** are those of allowed operations. -/
theorem run_right_iff {ms : List (Move Boards Op Answer)} {bs : Boards}
    (h : Run machine (fun _ => null) ms bs) :
    (∀ m ∈ ms, Right m) ↔ ∀ m ∈ ms, Allowed m.before m.input := by
  refine h.moves_iff (K := fun bs => ∀ i, (bs i).Valid) (fun _ => valid_null) ?_
  intro u op a v hvalid hstep
  obtain ⟨rfl, rfl⟩ := Prod.mk.inj (Option.some.inj hstep)
  have hiff := step_right_iff hvalid op
  exact ⟨hiff, fun hallowed => (hiff.mpr hallowed).valid⟩

/-- A board that was moved from is empty, and its copies are whole. -/
theorem run_right_of_moves :
    let calls : List Op := [.ofSize 0 [0, 0, 0, 0], .call 0 (.push [1, 2, 3, 4]), .copyConstruct 1 0,
      .moveConstruct 2 0, .call 1 (.pull 2), .moveAssign 0 1, .release 1, .copyAssign 3 2, .reset 2,
      .clear 2]
    (∀ m ∈ moves machine (fun _ => null) calls, Right m) ∧
      (final machine (fun _ => null) calls 0).unread = [3, 4] :=
  ⟨(run_right_iff (run_final machine (fun _ => null) _)).mpr (by decide), by decide⟩

/-- A copy of a board that was read from has its first bytes unread again. -/
theorem not_run_right :
    let calls : List Op := [.ofBytes 0 (some [1, 2, 3, 4]) false, .call 0 (.pull 2),
      .copyConstruct 1 0]
    Run machine (fun _ => null) (moves machine (fun _ => null) calls)
        (final machine (fun _ => null) calls) ∧
      ¬ ∀ m ∈ moves machine (fun _ => null) calls, Right m := by
  refine ⟨run_final _ _ _, fun hright => ?_⟩
  have hlast := hright _ (List.mem_of_getLast? rfl)
  have hkept := hlast.kept.1
  revert hkept
  decide

end Boards
end Suil
