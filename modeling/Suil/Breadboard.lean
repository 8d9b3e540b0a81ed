/-
The board that bytes are written to and read from.

A `Breadboard` is a buffer with two positions: bytes are written behind `T` and
read from `H`.  Neither position ever goes back, so a board is a queue that
takes as many bytes as its buffer has, over its whole life.

* `step_refines` — a call on the board is a call on a bounded queue;
* `run_fifo` — what was pushed is what was consumed and what is unread, in this
  order, and a call that does not fit changes nothing.
-/
import Suil.Core
import Suil.Lib.Runs

open Runs

namespace Suil

/-- `sink`, of which all `M` bytes are listed, and the positions. -/
structure Breadboard where
  sink : Bytes
  H : ℕ
  T : ℕ
  read_le : H ≤ T
  write_le : T ≤ sink.length

namespace Breadboard

def M (b : Breadboard) : ℕ := b.sink.length

/-- `size`. -/
def size (b : Breadboard) : ℕ := b.T - b.H

/-- `Breadboard(buf, sz)`. -/
def new (buf : Bytes) : Breadboard := ⟨buf, 0, 0, le_rfl, Nat.zero_le _⟩

/-- The bytes of `raw`. -/
def unread (b : Breadboard) : Bytes := (b.sink.take b.T).drop b.H

/-- `forward`; like the calls below it is none when it throws. -/
def forward (b : Breadboard) (e : Bytes) : Option Breadboard :=
  if h : b.M - b.T < e.length then none
  else some
    { b with
      sink := b.sink.take b.T ++ e ++ b.sink.drop (b.T + e.length)
      T := b.T + e.length
      read_le := b.read_le.trans (Nat.le_add_right _ _)
      write_le := by
        have hM : b.M = b.sink.length := rfl
        have hT := b.write_le
        simp only [List.length_append, List.length_take, List.length_drop]
        omega }

/-- `reverse`: the bytes read. -/
def reverse (b : Breadboard) (es : ℕ) : Option (Bytes × Breadboard) :=
  if h : es ≤ b.T - b.H then
    some ((b.sink.drop b.H).take es,
      { b with
        H := b.H + es
        read_le := by
          have hH := b.read_le
          omega })
  else none

/-- `move`. -/
def move (b : Breadboard) (size : ℕ) : Bool × Breadboard :=
  if h : size ≤ b.size then
    (true,
      { b with
        H := b.H + size
        read_le := by
          have hH := b.read_le
          have hsize : b.size = b.T - b.H := rfl
          omega })
  else (false, b)

/-- The calls of `Wire`: `push`, `pull` and `move`. -/
inductive Op where
  | push (e : Bytes)
  | pull (es : ℕ)
  | move (size : ℕ)

/-- What a call answers. -/
inductive Answer where
  | pushed (ok : Bool)
  | pulled (e : Bytes)
  | moved (ok : Bool)
  | thrown
deriving DecidableEq

/-- One call. -/
def step (b : Breadboard) : Op → Answer × Breadboard
  | .push e =>
    match b.forward e with
    | none => (.thrown, b)
    | some b' => (.pushed true, b')
  | .pull es =>
    match b.reverse es with
    | none => (.thrown, b)
    | some (e, b') => (.pulled e, b')
  | .move size => (.moved (b.move size).1, (b.move size).2)

/-! ### The bounded queue -/

/-- A queue of bytes, and how many it still takes. -/
structure Queue where
  bytes : Bytes
  room : ℕ

/-- The call asks for more than there is. -/
def Queue.Overrun (q : Queue) : Op → Prop
  | .push e => q.room < e.length
  | .pull es => q.bytes.length < es
  | .move size => q.bytes.length < size

instance (q : Queue) (op : Op) : Decidable (q.Overrun op) := by
  cases op <;> exact inferInstanceAs (Decidable (_ < _))

/-- A call that is refused. -/
def Op.refusal : Op → Answer
  | .move _ => .moved false
  | _ => .thrown

/-- The calls on a queue. -/
def Queue.step (q : Queue) (op : Op) : Answer × Queue :=
  if q.Overrun op then (op.refusal, q)
  else
    match op with
    | .push e => (.pushed true, ⟨q.bytes ++ e, q.room - e.length⟩)
    | .pull es => (.pulled (q.bytes.take es), ⟨q.bytes.drop es, q.room⟩)
    | .move size => (.moved true, ⟨q.bytes.drop size, q.room⟩)

theorem Queue.step_of_overrun {q : Queue} {op : Op} (h : q.Overrun op) :
    q.step op = (op.refusal, q) :=
  if_pos h

/-- The queue that a board stands for. -/
def queue (b : Breadboard) : Queue := ⟨b.unread, b.M - b.T⟩

variable {b b' : Breadboard}

@[simp] theorem unread_new (buf : Bytes) : (new buf).unread = [] := rfl

@[simp] theorem length_unread (b : Breadboard) : b.unread.length = b.size := by
  have hT := b.write_le
  simp only [unread, size, List.length_drop, List.length_take]
  omega

/-- The bytes from the read position on, as far as they are unread. -/
theorem take_drop_sink {es : ℕ} (h : es ≤ b.size) :
    (b.sink.drop b.H).take es = b.unread.take es := by
  have hsize : b.size = b.T - b.H := rfl
  rw [unread, List.drop_take, List.take_take, min_eq_left (hsize ▸ h)]

/-- Bytes put into memory at `T` are behind those between `H` and `T`. -/
theorem drop_take_put {mem e : Bytes} {H T : ℕ} (hH : H ≤ T) (hT : T ≤ mem.length) :
    ((mem.take T ++ e ++ mem.drop (T + e.length)).take (T + e.length)).drop H =
      (mem.take T).drop H ++ e := by
  have htake : (mem.take T).length = T := List.length_take_of_le hT
  have hlen : (mem.take T ++ e).length = T + e.length := by rw [List.length_append, htake]
  rw [← hlen, List.take_left, List.drop_append_of_le_length (by rwa [htake])]

theorem length_put {mem e : Bytes} {T : ℕ} (h : T + e.length ≤ mem.length) :
    (mem.take T ++ e ++ mem.drop (T + e.length)).length = mem.length := by
  simp only [List.length_append, List.length_take, List.length_drop]
  omega

/-- Bytes that fit are put behind the unread ones. -/
theorem forward_of_fits {e : Bytes} (h : e.length ≤ b.M - b.T) :
    ∃ b', b.forward e = some b' ∧ b'.unread = b.unread ++ e ∧ b'.M = b.M ∧
      b'.T = b.T + e.length ∧ b'.H = b.H := by
  have hM : b.M = b.sink.length := rfl
  have hT := b.write_le
  refine ⟨_, dif_neg (not_lt.mpr h), ?_, ?_, rfl, rfl⟩
  · exact drop_take_put b.read_le b.write_le
  · exact length_put (by omega)

theorem forward_of_overrun {e : Bytes} (h : b.M - b.T < e.length) : b.forward e = none :=
  dif_pos h

/-- Unread bytes are read from the front. -/
theorem reverse_of_fits {es : ℕ} (h : es ≤ b.size) :
    ∃ b', b.reverse es = some (b.unread.take es, b') ∧ b'.unread = b.unread.drop es ∧
      b'.sink = b.sink ∧ b'.T = b.T ∧ b'.H = b.H + es := by
  have hsize : b.size = b.T - b.H := rfl
  rw [reverse, dif_pos (hsize ▸ h), take_drop_sink h]
  refine ⟨_, rfl, ?_, rfl, rfl, rfl⟩
  simp only [unread, List.drop_drop]

theorem reverse_of_overrun {es : ℕ} (h : b.size < es) : b.reverse es = none :=
  dif_neg (not_le.mpr h)

/-- **A call on the board is a call on the queue.** -/
theorem step_refines (b : Breadboard) (op : Op) :
    ((b.step op).1, (b.step op).2.queue) = b.queue.step op ∧
      (b.queue.Overrun op → (b.step op).2 = b) ∧ (b.step op).2.M = b.M := by
  have hlen := length_unread b
  cases op with
  | push e =>
    rcases le_or_gt e.length (b.M - b.T) with hfits | hover
    · obtain ⟨b', hforward, hunread, hM, hT, -⟩ := forward_of_fits hfits
      have hroom : ¬ b.queue.Overrun (.push e) := not_lt.mpr hfits
      rw [Queue.step, if_neg hroom, step, hforward]
      refine ⟨?_, fun h => absurd h hroom, hM⟩
      simp only [queue, hunread, hM, hT, Nat.sub_sub]
    · have hroom : b.queue.Overrun (.push e) := hover
      rw [Queue.step_of_overrun hroom, step, forward_of_overrun hover]
      exact ⟨rfl, fun _ => rfl, rfl⟩
  | pull es =>
    rcases le_or_gt es b.size with hfits | hover
    · obtain ⟨b', hreverse, hunread, hsink, hT, -⟩ := reverse_of_fits hfits
      have hroom : ¬ b.queue.Overrun (.pull es) := not_lt.mpr (hlen ▸ hfits)
      have hM : b'.M = b.M := congrArg List.length hsink
      rw [Queue.step, if_neg hroom, step, hreverse]
      refine ⟨?_, fun h => absurd h hroom, hM⟩
      simp only [queue, hunread, hM, hT]
    · have hroom : b.queue.Overrun (.pull es) := hlen.trans_lt hover
      rw [Queue.step_of_overrun hroom, step, reverse_of_overrun hover]
      exact ⟨rfl, fun _ => rfl, rfl⟩
  | move size =>
    rcases le_or_gt size b.size with hfits | hover
    · have hroom : ¬ b.queue.Overrun (.move size) := not_lt.mpr (hlen ▸ hfits)
      rw [Queue.step, if_neg hroom, step, move, dif_pos hfits]
      refine ⟨?_, fun h => absurd h hroom, rfl⟩
      simp only [queue, unread, M, List.drop_drop]
    · have hroom : b.queue.Overrun (.move size) := hlen.trans_lt hover
      rw [Queue.step_of_overrun hroom, step, move, dif_neg (not_le.mpr hover)]
      exact ⟨rfl, fun _ => rfl, rfl⟩

/-! ### Runs -/

/-- The board as a machine. -/
def machine (b : Breadboard) (op : Op) : Option (Answer × Breadboard) := some (b.step op)

/-- The bytes that a call puts on the board. -/
def put (m : Move Breadboard Op Answer) : Bytes :=
  match m.input, m.output with
  | .push e, .pushed true => e
  | _, _ => []

/-- The bytes that a call takes off the board: those it answers, or those it moves over. -/
def taken (m : Move Breadboard Op Answer) : Bytes :=
  match m.input, m.output with
  | .pull _, .pulled e => e
  | .move size, .moved true => m.before.unread.take size
  | _, _ => []

/-- A call that fits is answered in full; one that does not is refused, and changes
neither the positions nor the contents. -/
def Answered (m : Move Breadboard Op Answer) : Prop :=
  if m.before.queue.Overrun m.input then m.output = m.input.refusal ∧ m.after = m.before
  else
    match m.input with
    | .push _ => m.output = .pushed true
    | .pull es => ∃ e, m.output = .pulled e ∧ e.length = es
    | .move _ => m.output = .moved true

/-- What one call does to the unread bytes. -/
theorem step_unread {op : Op} {a : Answer} (h : b.step op = (a, b')) :
    Answered ⟨b, op, a, b'⟩ ∧
      b.unread ++ put ⟨b, op, a, b'⟩ = taken ⟨b, op, a, b'⟩ ++ b'.unread := by
  obtain ⟨hstep, hover, -⟩ := b.step_refines op
  rw [h] at hstep hover
  rw [Answered]
  simp only
  by_cases hroom : b.queue.Overrun op
  · rw [Queue.step_of_overrun hroom] at hstep
    obtain ⟨rfl, -⟩ := Prod.mk.inj hstep
    obtain rfl : b' = b := hover hroom
    rw [if_pos hroom]
    refine ⟨⟨rfl, rfl⟩, ?_⟩
    cases op <;> simp [put, taken, Op.refusal]
  · rw [if_neg hroom]
    have hqueue : b.queue.step op = _ := if_neg hroom
    rw [hqueue] at hstep
    cases op with
    | push e =>
      obtain ⟨rfl, hqueue⟩ := Prod.mk.inj hstep
      have hunread : b'.unread = b.unread ++ e := congrArg Queue.bytes hqueue
      exact ⟨rfl, by simp [put, taken, hunread]⟩
    | pull es =>
      obtain ⟨rfl, hqueue⟩ := Prod.mk.inj hstep
      have hunread : b'.unread = b.unread.drop es := congrArg Queue.bytes hqueue
      exact ⟨⟨_, rfl, List.length_take_of_le (not_lt.mp hroom)⟩,
        by simp [put, taken, hunread, queue]⟩
    | move size =>
      obtain ⟨rfl, hqueue⟩ := Prod.mk.inj hstep
      have hunread : b'.unread = b.unread.drop size := congrArg Queue.bytes hqueue
      exact ⟨rfl, by simp [put, taken, hunread]⟩

/-- **First in, first out**: in every run on a fresh board the bytes pushed are those
consumed, followed by those unread; so many are unread as were pushed and not consumed. -/
theorem run_fifo {buf : Bytes} {ms : List (Move Breadboard Op Answer)} {b : Breadboard}
    (h : Run machine (new buf) ms b) :
    b.M = buf.length ∧ (∀ m ∈ ms, Answered m) ∧ ms.flatMap put = ms.flatMap taken ++ b.unread ∧
      b.size = (ms.flatMap put).length - (ms.flatMap taken).length := by
  have hrun : b.M = buf.length ∧ (∀ m ∈ ms, Answered m) ∧
      ms.flatMap put = ms.flatMap taken ++ b.unread := by
    refine h.rule (G := fun _ _ => True)
      (J := fun ms b => b.M = buf.length ∧ (∀ m ∈ ms, Answered m) ∧
        ms.flatMap put = ms.flatMap taken ++ b.unread)
      ⟨rfl, by simp, by simp⟩ ?_ fun _ _ => trivial
    rintro ms u op a v ⟨hM, hanswered, hqueue⟩ - hstep
    have hstep : u.step op = (a, v) := Option.some.inj hstep
    obtain ⟨hmove, hunread⟩ := step_unread hstep
    have hsize := (u.step_refines op).2.2
    rw [hstep] at hsize
    refine ⟨hsize.trans hM, ?_, ?_⟩
    · simpa only [List.forall_mem_append, List.forall_mem_singleton] using ⟨hanswered, hmove⟩
    · rw [List.flatMap_append, List.flatMap_append, hqueue, List.append_assoc, List.append_assoc]
      simp only [List.flatMap_singleton, hunread]
  refine ⟨hrun.1, hrun.2.1, hrun.2.2, ?_⟩
  rw [hrun.2.2, List.length_append, length_unread]
  omega

/-- Four bytes are all that a board of four bytes takes, also when some were read. -/
theorem run_fifo_four :
    let calls : List Op := [.push [1, 2, 3], .pull 2, .push [4, 5], .push [6], .move 1, .pull 2]
    (moves machine (new [0, 0, 0, 0]) calls).map Move.output =
        [.pushed true, .pulled [1, 2], .thrown, .pushed true, .moved true, .thrown] ∧
      (moves machine (new [0, 0, 0, 0]) calls).flatMap put =
        (moves machine (new [0, 0, 0, 0]) calls).flatMap taken ++
          (final machine (new [0, 0, 0, 0]) calls).unread :=
  ⟨by decide, (run_fifo (run_final machine (new [0, 0, 0, 0]) _)).2.2.1⟩

end Breadboard
end Suil
