/-
The output of a child process (`suil::Process`).

What is read from the child's stdout and stderr goes to a callback or into a queue
with a byte counter beside it; the queue gives up its oldest pieces when the counter
reaches the maximum.  A callback is attached when the queue has been emptied into it.
What is read from stderr while a stderr callback is attached is handed to the callback
of stdout.

* `evict_eq` — the loop of `push`, by the pieces that it leaves;
* `turn_iff` — the steps that keep to their side;
* `keeps_iff` — the runs that do, with their order and their counters.
-/
import Suil.Core
import Suil.Lib.Runs

namespace Suil

namespace Process

/-- A piece of output: what one `read` into the array of 1024 bytes returns. -/
abbrev Piece := { s : Bytes // 0 < s.length ∧ s.length < 1024 }

/-- `Process::IOBuffer`; the deques are written from their backs. -/
structure IOBuffer where
  stderrBytes : ℕ := 0
  stdoutBytes : ℕ := 0
  stdError : List Bytes := []
  stdOutput : List Bytes := []
deriving DecidableEq, Repr

/-- `Process`, as far as its output goes: the callbacks are there or not. -/
structure Output where
  buffer : IOBuffer := {}
  stdoutCallback : Bool := false
  stderrCallback : Bool := false
deriving DecidableEq, Repr

/-- The loop of `push`, on `size_t`. -/
def evict (max : ℕ) : List Bytes → ℕ → List Bytes × ℕ
  | [], sz => ([], sz)
  | b :: buf, sz =>
    if max ≤ sz then evict max buf ((sz + 2 ^ 64 - b.length) % 2 ^ 64) else (b :: buf, sz)

/-- `push(buf, sz, s)`; the source has 0 for the maximum. -/
def push (max : ℕ) (buf : List Bytes) (sz : ℕ) (s : Bytes) : List Bytes × ℕ :=
  let (buf, sz) := evict max buf ((sz + s.length) % 2 ^ 64)
  (buf ++ [s], sz)

/-- `pop(buf, sz)`: the string, the deque and the counter. -/
def pop (buf : List Bytes) (sz : ℕ) : Bytes × List Bytes × ℕ :=
  match buf with
  | [] => ([], [], sz)
  | b :: buf => (b, buf, (sz + 2 ^ 64 - b.length) % 2 ^ 64)

def IOBuffer.writeOutput (max : ℕ) (b : IOBuffer) (s : Bytes) : IOBuffer :=
  { b with
    stdOutput := (push max b.stdOutput b.stdoutBytes s).1
    stdoutBytes := (push max b.stdOutput b.stdoutBytes s).2 }

def IOBuffer.writeError (max : ℕ) (b : IOBuffer) (s : Bytes) : IOBuffer :=
  { b with
    stdError := (push max b.stdError b.stderrBytes s).1
    stderrBytes := (push max b.stdError b.stderrBytes s).2 }

def IOBuffer.readOutput (b : IOBuffer) : Bytes × IOBuffer :=
  ((pop b.stdOutput b.stdoutBytes).1,
    { b with
      stdOutput := (pop b.stdOutput b.stdoutBytes).2.1
      stdoutBytes := (pop b.stdOutput b.stdoutBytes).2.2 })

def IOBuffer.readError (b : IOBuffer) : Bytes × IOBuffer :=
  ((pop b.stdError b.stderrBytes).1,
    { b with
      stdError := (pop b.stdError b.stderrBytes).2.1
      stderrBytes := (pop b.stdError b.stderrBytes).2.2 })

/-- What may come in any order: a read, a string taken out, and a turn of the loop of
`flush`, whose last turn attaches the callback.  The flag stands for stderr. -/
inductive Op where
  | read (err : Bool) (s : Piece)
  | get (err : Bool)
  | flush (err : Bool)

/-- Who gets what: a callback, or the caller; or `std::bad_function_call`. -/
inductive Answer where
  | nothing
  | called (err : Bool) (s : Bytes)
  | got (err : Bool) (s : Bytes)
  | thrown
deriving DecidableEq, Repr

/-- What `processAsyncRead` does with what it has read. -/
def asyncRead (max : ℕ) (p : Output) (err : Bool) (tmp : Bytes) : Answer × Output :=
  if err then
    if p.stderrCallback then
      -- it is `stdoutCallback` that is called, which throws when it is empty
      if p.stdoutCallback then (.called false tmp, p) else (.thrown, p)
    else (.nothing, { p with buffer := p.buffer.writeError max tmp })
  else
    if p.stdoutCallback then (.called false tmp, p)
    else (.nothing, { p with buffer := p.buffer.writeOutput max tmp })

/-- `getStdOutput` and `getStdError` -/
def getStd (p : Output) (err : Bool) : Answer × Output :=
  if err then (.got true p.buffer.readError.1, { p with buffer := p.buffer.readError.2 })
  else (.got false p.buffer.readOutput.1, { p with buffer := p.buffer.readOutput.2 })

/-- A turn of `flush`. -/
def flush (p : Output) (err : Bool) : Answer × Output :=
  if err then
    if p.buffer.stdError ≠ [] then
      (.called true p.buffer.readError.1, { p with buffer := p.buffer.readError.2 })
    else (.nothing, { p with stderrCallback := true })
  else
    if p.buffer.stdOutput ≠ [] then
      (.called false p.buffer.readOutput.1, { p with buffer := p.buffer.readOutput.2 })
    else (.nothing, { p with stdoutCallback := true })

def step (max : ℕ) (p : Output) : Op → Option (Answer × Output)
  | .read err s => some (asyncRead max p err s.1)
  | .get err => some (getStd p err)
  | .flush err => some (flush p err)

/-! ### The law of a side -/

/-- The size of some pieces. -/
def total (pieces : List Bytes) : ℕ := (pieces.map List.length).sum

/-- What may happen to the pieces of a side, and to its callback: a read is handed to
the callback or kept, and only the oldest pieces are dropped for it, each only when with it
the maximum would be reached. -/
inductive Turn (max : ℕ) (err : Bool) :
    Op → List Bytes × Bool → Answer → List Bytes × Bool → Prop
  | handed (s : Piece) : Turn max err (.read err s) ([], true) (.called err s.1) ([], true)
  | kept (s : Piece) (pieces) (k : ℕ)
      (h : ∀ i < k, max ≤ total (pieces.drop i) + s.1.length) :
      Turn max err (.read err s) (pieces, false) .nothing (pieces.drop k ++ [s.1], false)
  | got (s pieces callback) :
      Turn max err (.get err) (s :: pieces, callback) (.got err s) (pieces, callback)
  | empty (callback) : Turn max err (.get err) ([], callback) (.got err []) ([], callback)
  | flushed (s pieces callback) :
      Turn max err (.flush err) (s :: pieces, callback) (.called err s) (pieces, callback)
  | attached (callback) : Turn max err (.flush err) ([], callback) .nothing ([], true)

/-- The side that an operation is about. -/
def Op.side : Op → Bool
  | .read err _ => err
  | .get err => err
  | .flush err => err

namespace Output

/-- A side: its pieces, the oldest first, and whether it has a callback. -/
def side (p : Output) : Bool → List Bytes × Bool
  | true => (p.buffer.stdError, p.stderrCallback)
  | false => (p.buffer.stdOutput, p.stdoutCallback)

/-- The counter of a side. -/
def bytes (p : Output) : Bool → ℕ
  | true => p.buffer.stderrBytes
  | false => p.buffer.stdoutBytes

end Output

/-- A move that keeps to its side, and the counters after it. -/
structure Right (max : ℕ) (m : Runs.Move Output Op Answer) : Prop where
  turn : Turn max m.input.side m.input (m.before.side m.input.side) m.output
    (m.after.side m.input.side)
  other : m.after.side (!m.input.side) = m.before.side (!m.input.side)
  counters : ∀ err, m.after.bytes err = total (m.after.side err).1 ∧
    total (m.after.side err).1 < 2 ^ 64

/-- What an operation reads from a side. -/
def Op.readFrom (err : Bool) : Op → List Bytes
  | .read e s => if e = err then [s.1] else []
  | _ => []

/-- What an answer hands out for a side. -/
def Answer.handed (err : Bool) : Answer → List Bytes
  | .called e s => if e = err then [s] else []
  | .got e s => if e = err ∧ s ≠ [] then [s] else []
  | _ => []

def readFrom (err : Bool) (ms : List (Runs.Move Output Op Answer)) : List Bytes :=
  ms.flatMap fun m => m.input.readFrom err

def handedOut (err : Bool) (ms : List (Runs.Move Output Op Answer)) : List Bytes :=
  ms.flatMap fun m => m.output.handed err

/-- A run that keeps its sides apart: every move is right, and after every move what was
handed out for a side, and then what it holds, is from what was read there, in order and each
at most once. -/
structure Keeps (max : ℕ) (ms : List (Runs.Move Output Op Answer)) : Prop where
  moves : ∀ m ∈ ms, Right max m
  order : ∀ pre m post, ms = pre ++ m :: post → ∀ err,
    (handedOut err (pre ++ [m]) ++ (m.after.side err).1).Sublist (readFrom err (pre ++ [m]))

/-! ### The queue -/

section Queue

variable {max sz : ℕ} {buf : List Bytes}

@[simp] theorem total_nil : total [] = 0 := rfl

@[simp] theorem total_cons (b : Bytes) (buf : List Bytes) :
    total (b :: buf) = b.length + total buf := by
  rw [total, List.map_cons, List.sum_cons]
  rfl

@[simp] theorem total_append (a b : List Bytes) : total (a ++ b) = total a + total b := by
  rw [total, List.map_append, List.sum_append]
  rfl

/-- **The eviction**: some of the oldest go, and each only when with it the maximum
would be reached. -/
theorem evict_eq (max n : ℕ) (hlen : total buf + n < 2 ^ 64) :
    ∃ k, evict max buf (total buf + n) = (buf.drop k, total (buf.drop k) + n) ∧
      (∀ i < k, max ≤ total (buf.drop i) + n) ∧
      (buf.drop k = [] ∨ total (buf.drop k) + n < max) := by
  induction buf with
  | nil => exact ⟨0, rfl, by simp, .inl rfl⟩
  | cons b buf ih =>
    rw [total_cons] at hlen ⊢
    rw [evict]
    by_cases hmax : max ≤ b.length + total buf + n
    · -- the counter is that of the rest when the oldest one is gone
      have hsz : (b.length + total buf + n + 2 ^ 64 - b.length) % 2 ^ 64 = total buf + n := by
        omega
      rw [if_pos hmax, hsz]
      obtain ⟨k, heq, hdrop, hkept⟩ := ih (by omega)
      refine ⟨k + 1, heq, fun i hi => ?_, hkept⟩
      cases i with
      | zero => simpa using hmax
      | succ i => exact hdrop i (by omega)
    · rw [if_neg hmax]
      refine ⟨0, ?_, by simp, .inr ?_⟩
      · rw [List.drop_zero, total_cons]
      · rw [List.drop_zero, total_cons]
        omega

/-- A counter that is the size of its pieces, which are fewer than the maximum or one. -/
def Tidy (max : ℕ) (buf : List Bytes) (sz : ℕ) : Prop :=
  sz = total buf ∧ total buf < max ⊔ 1024

theorem Tidy.push (hmax : max + 1024 ≤ 2 ^ 64) (h : Tidy max buf sz) (s : Piece) :
    ∃ k, (push max buf sz s.1).1 = buf.drop k ++ [s.1] ∧
      (∀ i < k, max ≤ total (buf.drop i) + s.1.length) ∧
      Tidy max (push max buf sz s.1).1 (push max buf sz s.1).2 := by
  obtain ⟨rfl, hlt⟩ := h
  have hs := s.2.2
  have hsum : total buf + s.1.length < 2 ^ 64 := by omega
  obtain ⟨k, heq, hdrop, hkept⟩ := evict_eq max s.1.length hsum
  have hpush : Process.push max buf (total buf) s.1 =
      (buf.drop k ++ [s.1], total (buf.drop k) + s.1.length) := by
    rw [Process.push, Nat.mod_eq_of_lt hsum, heq]
  refine ⟨k, by rw [hpush], hdrop, ?_⟩
  rw [hpush, Tidy]
  simp only [total_append, total_cons, total_nil, add_zero, true_and]
  rcases hkept with hnil | hfew
  · rw [hnil, total_nil]
    omega
  · omega

theorem Tidy.pop (h : Tidy max buf sz) (hmax : max + 1024 ≤ 2 ^ 64) :
    Tidy max (pop buf sz).2.1 (pop buf sz).2.2 := by
  obtain ⟨rfl, hlt⟩ := h
  cases buf with
  | nil => exact ⟨rfl, hlt⟩
  | cons b buf =>
    rw [total_cons] at hlt
    rw [Process.pop, Tidy, total_cons]
    constructor
    · simp only
      omega
    · simp only
      omega

end Queue

/-! ### The moves -/

variable {max : ℕ} {p p' : Output} {op : Op} {answer : Answer}

/-- A read from stderr finds no stderr callback. -/
def Fine (p : Output) (op : Op) : Prop := ∀ s, op = .read true s → p.stderrCallback = false

/-- Both counters are right, both queues are small, and a side with a callback holds nothing. -/
def Output.Tidy (max : ℕ) (p : Output) : Prop :=
  ∀ err, Process.Tidy max (p.side err).1 (p.bytes err) ∧
    ((p.side err).2 = true → (p.side err).1 = [])

theorem Output.Tidy.counters (hmax : max + 1024 ≤ 2 ^ 64) (h : p.Tidy max) (err : Bool) :
    p.bytes err = total (p.side err).1 ∧ total (p.side err).1 < 2 ^ 64 := by
  obtain ⟨⟨heq, hlt⟩, -⟩ := h err
  exact ⟨heq, by omega⟩

/-- A side with other pieces and another counter. -/
def Output.set (p : Output) (err : Bool) (q : List Bytes × ℕ) : Output :=
  if err then { p with buffer := { p.buffer with stdError := q.1, stderrBytes := q.2 } }
  else { p with buffer := { p.buffer with stdOutput := q.1, stdoutBytes := q.2 } }

@[simp] theorem Output.set_side (p : Output) (err : Bool) (q : List Bytes × ℕ) :
    (p.set err q).side err = (q.1, (p.side err).2) := by
  cases err <;> rfl

@[simp] theorem Output.set_side_other (p : Output) (err : Bool) (q : List Bytes × ℕ) :
    (p.set err q).side (!err) = p.side (!err) := by
  cases err <;> rfl

theorem Output.Tidy.set (h : p.Tidy max) (err : Bool) {q : List Bytes × ℕ}
    (hq : Process.Tidy max q.1 q.2) (hnil : (p.side err).2 = true → q.1 = []) :
    (p.set err q).Tidy max := by
  intro e
  cases err <;> cases e
  · exact ⟨hq, hnil⟩
  · exact h true
  · exact h false
  · exact ⟨hq, hnil⟩

/-- Something taken out of a tidy side. -/
theorem Output.Tidy.pop (h : p.Tidy max) (hmax : max + 1024 ≤ 2 ^ 64) (err : Bool) :
    (p.set err (Process.pop (p.side err).1 (p.bytes err)).2).Tidy max := by
  refine h.set err ((h err).1.pop hmax) fun hcb => ?_
  rw [(h err).2 hcb]
  rfl

/-- What no callback takes is kept. -/
theorem asyncRead_kept {err : Bool} (h : (p.side err).2 = false) (s : Bytes) :
    asyncRead max p err s = (.nothing, p.set err (push max (p.side err).1 (p.bytes err) s)) := by
  cases err with
  | true =>
    have hcb : ¬p.stderrCallback = true := Bool.eq_false_iff.mp h
    rw [asyncRead, if_pos rfl, if_neg hcb]
    rfl
  | false =>
    have hcb : ¬p.stdoutCallback = true := Bool.eq_false_iff.mp h
    rw [asyncRead, if_neg (by simp), if_neg hcb]
    rfl

theorem asyncRead_handed (h : p.stdoutCallback = true) (s : Bytes) :
    asyncRead max p false s = (.called false s, p) := by
  rw [asyncRead, if_neg (by simp), if_pos h]

theorem getStd_eq (p : Output) (err : Bool) :
    getStd p err = (.got err (pop (p.side err).1 (p.bytes err)).1,
      p.set err (pop (p.side err).1 (p.bytes err)).2) := by
  cases err <;> rfl

theorem flush_pieces {err : Bool} (h : (p.side err).1 ≠ []) :
    flush p err = (.called err (pop (p.side err).1 (p.bytes err)).1,
      p.set err (pop (p.side err).1 (p.bytes err)).2) := by
  cases err with
  | true => exact if_pos h
  | false => exact if_pos h

/-- The last turn of `flush`. -/
theorem flush_attached {err : Bool} (h : (p.side err).1 = []) :
    ∃ p', flush p err = (.nothing, p') ∧ p'.side err = ([], true) ∧
      p'.side (!err) = p.side (!err) ∧ p'.bytes = p.bytes := by
  cases err with
  | true =>
    have hnil : p.buffer.stdError = [] := h
    refine ⟨{ p with stderrCallback := true }, ?_, ?_, rfl, ?_⟩
    · exact if_neg (not_not.mpr hnil)
    · rw [Output.side, hnil]
    · funext e
      cases e <;> rfl
  | false =>
    have hnil : p.buffer.stdOutput = [] := h
    refine ⟨{ p with stdoutCallback := true }, ?_, ?_, rfl, ?_⟩
    · exact if_neg (not_not.mpr hnil)
    · rw [Output.side, hnil]
    · funext e
      cases e <;> rfl

/-- A stderr callback is never called by a read. -/
theorem asyncRead_astray (h : p.stderrCallback = true) (s : Bytes) :
    (asyncRead max p true s).1 ≠ .called true s := by
  rw [asyncRead, if_pos rfl, if_pos h]
  by_cases hcb : p.stdoutCallback = true
  · rw [if_pos hcb]
    simp
  · rw [if_neg hcb]
    simp

/-- A turn that keeps to its side and leaves things tidy. -/
def Keeping (max : ℕ) (p : Output) (op : Op) (answer : Answer) (p' : Output) : Prop :=
  Turn max op.side op (p.side op.side) answer (p'.side op.side) ∧
    p'.side (!op.side) = p.side (!op.side) ∧ p'.Tidy max

theorem keeping_kept (hmax : max + 1024 ≤ 2 ^ 64) (h : p.Tidy max) {err : Bool}
    (hcb : (p.side err).2 = false) (s : Piece) :
    Keeping max p (.read err s) .nothing
      (p.set err (push max (p.side err).1 (p.bytes err) s.1)) := by
  obtain ⟨k, heq, hdrop, htidy⟩ := (h err).1.push hmax s
  have hnone : ¬(p.side err).2 = true := by simp [hcb]
  refine ⟨?_, p.set_side_other err _, h.set err htidy fun hsome => absurd hsome hnone⟩
  rw [Op.side, Output.set_side, heq]
  rcases hside : p.side err with ⟨pieces, callback⟩
  rw [hside] at hcb hdrop
  obtain rfl : callback = false := hcb
  exact .kept s pieces k hdrop

theorem keeping_handed (h : p.Tidy max) (hcb : p.stdoutCallback = true) (s : Piece) :
    Keeping max p (.read false s) (.called false s.1) p := by
  have hside : p.side false = ([], true) := Prod.ext ((h false).2 hcb) hcb
  refine ⟨?_, rfl, h⟩
  rw [Op.side, hside]
  exact .handed s

theorem keeping_got (hmax : max + 1024 ≤ 2 ^ 64) (h : p.Tidy max) (err : Bool) :
    Keeping max p (.get err) (.got err (pop (p.side err).1 (p.bytes err)).1)
      (p.set err (pop (p.side err).1 (p.bytes err)).2) := by
  refine ⟨?_, p.set_side_other err _, h.pop hmax err⟩
  rw [Op.side, Output.set_side]
  rcases p.side err with ⟨_ | ⟨b, pieces⟩, callback⟩
  · exact .empty callback
  · exact .got b pieces callback

theorem keeping_flushed (hmax : max + 1024 ≤ 2 ^ 64) (h : p.Tidy max) {err : Bool}
    (hne : (p.side err).1 ≠ []) :
    Keeping max p (.flush err) (.called err (pop (p.side err).1 (p.bytes err)).1)
      (p.set err (pop (p.side err).1 (p.bytes err)).2) := by
  refine ⟨?_, p.set_side_other err _, h.pop hmax err⟩
  rw [Op.side, Output.set_side]
  rcases hside : p.side err with ⟨_ | ⟨b, pieces⟩, callback⟩
  · rw [hside] at hne
    exact absurd rfl hne
  · exact .flushed b pieces callback

theorem keeping_attached (h : p.Tidy max) {err : Bool} (hnil : (p.side err).1 = [])
    (hown : p'.side err = ([], true)) (hother : p'.side (!err) = p.side (!err))
    (hbytes : p'.bytes = p.bytes) : Keeping max p (.flush err) .nothing p' := by
  refine ⟨?_, hother, fun e => ?_⟩
  · have hside : p.side err = ([], (p.side err).2) := Prod.ext hnil rfl
    rw [Op.side, hside, hown]
    exact .attached _
  · have he := h e
    by_cases hsame : e = err
    · rw [hsame, hbytes, hown]
      rw [hsame, hnil] at he
      exact ⟨he.1, fun _ => rfl⟩
    · obtain rfl := Bool.eq_not_of_ne hsame
      rw [hother, hbytes]
      exact he

/-- **A turn keeps to its side** unless it hands what is read from stderr to a callback. -/
theorem turn_of_fine (hmax : max + 1024 ≤ 2 ^ 64) (h : p.Tidy max) (hfine : Fine p op)
    (hstep : step max p op = some (answer, p')) : Keeping max p op answer p' := by
  cases op with
  | read err s =>
    have hread : asyncRead max p err s.1 = (answer, p') := Option.some.inj hstep
    by_cases hcb : (p.side err).2 = false
    · rw [asyncRead_kept hcb] at hread
      obtain ⟨rfl, rfl⟩ := Prod.mk.inj hread
      exact keeping_kept hmax h hcb s
    · cases err with
      | true => exact absurd (hfine s rfl) hcb
      | false =>
        have hsome : p.stdoutCallback = true := Bool.eq_true_of_not_eq_false hcb
        rw [asyncRead_handed hsome] at hread
        obtain ⟨rfl, rfl⟩ := Prod.mk.inj hread
        exact keeping_handed h hsome s
  | get err =>
    have hget : getStd p err = (answer, p') := Option.some.inj hstep
    rw [getStd_eq] at hget
    obtain ⟨rfl, rfl⟩ := Prod.mk.inj hget
    exact keeping_got hmax h err
  | flush err =>
    have hflush : flush p err = (answer, p') := Option.some.inj hstep
    by_cases hnil : (p.side err).1 = []
    · obtain ⟨q, hq, hown, hother, hbytes⟩ := flush_attached hnil
      rw [hq] at hflush
      obtain ⟨rfl, rfl⟩ := Prod.mk.inj hflush
      exact keeping_attached h hnil hown hother hbytes
    · rw [flush_pieces hnil] at hflush
      obtain ⟨rfl, rfl⟩ := Prod.mk.inj hflush
      exact keeping_flushed hmax h hnil

theorem right_iff (hmax : max + 1024 ≤ 2 ^ 64) (h : p.Tidy max)
    (hstep : step max p op = some (answer, p')) :
    (Right max ⟨p, op, answer, p'⟩ ↔ Fine p op) ∧ (Fine p op → p'.Tidy max) := by
  refine ⟨⟨fun hright s hop => ?_, fun hfine => ?_⟩, fun hfine =>
    (turn_of_fine hmax h hfine hstep).2.2⟩
  · -- a stderr callback would have been called
    subst hop
    by_contra hcb
    have hattached : p.stderrCallback = true := by simpa using hcb
    have hturn := hright.turn
    have hread : asyncRead max p true s.1 = (answer, p') := Option.some.inj hstep
    have hastray : (asyncRead max p true s.1).1 ≠ .called true s.1 :=
      asyncRead_astray hattached s.1
    have hside : p.side true = ((p.side true).1, true) := Prod.ext rfl hattached
    rw [hread] at hastray
    simp only [Op.side] at hturn
    rw [hside] at hturn
    generalize (p.side true).1 = pieces at hturn
    generalize p'.side true = after at hturn
    cases hturn
    exact hastray rfl
  · obtain ⟨hturn, hother, htidy⟩ := turn_of_fine hmax h hfine hstep
    exact ⟨hturn, hother, htidy.counters hmax⟩

/-! ### The runs -/

variable {ms : List (Runs.Move Output Op Answer)}

/-- What a turn hands out and what it leaves, against what it finds and what it reads. -/
theorem Turn.order {err : Bool} {before after : List Bytes × Bool}
    (h : Turn max err op before answer after) :
    (answer.handed err ++ after.1).Sublist (before.1 ++ op.readFrom err) := by
  cases h with
  | handed s =>
    simp only [Answer.handed, Op.readFrom, if_true]
    exact .refl _
  | kept s pieces k h =>
    simp only [Answer.handed, Op.readFrom, if_true, List.nil_append]
    exact (List.drop_sublist k pieces).append_right _
  | got s pieces callback =>
    simp only [Answer.handed, Op.readFrom, List.append_nil, true_and]
    -- an empty piece is not handed out
    by_cases hs : s = []
    · rw [if_neg (not_not.mpr hs)]
      exact .cons _ (.refl _)
    · rw [if_pos hs]
      exact .refl _
  | empty callback =>
    simp only [Answer.handed, Op.readFrom, ne_eq, not_true_eq_false, and_false, if_false,
      List.append_nil]
    exact .refl _
  | flushed s pieces callback =>
    simp only [Answer.handed, Op.readFrom, List.append_nil, if_true]
    exact .refl _
  | attached callback => exact List.nil_sublist _

/-- Nothing of the other side is read or handed out. -/
theorem Turn.other {err : Bool} {before after : List Bytes × Bool}
    (h : Turn max err op before answer after) :
    answer.handed (!err) = [] ∧ op.readFrom (!err) = [] := by
  cases h <;> simp [Answer.handed, Op.readFrom]

theorem order_snoc {m : Runs.Move Output Op Answer} (hm : Right max m) {err : Bool}
    (h : (handedOut err ms ++ (m.before.side err).1).Sublist (readFrom err ms)) :
    (handedOut err (ms ++ [m]) ++ (m.after.side err).1).Sublist (readFrom err (ms ++ [m])) := by
  have hown : (m.output.handed err ++ (m.after.side err).1).Sublist
      ((m.before.side err).1 ++ m.input.readFrom err) := by
    by_cases hside : err = m.input.side
    · rw [hside]
      exact hm.turn.order
    · obtain rfl := Bool.eq_not_of_ne hside
      rw [hm.other, hm.turn.other.1, hm.turn.other.2, List.append_nil]
      exact .refl _
  have hhanded : handedOut err (ms ++ [m]) = handedOut err ms ++ m.output.handed err := by
    simp [handedOut]
  have hread : readFrom err (ms ++ [m]) = readFrom err ms ++ m.input.readFrom err := by
    simp [readFrom]
  rw [hhanded, hread, List.append_assoc]
  refine (hown.append_left (handedOut err ms)).trans ?_
  rw [← List.append_assoc]
  exact h.append_right _

theorem tidy_start (max : ℕ) : Output.Tidy max {} := by
  have hpos : 0 < max ⊔ 1024 := by omega
  intro err
  cases err <;> exact ⟨⟨rfl, hpos⟩, fun _ => rfl⟩

/-- What right moves come to, from the start. -/
theorem order_of_right (h : Runs.Run (step max) {} ms p) (hright : ∀ m ∈ ms, Right max m)
    (err : Bool) : (handedOut err ms ++ (p.side err).1).Sublist (readFrom err ms) := by
  induction h with
  | nil => cases err <;> exact List.nil_sublist _
  | snoc h hstep ih =>
    rw [List.forall_mem_append, List.forall_mem_singleton] at hright
    exact order_snoc hright.2 (ih hright.1)

/-- **The runs that keep the sides apart** read nothing from stderr while a stderr callback is
attached. -/
theorem keeps_iff (hmax : max + 1024 ≤ 2 ^ 64) (ops : List Op) :
    Keeps max (Runs.moves (step max) {} ops) ↔
      ∀ m ∈ Runs.moves (step max) {} ops, Fine m.before m.input := by
  have hrun := Runs.run_final (step max) {} ops
  have hmoves := hrun.moves_iff (R := Right max) (K := Output.Tidy max) (tidy_start max)
    fun u i o v htidy hstep => right_iff hmax htidy hstep
  rw [← hmoves]
  refine ⟨fun h => h.moves, fun hright => ⟨hright, ?_⟩⟩
  intro pre m post heq err
  rw [heq] at hrun hright
  have hat := hrun.at_move
  have hpre : ∀ m' ∈ pre, Right max m' := fun m' hm' => hright m' (List.mem_append_left _ hm')
  exact order_snoc (hright m (by simp)) (order_of_right hat.1 hpre err)

/-- Both sides are read, and the callback of stdout is attached in between. -/
theorem keeps_attached :
    Keeps 0 (Runs.moves (step 0) {} [.read true ⟨[69], by decide⟩, .read false ⟨[79], by decide⟩,
      .flush false, .flush false, .read false ⟨[80], by decide⟩, .get true]) := by
  refine (keeps_iff (by decide) _).mpr fun m hm s _ => ?_
  have hnone : ∀ m ∈ Runs.moves (step 0) {} [.read true ⟨[69], by decide⟩,
      .read false ⟨[79], by decide⟩, .flush false, .flush false, .read false ⟨[80], by decide⟩,
      .get true], m.before.stderrCallback = false := by
    decide
  exact hnone m hm

/-- With both callbacks attached, what is read from stderr goes to the callback of stdout. -/
theorem not_keeps :
    (asyncRead 0 { stdoutCallback := true, stderrCallback := true } true [69]).1 =
        .called false [69] ∧
      ¬∀ max ops, max + 1024 ≤ 2 ^ 64 → Keeps max (Runs.moves (step max) {} ops) := by
  refine ⟨rfl, fun h => ?_⟩
  have hkeeps := h 0 [.flush false, .flush true, .read true ⟨[69], by decide⟩] (by decide)
  have hright := hkeeps.moves ⟨{ stdoutCallback := true, stderrCallback := true },
    .read true ⟨[69], by decide⟩, .called false [69],
    { stdoutCallback := true, stderrCallback := true }⟩ (.tail _ (.tail _ (.head _)))
  have hturn : Turn 0 true (.read true ⟨[69], by decide⟩) ([], true) (.called false [69])
      ([], true) := hright.turn
  cases hturn

end Process

end Suil
