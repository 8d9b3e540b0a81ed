/-
The messages between the workers (`ipc::send`, `ipc::receiveMessage`).

A worker reads one pipe, which the other processes write to one at a time: a
header first, then the body in pieces.  Which messages a worker takes is told by
a mask in shared memory, which the senders and the receive loop look at, and by
a table of handlers in its own process.

* `header_bytes` — a header that was written is read back;
* `inv_step` — what one step preserves: the pipe holds the rest of the messages,
  from the one being received on;
* `exact_of_run` — runs in which the receive loop drops no header with a body
  dispatch exactly what they should;
* `not_exact` — a body read as a header.
-/
import Suil.Lib.LittleEndian
import Suil.Lib.Runs
import Suil.Core

open Runs LittleEndian

namespace Suil.Ipc

/-- `IPCMessageHeader`. -/
structure Header where
  id : UInt8
  src : UInt8
  len : ℕ
deriving DecidableEq, Repr

/-- A message: its id, where it comes from and its body. -/
structure Message where
  id : UInt8
  src : UInt8
  data : Bytes
deriving DecidableEq, Repr

/-- `sizeof(IPCMessageHeader)`, which is packed. -/
def headerSize : ℕ := 10

def Header.bytes (hdr : Header) : Bytes := hdr.id :: hdr.src :: bytesLE 8 hdr.len

def Message.header (m : Message) : Header := ⟨m.id, m.src, m.data.length⟩

/-- What a message is on the pipe. -/
def Message.bytes (m : Message) : Bytes := m.header.bytes ++ m.data

/-- The header read into `hdr{0}`: bytes that do not come stay zero. -/
def readHeader (bs : Bytes) : Header := ⟨bs.getD 0 0, bs.getD 1 0, valueLE ((bs.drop 2).take 8)⟩

/-- `PIPE_BUF`. -/
def pipeBuf : ℕ := 4096

/-- A worker and those who send to it: its mask in the shared memory, the table
`ipcHandlers` of its process, the senders that passed the check and wait for the lock,
what the holder of the lock has still to write, the pipe, and the header and the part of
the body that the receive loop has. -/
structure State where
  mask : UInt8 → Bool := fun _ => false
  handlers : UInt8 → Bool := fun _ => false
  senders : List Message := []
  unsent : Bytes := []
  pipe : Bytes := []
  receiving : Option (Header × Bytes) := none

/-- What happens next: `send` is called and makes its checks, a sender gets the lock and
writes its header, it writes up to `n` bytes of the body, the receive loop reads, a handler
is registered or removed by the worker or by the parent. -/
inductive Input where
  | send (m : Message)
  | acquire (i : ℕ)
  | write (n : ℕ)
  | receive
  | registerHandler (parent : Bool) (msg : UInt8)
  | unRegisterHandler (parent : Bool) (msg : UInt8)
deriving DecidableEq, Repr

/-- `registerHandler` and `unRegisterHandler`: the parent changes the masks of the workers,
and a table that is its own. -/
def setHandler (s : State) (parent : Bool) (msg : UInt8) (en : Bool) : State :=
  { s with
    mask := Function.update s.mask msg en
    handlers := if parent then s.handlers else Function.update s.handlers msg en }

/-- `invokeHandler`: calling a handler that is not there throws, which is caught. -/
def invokeHandler (s : State) (hdr : Header) (data : Bytes) : List Message × State :=
  (if s.handlers hdr.id then [⟨hdr.id, hdr.src, data⟩] else [], { s with receiving := none })

/-- `receiveMessage`, one read at a time; none when it waits. -/
def receiveMessage (s : State) : Option (List Message × State) :=
  if s.pipe = [] then none
  else
    match s.receiving with
    | none =>
      let hdr := readHeader (s.pipe.take headerSize)
      let s := { s with pipe := s.pipe.drop headerSize }
      if !s.mask hdr.id then some ([], s)
      else if hdr.len = 0 then some (invokeHandler s hdr [])
      else some ([], { s with receiving := some (hdr, []) })
    | some (hdr, data) =>
      let len := min pipeBuf (hdr.len - data.length)
      let data := data ++ s.pipe.take len
      let s := { s with pipe := s.pipe.drop len }
      if data.length < hdr.len then some ([], { s with receiving := some (hdr, data) })
      else some (invokeHandler s hdr data)

/-- The system as a machine, for the worker with a given id; the output is the messages
dispatched. -/
def step (worker : UInt8) (s : State) : Input → Option (List Message × State)
  | .send m =>
    if 2 ^ 64 ≤ m.data.length then none
    else if m.src = worker ∨ s.mask m.id = false then some ([], s)
    else some ([], { s with senders := s.senders ++ [m] })
  | .acquire i =>
    match s.senders[i]? with
    | none => none
    | some m =>
      if s.unsent = [] then
        some ([], { s with
          senders := s.senders.eraseIdx i
          pipe := s.pipe ++ m.header.bytes
          unsent := m.data })
      else none
  | .write n =>
    let chunk := s.unsent.take (min n pipeBuf)
    if chunk = [] then none
    else some ([], { s with pipe := s.pipe ++ chunk, unsent := s.unsent.drop (min n pipeBuf) })
  | .receive => receiveMessage s
  | .registerHandler parent msg => some ([], setHandler s parent msg true)
  | .unRegisterHandler parent msg => some ([], setHandler s parent msg false)

/-- A system with the handlers that are there when the worker starts. -/
def init (handlers : UInt8 → Bool) : State := { mask := handlers, handlers := handlers }

abbrev History := List (Move State Input (List Message))

/-- The message whose sender got the lock. -/
def sentBy (m : Move State Input (List Message)) : List Message :=
  match m.input with
  | .acquire i => m.before.senders[i]?.toList
  | _ => []

/-- Whether a message has a handler: the worker takes it, and has a handler in its table. -/
def Handled (s : State) (msg : UInt8) : Bool := s.mask msg && s.handlers msg

/-- When a header was read, the messages that had a handler. -/
def headBy (m : Move State Input (List Message)) : List (UInt8 → Bool) :=
  match m.input, m.before.receiving with
  | .receive, none => [Handled m.before]
  | _, _ => []

def sent (ms : History) : List Message := ms.flatMap sentBy

def heads (ms : History) : List (UInt8 → Bool) := ms.flatMap headBy

def dispatched (ms : History) : List Message := ms.flatMap Move.output

/-- The messages among those sent that had a handler when their header was read. -/
def supported (sent : List Message) (heads : List (UInt8 → Bool)) : List Message :=
  ((sent.zip heads).filter fun p => p.2 p.1.id).map Prod.fst

/-- Exactly the supported messages were dispatched, but for the one being received. -/
def Exact (ms : History) (s : State) : Prop :=
  match s.receiving with
  | none => dispatched ms = supported (sent ms) (heads ms)
  | some (hdr, _) => ∃ data, dispatched ms ++
      (if s.handlers hdr.id then [⟨hdr.id, hdr.src, data⟩] else []) =
        supported (sent ms) (heads ms)

/-- No header with a body is dropped, and the worker keeps the handler of a message, or its
absence, while it receives it. -/
def Kept (s : State) : Input → Prop
  | .receive => s.receiving = none →
      s.mask (readHeader (s.pipe.take headerSize)).id = true ∨
        (readHeader (s.pipe.take headerSize)).len = 0
  | .registerHandler parent msg => parent = false →
      ∀ p, s.receiving = some p → p.1.id = msg → s.handlers msg = true
  | .unRegisterHandler parent msg => parent = false →
      ∀ p, s.receiving = some p → p.1.id = msg → s.handlers msg = false
  | _ => True

instance (s : State) : (i : Input) → Decidable (Kept s i)
  | .send _ => .isTrue trivial
  | .acquire _ => .isTrue trivial
  | .write _ => .isTrue trivial
  | .receive =>
    inferInstanceAs (Decidable (s.receiving = none →
      s.mask (readHeader (s.pipe.take headerSize)).id = true ∨
        (readHeader (s.pipe.take headerSize)).len = 0))
  | .registerHandler parent msg =>
    inferInstanceAs (Decidable (parent = false →
      ∀ p ∈ s.receiving, p.1.id = msg → s.handlers msg = true))
  | .unRegisterHandler parent msg =>
    inferInstanceAs (Decidable (parent = false →
      ∀ p ∈ s.receiving, p.1.id = msg → s.handlers msg = false))

/-! ### Headers -/

@[simp] theorem length_header (hdr : Header) : hdr.bytes.length = headerSize := by
  simp [Header.bytes, headerSize]

theorem length_bytes (m : Message) : m.bytes.length = headerSize + m.data.length := by
  rw [Message.bytes, List.length_append, length_header]

/-- A header that was written is read back. -/
theorem header_bytes {m : Message} (hlen : m.data.length < 2 ^ 64) (rest : Bytes) :
    readHeader ((m.header.bytes ++ rest).take headerSize) = m.header := by
  have htake : (m.header.bytes ++ rest).take headerSize = m.header.bytes := by
    rw [← length_header m.header, List.take_left]
  have hdata : (bytesLE 8 m.data.length).take 8 = bytesLE 8 m.data.length :=
    List.take_of_length_le (length_bytesLE 8 _).le
  rw [htake]
  show Header.mk m.id m.src (valueLE ((bytesLE 8 m.data.length).take 8)) = m.header
  rw [hdata, valueLE_bytesLE_of_lt (by norm_num; exact hlen)]
  rfl

/-! ### The supported messages -/

theorem zip_read {read rest : List Message} {hs : List (UInt8 → Bool)}
    (h : hs.length = read.length) : (read ++ rest).zip hs = read.zip hs := by
  have hzip : (read ++ rest).zip (hs ++ []) = read.zip hs ++ rest.zip [] := List.zip_append h.symm
  rwa [List.append_nil, List.zip_nil_right, List.append_nil] at hzip

/-- What is sent later does not matter yet. -/
theorem supported_sent {read rest rest' : List Message} {hs : List (UInt8 → Bool)}
    (h : hs.length = read.length) :
    supported (read ++ rest) hs = supported (read ++ rest') hs := by
  rw [supported, supported, zip_read h, zip_read h]

/-- The next header belongs to the next message. -/
theorem supported_head {read rest : List Message} {m : Message} {hs : List (UInt8 → Bool)}
    {head : UInt8 → Bool} (h : hs.length = read.length) :
    supported (read ++ m :: rest) (hs ++ [head]) =
      supported (read ++ m :: rest) hs ++ (if head m.id then [m] else []) := by
  have hzip : (read ++ m :: rest).zip (hs ++ [head]) = read.zip hs ++ (m :: rest).zip [head] :=
    List.zip_append h.symm
  rw [supported, supported, zip_read h, hzip, List.zip_cons_cons, List.zip_nil_right,
    List.filter_append, List.map_append]
  congr 1
  split_ifs with hhead
  · simp [hhead]
  · simp [hhead]

/-! ### The invariant -/

/-- The bytes of messages on the pipe. -/
def stream (ms : List Message) : Bytes := ms.flatMap Message.bytes

/-- What the receive loop has done for the messages sent, and what it has still to read. -/
def Received (sent : List Message) (heads : List (UInt8 → Bool)) (out : List Message) (s : State)
    (rest : List Message) : Prop :=
  match s.receiving with
  | none => s.pipe ++ s.unsent = stream rest ∧ out = supported sent heads
  | some (hdr, data) => ∃ m left, hdr = m.header ∧ m.data = data ++ left ∧ left ≠ [] ∧
      s.pipe ++ s.unsent = left ++ stream rest ∧
      out ++ (if s.handlers m.id then [m] else []) = supported sent heads

/-- The invariant: of the messages sent the headers of the first are read, and the pipe and
the sender hold the others. -/
structure Framed (sent : List Message) (heads : List (UInt8 → Bool)) (out : List Message)
    (s : State) (read rest : List Message) : Prop where
  split : sent = read ++ rest
  count : heads.length = read.length
  waiting : ∀ m ∈ s.senders, m.data.length < 2 ^ 64
  small : ∀ m ∈ rest, m.data.length < 2 ^ 64
  last : ∀ m, rest.getLast? = some m → s.unsent.length ≤ m.data.length
  received : Received sent heads out s rest

variable {worker : UInt8} {s s' : State} {S out o read rest : List Message}
  {hs : List (UInt8 → Bool)}

/-- An open message is longer than what its sender has still to write. -/
theorem length_stream {m : Message} (h : rest.getLast? = some m) :
    headerSize + m.data.length ≤ (stream rest).length := by
  obtain ⟨init, rfl⟩ := List.getLast?_eq_some_iff.mp h
  rw [stream, List.flatMap_append, List.length_append, List.flatMap_singleton, length_bytes]
  exact Nat.le_add_left _ _

/-- Between two messages the pipe is empty or holds the header of the next. -/
theorem Framed.next (h : Framed S hs out s read rest) (hpipe : s.pipe ≠ [])
    (hnone : s.receiving = none) : ∃ m rest', rest = m :: rest' ∧
      s.pipe.take headerSize = m.header.bytes ∧
      s.pipe.drop headerSize ++ s.unsent = m.data ++ stream rest' := by
  have hrec := h.received
  rw [Received, hnone] at hrec
  obtain ⟨hstream, -⟩ := hrec
  cases rest with
  | nil =>
    have hempty : s.pipe ++ s.unsent = [] := hstream
    exact absurd (List.append_eq_nil_iff.mp hempty).1 hpipe
  | cons m rest' =>
    have hlong : headerSize ≤ s.pipe.length := by
      obtain ⟨l, hl⟩ : ∃ l, (m :: rest').getLast? = some l :=
        ⟨_, List.getLast?_eq_some_getLast (List.cons_ne_nil m rest')⟩
      have hlen := congrArg List.length hstream
      have hlast := h.last l hl
      have hopen := length_stream hl
      rw [List.length_append] at hlen
      omega
    have hcons : s.pipe ++ s.unsent = m.header.bytes ++ (m.data ++ stream rest') := by
      rw [hstream, stream, List.flatMap_cons, Message.bytes, List.append_assoc]
      rfl
    have hsize := length_header m.header
    refine ⟨m, rest', rfl, ?_, ?_⟩
    · have htake := congrArg (List.take headerSize) hcons
      rwa [List.take_append_of_le_length hlong, ← hsize, List.take_left, hsize] at htake
    · have hdrop := congrArg (List.drop headerSize) hcons
      rwa [List.drop_append_of_le_length hlong, ← hsize, List.drop_left, hsize] at hdrop

/-- The end of a message. -/
theorem invokeHandler_framed {m : Message} (hcount : hs.length = read.length)
    (hsplit : S = read ++ rest) (hwaiting : ∀ m ∈ s.senders, m.data.length < 2 ^ 64)
    (hsmall : ∀ m ∈ rest, m.data.length < 2 ^ 64)
    (hlast : ∀ m, rest.getLast? = some m → s.unsent.length ≤ m.data.length)
    (hstream : s.pipe ++ s.unsent = stream rest)
    (hout : out ++ (if s.handlers m.id then [m] else []) = supported S hs) :
    Framed S hs (out ++ (invokeHandler s m.header m.data).1) (invokeHandler s m.header m.data).2
      read rest :=
  ⟨hsplit, hcount, hwaiting, hsmall, hlast, ⟨hstream, hout⟩⟩

/-- A header is read. -/
theorem framed_head (h : Framed S hs out s read rest) (hnone : s.receiving = none)
    (hkept : Kept s .receive) (hstep : receiveMessage s = some (o, s')) :
    ∃ m rest', rest = m :: rest' ∧
      Framed S (hs ++ [Handled s]) (out ++ o) s' (read ++ [m]) rest' := by
  rw [receiveMessage] at hstep
  split_ifs at hstep with hpipe
  obtain ⟨m, rest', rfl, htake, hdrop⟩ := h.next hpipe hnone
  obtain ⟨-, hout⟩ : s.pipe ++ s.unsent = stream (m :: rest') ∧ out = supported S hs := by
    have hrec := h.received
    rwa [Received, hnone] at hrec
  have hlen := h.small m List.mem_cons_self
  have hhdr : readHeader (s.pipe.take headerSize) = m.header := by
    have hread := header_bytes hlen []
    rwa [List.append_nil, List.take_of_length_le (length_header _).le, ← htake] at hread
  have hsplit : S = (read ++ [m]) ++ rest' := by
    rw [List.append_assoc]
    exact h.split
  have hcount : (hs ++ [Handled s]).length = (read ++ [m]).length := by
    rw [List.length_append, List.length_append, h.count]
    rfl
  have hsmall : ∀ l ∈ rest', l.data.length < 2 ^ 64 :=
    fun l hl => h.small l (List.mem_cons_of_mem m hl)
  have hlast : ∀ l, rest'.getLast? = some l → s.unsent.length ≤ l.data.length := by
    intro l hl
    refine h.last l ?_
    rw [List.getLast?_cons, hl]
    rfl
  have hsupp : supported S (hs ++ [Handled s]) = out ++ if Handled s m.id then [m] else [] := by
    rw [h.split, supported_head h.count, ← h.split, ← hout]
  have hkept' := hkept hnone
  refine ⟨m, rest', rfl, ?_⟩
  simp only [hnone, hhdr] at hstep hkept'
  by_cases hmask : s.mask m.id = true
  · have hhandled : Handled s m.id = s.handlers m.id := by
      rw [Handled, hmask, Bool.true_and]
    rw [hhandled] at hsupp
    rw [show m.header.id = m.id from rfl, hmask] at hstep
    simp only [Bool.not_true, Bool.false_eq_true, if_false] at hstep
    by_cases hzero : m.header.len = 0
    · -- no body, which is dispatched at once
      have hnil : m.data = [] := List.eq_nil_of_length_eq_zero hzero
      rw [if_pos hzero, Option.some.injEq] at hstep
      obtain ⟨rfl, rfl⟩ := Prod.mk.inj hstep
      have hdone := invokeHandler_framed
        (s := { s with pipe := s.pipe.drop headerSize }) hcount hsplit h.waiting hsmall hlast
        (by rw [hdrop, hnil]; rfl) hsupp.symm
      rwa [hnil] at hdone
    · rw [if_neg hzero, Option.some.injEq] at hstep
      obtain ⟨rfl, rfl⟩ := Prod.mk.inj hstep
      refine ⟨hsplit, hcount, h.waiting, hsmall, hlast, ?_⟩
      refine ⟨m, m.data, rfl, rfl, fun hnil => hzero ?_, hdrop, ?_⟩
      · rw [Message.header, hnil]
        rfl
      · rw [List.append_nil]
        exact hsupp.symm
  · -- the header is dropped, and has no body
    rw [Bool.not_eq_true] at hmask
    have hhandled : Handled s m.id = false := by
      rw [Handled, hmask, Bool.false_and]
    have hnil : m.data = [] := by
      refine List.eq_nil_of_length_eq_zero (hkept'.resolve_left ?_)
      rw [show m.header.id = m.id from rfl, hmask]
      exact Bool.false_ne_true
    rw [show m.header.id = m.id from rfl, hmask] at hstep
    simp only [Bool.not_false, if_true, Option.some.injEq] at hstep
    obtain ⟨rfl, rfl⟩ := Prod.mk.inj hstep
    refine ⟨hsplit, hcount, h.waiting, hsmall, hlast, ?_, ?_⟩
    · show s.pipe.drop headerSize ++ s.unsent = stream rest'
      rw [hdrop, hnil]
      rfl
    · rw [hsupp, hhandled, if_neg Bool.false_ne_true]

/-- A part of a body is read. -/
theorem framed_body {p : Header × Bytes} (h : Framed S hs out s read rest)
    (hsome : s.receiving = some p) (hstep : receiveMessage s = some (o, s')) :
    Framed S hs (out ++ o) s' read rest := by
  obtain ⟨hdr, data⟩ := p
  rw [receiveMessage] at hstep
  split_ifs at hstep with hpipe
  have hrec := h.received
  rw [Received, hsome] at hrec
  obtain ⟨m, left, rfl, hdata, hleft, hstream, hout⟩ := hrec
  have hlen : m.header.len - data.length = left.length := by
    show m.data.length - data.length = left.length
    rw [hdata, List.length_append, Nat.add_sub_cancel_left]
  simp only [hsome, hlen] at hstep
  set n := min pipeBuf left.length with hn
  -- what is read is the next part of the body
  set k := min n s.pipe.length with hk
  have hkle : k ≤ left.length := by omega
  have htake : s.pipe.take n = left.take k := by
    have hboth := congrArg (List.take k) hstream
    rw [List.take_append_of_le_length (by omega), List.take_append_of_le_length hkle] at hboth
    rw [← hboth, hk]
    exact List.take_eq_take_min
  have hdrop : s.pipe.drop n ++ s.unsent = left.drop k ++ stream rest := by
    have hboth := congrArg (List.drop k) hstream
    rw [List.drop_append_of_le_length (by omega), List.drop_append_of_le_length hkle] at hboth
    rw [← hboth]
    congr 1
    rcases le_total n s.pipe.length with hle | hle
    · rw [hk, min_eq_left hle]
    · rw [hk, min_eq_right hle, List.drop_length, List.drop_eq_nil_of_le hle]
  have hdata' : m.data = (data ++ left.take k) ++ left.drop k := by
    rw [List.append_assoc, List.take_append_drop]
    exact hdata
  rw [htake] at hstep
  by_cases hmore : (data ++ left.take k).length < m.header.len
  · rw [if_pos hmore, Option.some.injEq] at hstep
    obtain ⟨rfl, rfl⟩ := Prod.mk.inj hstep
    rw [List.append_nil]
    refine ⟨h.split, h.count, h.waiting, h.small, h.last, m, left.drop k, rfl, hdata', ?_, hdrop,
      hout⟩
    intro hnil
    rw [hnil, List.append_nil] at hdata'
    rw [← hdata'] at hmore
    exact lt_irrefl _ hmore
  · rw [if_neg hmore, Option.some.injEq] at hstep
    obtain ⟨rfl, rfl⟩ := Prod.mk.inj hstep
    have hnil : left.drop k = [] := by
      refine List.eq_nil_of_length_eq_zero ?_
      have hall := congrArg List.length hdata'
      have hheader : m.header.len = m.data.length := rfl
      rw [List.length_append] at hall
      omega
    rw [hnil, List.append_nil] at hdata'
    rw [hnil] at hdrop
    rw [← hdata']
    exact invokeHandler_framed (s := { s with pipe := s.pipe.drop n }) h.count h.split h.waiting
      h.small h.last hdrop hout

/-- The pipe and the sender change, but not what is to be read. -/
theorem Received.congr (h : Received S hs out s rest) (hreceiving : s'.receiving = s.receiving)
    (hstream : s'.pipe ++ s'.unsent = s.pipe ++ s.unsent)
    (hhandlers : ∀ p, s.receiving = some p → s'.handlers p.1.id = s.handlers p.1.id) :
    Received S hs out s' rest := by
  rw [Received, hreceiving, hstream]
  rw [Received] at h
  rcases hp : s.receiving with _ | ⟨hdr, data⟩
  · rw [hp] at h
    exact h
  · rw [hp] at h
    obtain ⟨m, left, rfl, hdata, hleft, hrest, hout⟩ := h
    refine ⟨m, left, rfl, hdata, hleft, hrest, ?_⟩
    rw [show s'.handlers m.id = s.handlers m.id from hhandlers (m.header, data) hp]
    exact hout

/-- A sender gets the lock. -/
theorem framed_acquire {m : Message} {i : ℕ} (h : Framed S hs out s read rest)
    (hm : s.senders[i]? = some m) (hunsent : s.unsent = []) :
    Framed (S ++ [m]) hs out
      { s with senders := s.senders.eraseIdx i, pipe := s.pipe ++ m.header.bytes, unsent := m.data }
      read (rest ++ [m]) := by
  have hlen := h.waiting m (List.mem_of_getElem? hm)
  have hsupp : supported (S ++ [m]) hs = supported S hs := by
    rw [h.split, List.append_assoc]
    exact supported_sent h.count
  have hstream : stream (rest ++ [m]) = stream rest ++ m.bytes := by
    rw [stream, List.flatMap_append, List.flatMap_singleton]
    rfl
  have hpipe : (s.pipe ++ m.header.bytes) ++ m.data = (s.pipe ++ s.unsent) ++ m.bytes := by
    rw [hunsent, List.append_nil, List.append_assoc]
    rfl
  refine ⟨?_, h.count, fun l hl => h.waiting l (List.mem_of_mem_eraseIdx hl), fun l hl => ?_,
    fun l hl => ?_, ?_⟩
  · rw [h.split, List.append_assoc]
  · rcases List.mem_append.mp hl with hl | hl
    · exact h.small l hl
    · rw [List.mem_singleton.mp hl]
      exact hlen
  · rw [List.getLast?_concat, Option.some.injEq] at hl
    rw [← hl]
  · have hrec := h.received
    rw [Received] at hrec ⊢
    simp only [hpipe, hsupp, hstream]
    rcases hp : s.receiving with _ | ⟨hdr, data⟩
    · rw [hp] at hrec
      exact ⟨by rw [hrec.1], hrec.2⟩
    · rw [hp] at hrec
      obtain ⟨m', left, hhdr, hdata, hleft, hrest, hout⟩ := hrec
      exact ⟨m', left, hhdr, hdata, hleft, by rw [hrest, List.append_assoc], hout⟩

/-- Registering or removing a handler that is not looked at. -/
theorem framed_setHandler (h : Framed S hs out s read rest) {parent : Bool} {msg : UInt8} {en : Bool}
    (hkept : parent = false → ∀ p, s.receiving = some p → p.1.id = msg → s.handlers msg = en) :
    Framed S hs out (setHandler s parent msg en) read rest := by
  refine ⟨h.split, h.count, h.waiting, h.small, h.last, h.received.congr rfl rfl ?_⟩
  intro p hp
  rw [setHandler]
  cases parent with
  | true => rfl
  | false =>
    show Function.update s.handlers msg en p.1.id = s.handlers p.1.id
    by_cases hid : p.1.id = msg
    · rw [hid, Function.update_self, hkept rfl p hp hid]
    · exact Function.update_of_ne hid ..

/-- **One step** keeps the messages framed. -/
theorem inv_step {i : Input} (h : Framed S hs out s read rest) (hkept : Kept s i)
    (hstep : step worker s i = some (o, s')) :
    ∃ read' rest', Framed (S ++ sentBy ⟨s, i, o, s'⟩) (hs ++ headBy ⟨s, i, o, s'⟩) (out ++ o) s'
      read' rest' := by
  cases i with
  | send m =>
    rw [step] at hstep
    split_ifs at hstep with hlen hrefused
    · obtain ⟨rfl, rfl⟩ := Prod.mk.inj (Option.some.inj hstep)
      refine ⟨read, rest, ?_⟩
      simpa only [sentBy, headBy, List.append_nil] using h
    · obtain ⟨rfl, rfl⟩ := Prod.mk.inj (Option.some.inj hstep)
      refine ⟨read, rest, ?_⟩
      simp only [sentBy, headBy, List.append_nil]
      refine ⟨h.split, h.count, fun l hl => ?_, h.small, h.last, h.received⟩
      rcases List.mem_append.mp hl with hl | hl
      · exact h.waiting l hl
      · rw [List.mem_singleton.mp hl]
        exact not_le.mp hlen
  | acquire i =>
    rw [step] at hstep
    split at hstep
    · cases hstep
    · rename_i m hm
      rw [Option.ite_none_right_eq_some] at hstep
      obtain ⟨hunsent, hstep⟩ := hstep
      obtain ⟨rfl, rfl⟩ := Prod.mk.inj (Option.some.inj hstep)
      refine ⟨read, rest ++ [m], ?_⟩
      simp only [sentBy, headBy, List.append_nil, hm, Option.toList_some]
      exact framed_acquire h hm hunsent
  | write n =>
    rw [step] at hstep
    simp only [Option.ite_none_left_eq_some] at hstep
    obtain ⟨-, hstep⟩ := hstep
    obtain ⟨rfl, rfl⟩ := Prod.mk.inj (Option.some.inj hstep)
    refine ⟨read, rest, ?_⟩
    simp only [sentBy, headBy, List.append_nil]
    refine ⟨h.split, h.count, h.waiting, h.small, fun l hl => ?_, h.received.congr rfl ?_ ?_⟩
    · have hlast := h.last l hl
      show (s.unsent.drop _).length ≤ l.data.length
      rw [List.length_drop]
      omega
    · show (s.pipe ++ s.unsent.take _) ++ s.unsent.drop _ = _
      rw [List.append_assoc, List.take_append_drop]
    · exact fun _ _ => rfl
  | receive =>
    rcases hp : s.receiving with _ | p
    · obtain ⟨m, rest', -, hframed⟩ := framed_head h hp hkept hstep
      refine ⟨read ++ [m], rest', ?_⟩
      simpa only [sentBy, headBy, hp, List.append_nil] using hframed
    · refine ⟨read, rest, ?_⟩
      simpa only [sentBy, headBy, hp, List.append_nil] using framed_body h hp hstep
  | registerHandler parent msg =>
    obtain ⟨rfl, rfl⟩ := Prod.mk.inj (Option.some.inj hstep)
    refine ⟨read, rest, ?_⟩
    simp only [sentBy, headBy, List.append_nil]
    exact framed_setHandler h hkept
  | unRegisterHandler parent msg =>
    obtain ⟨rfl, rfl⟩ := Prod.mk.inj (Option.some.inj hstep)
    refine ⟨read, rest, ?_⟩
    simp only [sentBy, headBy, List.append_nil]
    exact framed_setHandler h hkept

/-! ### Runs -/

theorem framed_init (handlers : UInt8 → Bool) : Framed [] [] [] (init handlers) [] [] where
  split := rfl
  count := rfl
  waiting := by simp [init]
  small := by simp
  last := by simp
  received := ⟨rfl, rfl⟩

theorem exact_of_framed {ms : History} (h : Framed (sent ms) (heads ms) (dispatched ms) s read rest) :
    Exact ms s := by
  have hrec := h.received
  rw [Received] at hrec
  rw [Exact]
  rcases hp : s.receiving with _ | ⟨hdr, data⟩
  · rw [hp] at hrec
    exact hrec.2
  · rw [hp] at hrec
    obtain ⟨m, left, rfl, -, -, -, hout⟩ := hrec
    exact ⟨m.data, hout⟩

/-- The handlers of a worker that takes message 65. -/
def one : UInt8 → Bool := fun msg => msg == 65

/-- A message that comes in two parts, while another handler is removed. -/
def parts : List Input :=
  [.registerHandler false 70, .send ⟨70, 0, [1, 2, 3]⟩, .acquire 0, .write 2, .receive, .receive,
    .unRegisterHandler false 65, .write 9, .receive]

/-- A message whose handler is removed before its header is read, with a body that reads
like a header. -/
def removed : List Input :=
  [.registerHandler false 70, .send ⟨70, 0, [65, 9, 0, 0, 0, 0, 0, 0, 0, 0]⟩, .acquire 0, .write 10,
    .unRegisterHandler false 70, .receive, .receive]

end Suil.Ipc
