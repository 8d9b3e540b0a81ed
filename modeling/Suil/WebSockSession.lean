/-
Sessions of a web socket.

`WebSock::handle` takes frame after frame from the client and calls the handlers
of the API; a frame is answered or sent with `WebSock::send`.  `WebSock::broadcast`
builds its frame a second time, in a message that is sent to all other clients.

* `sendLoop_spec` — what `broadcastSend` writes when no write fails;
* `broadcastsFrame_iff` — when every other client receives the frame that `send`
  writes;
* `handlesFrames_iff` — along which frames the handlers are called, and pings
  answered, as they should.
-/
import Suil.WebSock

namespace Suil.WebSock

/-- What `send` writes: the header, then the data. -/
def frame (op : WsOp) (data : Bytes) : Bytes := sendHeader op data.length ++ data

/-- `send`: what it hands to the socket. -/
def send (endSession : Bool) (op : WsOp) (data : Bytes) : Option Bytes :=
  if endSession then none else some (frame op data)

/-! ### Broadcasts -/

/-- The message of `broadcast`.  The header is filled into a copy, so that its first
two bytes are what the memory held. -/
def broadcastMessage (memory : UInt8 × UInt8) (op : WsOp) (data : Bytes) : Bytes :=
  [memory.1, memory.2] ++ (sendHeader op data.length).drop 2 ++ data

/-- A connected client: whether its socket is open, how many bytes it takes at every
write (none when the list is used up), and whether it can be flushed. -/
structure Client where
  isOpen : Bool
  writes : List ℕ
  flushes : Bool

/-- The loop of `broadcastSend`: what is written, and whether no write failed. -/
def sendLoop (data : Bytes) : ℕ → List ℕ → Bytes × Bool
  | _, [] => ([], false)
  | totalSent, n :: ns =>
    let sent := min n data.length
    if sent = 0 then ([], false)
    else if totalSent + sent < data.length then
      let rest := sendLoop data (totalSent + sent) ns
      (data.take sent ++ rest.1, rest.2)
    else (data.take sent, true)

/-- `broadcastSend`: what is written, and what it returns. -/
def broadcastSend (c : Client) (data : Bytes) : Bytes × Bool :=
  if c.isOpen then
    let sent := sendLoop data 0 c.writes
    (sent.1, sent.2 && c.flushes)
  else ([], false)

/-- `WebSockApi::broadcast`, to all clients but the sender. -/
def broadcast (src : ℕ) (clients : List (ℕ × Client)) (message : Bytes) :
    List (ℕ × Bytes × Bool) :=
  (clients.filter (·.1 ≠ src)).map fun c => (c.1, broadcastSend c.2 message)

/-- Every other client receives the frame of `send`, or its write is reported as
failed. -/
def BroadcastsFrame (memory : UInt8 × UInt8) (op : WsOp) (data : Bytes) (src : ℕ)
    (clients : List (ℕ × Client)) : Prop :=
  ∀ out ∈ broadcast src clients (broadcastMessage memory op data),
    out.2.2 = true → out.2.1 = frame op data

/-- The sizes of the writes up to the one that completes `len` bytes; none when one of
them fails. -/
def completing (len : ℕ) : ℕ → List ℕ → Option (List ℕ)
  | _, [] => none
  | total, n :: ns =>
    if min n len = 0 then none
    else if total + min n len < len then
      (completing len (total + min n len) ns).map (min n len :: ·)
    else some [min n len]

/-- Pieces that begin again at the front of the frame are the next ones of it. -/
def Repeats (bs : Bytes) : ℕ → List ℕ → Prop
  | off, [] => bs.length ≤ off
  | off, n :: ns => (bs.drop off).take n = bs.take n ∧ Repeats bs (off + n) ns

/-- The writes to the client fail, or the memory held the header and they take the
frame at once (or in pieces that repeat its front). -/
def ReceivesFrame (memory : UInt8 × UInt8) (op : WsOp) (data : Bytes) (c : Client) : Prop :=
  c.isOpen → c.flushes → ∀ ns, completing (frame op data).length 0 c.writes = some ns →
    [memory.1, memory.2] = (frame op data).take 2 ∧ Repeats (frame op data) 0 ns

/-- What the loop writes. -/
theorem sendLoop_spec (data : Bytes) (total : ℕ) (writes : List ℕ) :
    match completing data.length total writes with
    | none => (sendLoop data total writes).2 = false
    | some ns => sendLoop data total writes = ((ns.map data.take).flatten, true) ∧
        ns ≠ [] ∧ ∀ n ∈ ns, 0 < n ∧ n ≤ data.length := by
  induction writes generalizing total with
  | nil => rfl
  | cons n writes ih =>
    simp only [completing, sendLoop]
    by_cases hzero : min n data.length = 0
    · simp only [if_pos hzero]
    · simp only [if_neg hzero]
      have hpos : 0 < min n data.length ∧ min n data.length ≤ data.length := by omega
      by_cases hmore : total + min n data.length < data.length
      · simp only [if_pos hmore]
        have hrest := ih (total + min n data.length)
        rcases hc : completing data.length (total + min n data.length) writes with _ | ns
        · simpa [hc] using hrest
        · simp only [hc] at hrest
          obtain ⟨heq, -, hall⟩ := hrest
          simp only [Option.map_some, heq, List.map_cons, List.flatten_cons, true_and]
          exact ⟨List.cons_ne_nil _ _, List.forall_mem_cons.mpr ⟨hpos, hall⟩⟩
      · simp only [if_neg hmore]
        exact ⟨by simp, List.cons_ne_nil _ _, by simpa using hpos⟩

/-- Pieces from the front make up the rest of the bytes iff they repeat the front. -/
theorem flatten_take_iff {bs : Bytes} {off : ℕ} {ns : List ℕ} (hns : ∀ n ∈ ns, n ≤ bs.length) :
    (ns.map bs.take).flatten = bs.drop off ↔ Repeats bs off ns := by
  induction ns generalizing off with
  | nil => simp [Repeats, eq_comm (a := ([] : Bytes))]
  | cons n ns ih =>
    have hn : (bs.take n).length = n := by simpa using hns n List.mem_cons_self
    have hsplit : bs.drop off = (bs.drop off).take n ++ bs.drop (off + n) := by
      rw [← List.drop_drop, List.take_append_drop]
    rw [List.map_cons, List.flatten_cons, Repeats,
      ← ih fun m hm => hns m (List.mem_cons_of_mem _ hm)]
    constructor
    · intro h
      have hfirst : (bs.drop off).take n = bs.take n := by rw [← h, List.take_append, hn]; simp
      rw [hsplit, hfirst] at h
      exact ⟨hfirst, List.append_cancel_left h⟩
    · rintro ⟨hfirst, hrest⟩
      rw [hsplit, hfirst, hrest]

/-- The two bytes of a header: the second one is a length and has no top bit. -/
theorem sendHeader_cons (op : WsOp) (size : ℕ) :
    ∃ b, sendHeader op size = ((op.code &&& 15) ||| 128) :: b :: (sendHeader op size).drop 2 ∧
      b ≠ (op.code &&& 15) ||| 128 := by
  refine ⟨_, rfl, fun h => ?_⟩
  have htop := congrArg (· &&& (128 : UInt8)) h
  have hlow : ∀ x : UInt8, x &&& 127 &&& 128 = 0 := by
    intro x
    have hmask : (127 &&& 128 : UInt8) = 0 := rfl
    rw [UInt8.and_assoc, hmask, UInt8.and_zero]
  have hhigh : (((op.code &&& 15) ||| 128) &&& (128 : UInt8)) = 128 := by cases op <;> decide
  simp only [hlow, hhigh] at htop
  exact absurd htop (by decide)

theorem receives_iff {memory : UInt8 × UInt8} {op : WsOp} {data : Bytes} {ns : List ℕ}
    (hne : ns ≠ []) (hns : ∀ n ∈ ns, 0 < n ∧ n ≤ (frame op data).length) :
    (ns.map (broadcastMessage memory op data).take).flatten = frame op data ↔
      [memory.1, memory.2] = (frame op data).take 2 ∧ Repeats (frame op data) 0 ns := by
  obtain ⟨b, hb, hne'⟩ := sendHeader_cons op data.length
  have hframe : frame op data =
      ((op.code &&& 15) ||| 128) :: b :: ((sendHeader op data.length).drop 2 ++ data) := by
    rw [frame, hb]
    rfl
  have hmessage : broadcastMessage memory op data =
      memory.1 :: memory.2 :: ((sendHeader op data.length).drop 2 ++ data) := rfl
  have hrepeats : (ns.map (frame op data).take).flatten = (frame op data).drop 0 ↔
      Repeats (frame op data) 0 ns := flatten_take_iff fun n hn => (hns n hn).2
  rw [List.drop_zero] at hrepeats
  rw [← hrepeats]
  have hsame : [memory.1, memory.2] = (frame op data).take 2 →
      broadcastMessage memory op data = frame op data := by
    rw [hmessage, hframe]
    intro h
    obtain ⟨h₁, h₂⟩ : memory.1 = (op.code &&& 15) ||| 128 ∧ memory.2 = b := by simpa using h
    rw [h₁, h₂]
  constructor
  · intro h
    have hhead : [memory.1, memory.2] = (frame op data).take 2 := by
      obtain ⟨n, ns, rfl⟩ := List.exists_cons_of_ne_nil hne
      have hn := (hns n List.mem_cons_self).1
      rw [hframe, hmessage] at h
      rw [hframe]
      match n, hn with
      | 1, _ =>
        -- The second piece begins with the first byte again.
        rw [List.map_cons, List.flatten_cons] at h
        simp only [List.take_succ_cons, List.take_zero, List.cons_append, List.nil_append,
          List.cons.injEq] at h
        obtain ⟨h₁, h₂⟩ := h
        cases ns with
        | nil => simp at h₂
        | cons m ns =>
          obtain ⟨m, rfl⟩ := Nat.exists_eq_add_of_lt
            (hns m (List.mem_cons_of_mem _ List.mem_cons_self)).1
          simp only [List.map_cons, List.flatten_cons, zero_add, List.take_succ_cons,
            List.cons_append, List.cons.injEq] at h₂
          exact absurd (h₂.1.symm.trans h₁) hne'
      | n + 2, _ =>
        rw [List.map_cons, List.flatten_cons] at h
        simp only [List.take_succ_cons, List.cons_append, List.cons.injEq] at h
        simp [h.1, h.2.1]
    exact ⟨hhead, hsame hhead ▸ h⟩
  · rintro ⟨hhead, h⟩
    rwa [hsame hhead]

theorem broadcastMessage_length (memory : UInt8 × UInt8) (op : WsOp) (data : Bytes) :
    (broadcastMessage memory op data).length = (frame op data).length := by
  obtain ⟨b, hb, -⟩ := sendHeader_cons op data.length
  rw [frame, hb]
  simp [broadcastMessage]

/-- **When a broadcast is what `send` writes.** -/
theorem broadcastsFrame_iff (memory : UInt8 × UInt8) (op : WsOp) (data : Bytes) (src : ℕ)
    (clients : List (ℕ × Client)) :
    BroadcastsFrame memory op data src clients ↔
      ∀ c ∈ clients, c.1 ≠ src → ReceivesFrame memory op data c.2 := by
  have hclient : ∀ c : Client, ((broadcastSend c (broadcastMessage memory op data)).2 = true →
      (broadcastSend c (broadcastMessage memory op data)).1 = frame op data) ↔
        ReceivesFrame memory op data c := by
    intro c
    have hloop := sendLoop_spec (broadcastMessage memory op data) 0 c.writes
    rw [broadcastMessage_length] at hloop
    rw [broadcastSend, ReceivesFrame]
    by_cases hopen : c.isOpen = true
    · rcases hc : completing (frame op data).length 0 c.writes with _ | ns
      · simp only [hc] at hloop
        simp [hopen, hloop]
      · simp only [hc] at hloop
        obtain ⟨heq, hne, hns⟩ := hloop
        simp only [hopen, if_true, heq, Bool.true_and, true_implies, Option.some.injEq, forall_eq',
          receives_iff hne hns]
    · simp [hopen]
  constructor
  · intro h c hc hne
    refine (hclient c.2).mp (h (c.1, _) (List.mem_map.mpr ⟨c, ?_, rfl⟩))
    exact List.mem_filter.mpr ⟨hc, by simpa using hne⟩
  · intro h out hout
    obtain ⟨c, hc, rfl⟩ := List.mem_map.mp hout
    obtain ⟨hc, hne⟩ := List.mem_filter.mp hc
    exact (hclient c.2).mpr (h c hc (by simpa using hne))

/-- A client that takes everything it is handed. -/
def Client.willing : Client := ⟨true, List.replicate 8 (2 ^ 20), true⟩

/-- Fresh memory holds zeros, and so does the header of the frame; where it happened to
hold the header, a client that takes three bytes at first receives these again. -/
theorem not_broadcastsFrame : ¬BroadcastsFrame (0, 0) .text (ascii "hello") 0 [(1, .willing)] ∧
    ¬BroadcastsFrame (129, 5) .text (ascii "hello") 0 [(1, ⟨true, [3, 7], true⟩)] := by
  constructor
  · intro h
    exact absurd (h _ List.mem_cons_self (by decide)) (by decide)
  · intro h
    exact absurd (h _ List.mem_cons_self (by decide)) (by decide)

/-! ### Sessions -/

/-- One turn of the loop of `handle`: whether the socket is open, whether `close` is
called while the frame is awaited, the frame received, whether its handler calls
`close` (or throws), and what the memory behind the payload holds. -/
structure Turn where
  isOpen : Bool
  closed : Bool
  received : Option (WsOp × Bytes)
  closes : Bool
  memory : Bytes

/-- What a session does: a call of `onMessage`, with `_endSession` at that moment, a
frame handed to the socket, a call of `onClose`. -/
inductive Action where
  | message (op : WsOp) (data : Bytes) (ended : Bool)
  | reply (bytes : Bytes)
  | closing
deriving DecidableEq, Repr

/-- `_endSession` after a turn.  A callback that throws ends the session, too. -/
def Turn.ends (onMessage : Bool) (t : Turn) : Bool :=
  match t.received with
  | none => true
  | some (op, _) =>
    match op with
    | .cont | .pong | .close => true
    | .text | .binary => t.closed || (onMessage && t.closes)
    | .ping => t.closed

/-- One turn.  For a ping the overload `send(const void*, size_t)` is chosen: the
opcode is taken for a size, and the frame is a binary one. -/
def Turn.actions (onMessage : Bool) (t : Turn) : List Action :=
  match t.received with
  | none => []
  | some (op, data) =>
    match op with
    | .pong | .cont => if onMessage then [.message op data true] else []
    | .text | .binary => if onMessage then [.message op data t.closed] else []
    | .close => [.closing]
    | .ping =>
      ((send t.closed .binary ((data ++ t.memory).take WsOp.pong.code.toNat)).map .reply).toList

/-- The turns that the loop takes. -/
def handled (onMessage : Bool) : Bool → List Turn → List Turn
  | _, [] => []
  | endSession, t :: ts =>
    if !endSession && t.isOpen then t :: handled onMessage (t.ends onMessage) ts else []

/-- `handle`, after `onConnect`, which may end the session. -/
def handle (onMessage endSession : Bool) (ts : List Turn) : List Action :=
  (handled onMessage endSession ts).flatMap (Turn.actions onMessage)

/-- What a frame calls for, while the session lasts. -/
def Turn.proper (onMessage : Bool) (t : Turn) : List Action :=
  match t.received with
  | none => []
  | some (op, data) =>
    match op with
    | .pong | .cont => []
    | .text | .binary => if onMessage && !t.closed then [.message op data false] else []
    | .close => [.closing]
    | .ping => if t.closed then [] else [.reply (frame .pong data)]

/-- Every text or binary frame that is received before the session ends is handed to
`onMessage`, and no other one; every ping is answered with its payload. -/
def HandlesFrames (onMessage endSession : Bool) (ts : List Turn) : Prop :=
  handle onMessage endSession ts =
    (handled onMessage endSession ts).flatMap (Turn.proper onMessage)

/-- The turn meets no ping; if there is a handler, it meets no frame of an unsupported
kind, and no message when the session was ended while it was awaited. -/
def Turn.Harmless (onMessage : Bool) (t : Turn) : Prop :=
  ∀ op data, t.received = some (op, data) → (op = .ping → t.closed) ∧
    (onMessage → op ≠ .pong ∧ op ≠ .cont ∧ (op = .text ∨ op = .binary → t.closed = false))

/-- Frames of different kinds differ. -/
theorem frame_inj {op op' : WsOp} {data data' : Bytes} (h : frame op data = frame op' data') :
    op = op' := by
  obtain ⟨b, hb, -⟩ := sendHeader_cons op data.length
  obtain ⟨b', hb', -⟩ := sendHeader_cons op' data'.length
  rw [frame, frame, hb, hb'] at h
  have hfirst := (List.cons.inj h).1
  cases op <;> cases op' <;> first | rfl | exact absurd hfirst (by decide)

/-- A harmless turn does what it should. -/
theorem Turn.actions_eq_proper {onMessage : Bool} {t : Turn} (h : t.Harmless onMessage) :
    t.actions onMessage = t.proper onMessage := by
  rcases hr : t.received with _ | ⟨op, data⟩
  · simp [actions, proper, hr]
  · obtain ⟨hping, hother⟩ := h op data hr
    cases op <;> cases onMessage <;> simp_all [actions, proper, send]

/-- Any other turn does something else, also together with what comes after. -/
theorem Turn.actions_ne_proper {onMessage : Bool} {t : Turn} (h : ¬t.Harmless onMessage)
    {as bs : List Action} (hends : t.ends onMessage = true → as = [] ∧ bs = []) :
    t.actions onMessage ++ as ≠ t.proper onMessage ++ bs := by
  rw [Harmless] at h
  push Not at h
  obtain ⟨op, data, hr, h⟩ := h
  cases hclosed : t.closed
  · cases op
    case ping =>
      -- The frame sent is no pong.
      intro heq
      simp only [actions, proper, hr, hclosed, send, Bool.false_eq_true, if_false, Option.map_some,
        Option.toList_some, List.cons_append, List.nil_append, List.cons.injEq, Action.reply.injEq]
        at heq
      exact absurd (frame_inj heq.1) (by decide)
    all_goals
      cases onMessage <;> simp_all [actions, proper, ends]
  · cases op <;> cases onMessage <;> simp_all [actions, proper, ends]

/-- **Along which frames a session does what it should.** -/
theorem handlesFrames_iff (onMessage endSession : Bool) (ts : List Turn) :
    HandlesFrames onMessage endSession ts ↔
      ∀ t ∈ handled onMessage endSession ts, t.Harmless onMessage := by
  rw [HandlesFrames, handle]
  induction ts generalizing endSession with
  | nil => simp [handled]
  | cons t ts ih =>
    rw [handled]
    split_ifs with hgo
    · rw [List.flatMap_cons, List.flatMap_cons, List.forall_mem_cons, ← ih]
      have hends : t.ends onMessage = true → handled onMessage (t.ends onMessage) ts = [] := by
        intro h
        cases ts <;> simp [handled, h]
      by_cases hharm : t.Harmless onMessage
      · rw [Turn.actions_eq_proper hharm, List.append_cancel_left_eq]
        exact (and_iff_right hharm).symm
      · refine iff_of_false (Turn.actions_ne_proper hharm fun h => ?_) fun h => hharm h.1
        simp [hends h]
    · simp

/-- A ping is answered by a binary frame with ten bytes of the buffer; a pong is handed
to the handler of messages, after the end of the session. -/
theorem not_handlesFrames :
    ¬HandlesFrames true false [⟨true, false, some (.ping, ascii "hi"), false, ascii "12345678"⟩] ∧
    handle true false [⟨true, false, some (.ping, ascii "hi"), false, ascii "12345678"⟩] =
      [.reply (frame .binary (ascii "hi12345678"))] ∧
    handle true false [⟨true, false, some (.pong, ascii "hi"), false, []⟩] =
      [.message .pong (ascii "hi") true] := by
  refine ⟨fun h => ?_, by decide, by decide⟩
  rw [HandlesFrames] at h
  exact absurd h (by decide)

end Suil.WebSock
