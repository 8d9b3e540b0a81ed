/-
Requests to the validator and their responses.

All streams share one map of the requests on the air, under ids from one counter of 32 bits.
A request is put into the map before it is sent, and the dispatcher takes it out when a
message with its id arrives.

* `Exact` — the map has the requests that wait for a response, each under its own id;
* `arrive_right` — a response is given to the request that waits for it, if there is one;
* `run_exact_iff` — the runs in which the map is exact after every step.
-/
import Suil.StringParts
import Suil.Lib.Runs

open Runs

namespace Suil.Dispatcher

/-- `sawtooth::protos::Message` -/
structure Proto where
  message_type : ℕ := 0
  correlation_id : Bytes := []
  content : Bytes := []
deriving DecidableEq

def TP_PROCESS_REQUEST : ℕ := 5

def PING_REQUEST : ℕ := 700

/-- How far the sending of a request is: under way, done, given up by the socket, or ended by an
exception. -/
inductive Sending where
  | pending
  | done
  | lost
  | thrown
deriving DecidableEq

/-- `OnAirMessage`, with all that was given to `setMessage`; its `mMessage` is the last of it. -/
structure OnAirMessage where
  mCorrelationId : Bytes
  sending : Sending
  messages : List Proto
deriving DecidableEq

/-- The streams are numbered, and so are the requests, in the order of the calls. -/
structure State where
  correlationCounter : ℕ := 0
  onAirMsgs : List (Bytes × ℕ) := []
  requests : List OnAirMessage := []
  connected : List ℕ := []
deriving DecidableEq

inductive Op where
  /-- `Stream::asyncSend` up to the send on the socket; `connects` is what connecting the
  stream's socket returns, if it is not connected. -/
  | asyncSend (stream type : ℕ) (data : Bytes) (connects : Bool)
  /-- The send on the socket returns; its result is not looked at. -/
  | sends (request : ℕ) (result : Bool)
  /-- `Dispatcher::receiveMessages` receives a message. -/
  | receive (zmsg : List Bytes)
deriving DecidableEq

inductive Out where
  | sending (request : ℕ) (msg : Proto)
  | thrown
  | returned
  | ignored
  | forwarded (zmsg : List Bytes)
  | pong (msg : Proto)
  | given (request : ℕ)
  | unmatched
deriving DecidableEq

/-! ### The steps -/

/-- `mOnAirMsgs[id] = request` -/
def put (onAirMsgs : List (Bytes × ℕ)) (id : Bytes) (request : ℕ) : List (Bytes × ℕ) :=
  onAirMsgs.filter (fun e => !strEq e.1 id) ++ [(id, request)]

/-- `Stream::asyncSend` -/
def asyncSend (s : State) (stream type : ℕ) (data : Bytes) (connects : Bool) : Out × State :=
  let correlationCounter := (s.correlationCounter + 1) % 2 ^ 32
  let id := decimalText correlationCounter
  let onAirMsgs := put s.onAirMsgs id s.requests.length
  if stream ∉ s.connected ∧ connects = false then
    (.thrown, { s with
      correlationCounter := correlationCounter
      onAirMsgs := onAirMsgs
      requests := s.requests ++ [⟨id, .thrown, []⟩] })
  else
    (.sending s.requests.length ⟨type, id, data⟩,
      { correlationCounter := correlationCounter
        onAirMsgs := onAirMsgs
        requests := s.requests ++ [⟨id, .pending, []⟩]
        connected := stream :: s.connected })

def OnAirMessage.sends (result : Bool) (o : OnAirMessage) : OnAirMessage :=
  { o with sending := if result then .done else .lost }

def OnAirMessage.setMessage (proto : Proto) (o : OnAirMessage) : OnAirMessage :=
  { o with messages := o.messages ++ [proto] }

/-- The response in a message, as it is parsed; there is none in a message that is empty or that
is a request of the validator. -/
def response (parse : Bytes → Proto) (zmsg : List Bytes) : Option Proto :=
  if zmsg.getLastD [] = [] then none
  else
    let proto := parse (zmsg.getLastD [])
    if proto.message_type = TP_PROCESS_REQUEST ∨ proto.message_type = PING_REQUEST then none
    else some proto

/-- The `default` case of `receiveMessages`. -/
def deliver (s : State) (proto : Proto) : Out × State :=
  match s.onAirMsgs.find? fun e => strEq e.1 proto.correlation_id with
  | none => (.unmatched, s)
  | some e =>
    (.given e.2, { s with
      onAirMsgs := s.onAirMsgs.filter fun e => !strEq e.1 proto.correlation_id
      requests := s.requests.modify e.2 (OnAirMessage.setMessage proto) })

/-- `Dispatcher::receiveMessages`: one message. -/
def receive (parse : Bytes → Proto) (s : State) (zmsg : List Bytes) : Out × State :=
  if zmsg.getLastD [] = [] then (.ignored, s)
  else
    let proto := parse (zmsg.getLastD [])
    if proto.message_type = TP_PROCESS_REQUEST then (.forwarded zmsg, s)
    else if proto.message_type = PING_REQUEST then (.pong ⟨701, proto.correlation_id, []⟩, s)
    else deliver s proto

/-- The steps.  What `ParseFromArray` leaves in a message is a parameter. -/
def step (parse : Bytes → Proto) (s : State) : Op → Option (Out × State)
  | .asyncSend stream type data connects => some (asyncSend s stream type data connects)
  | .sends request result =>
    if (s.requests[request]?.map OnAirMessage.sending) = some .pending then
      some (.returned, { s with
        requests := s.requests.modify request (OnAirMessage.sends result) })
    else none
  | .receive zmsg => some (receive parse s zmsg)

/-! ### What should hold -/

/-- A request whose sending has not failed, and that was given nothing. -/
def OnAirMessage.Waits (o : OnAirMessage) : Prop :=
  (o.sending = .pending ∨ o.sending = .done) ∧ o.messages = []

instance (o : OnAirMessage) : Decidable o.Waits :=
  inferInstanceAs (Decidable ((o.sending = .pending ∨ o.sending = .done) ∧ o.messages = []))

namespace State

/-- A request waits for a response with this id. -/
def Waits (s : State) (request : ℕ) (id : Bytes) : Prop :=
  ∃ o, s.requests[request]? = some o ∧ o.mCorrelationId = id ∧ o.Waits

/-- What a request was given. -/
def messages (s : State) (request : ℕ) : List Proto :=
  (s.requests[request]?.map OnAirMessage.messages).getD []

/-- **The map is exact**: it has the requests that wait, no two of them have one id, and none
was given two messages. -/
structure Exact (s : State) : Prop where
  entries : ∀ id request, (id, request) ∈ s.onAirMsgs ↔ s.Waits request id
  distinct : ∀ id j k, s.Waits j id → s.Waits k id → j = k
  once : ∀ request, (s.messages request).length ≤ 1

end State

/-- What a move should do: it leaves the map exact, and a response goes to the request that
waits for it and to no other. -/
structure Right (parse : Bytes → Proto) (m : Move State Op Out) : Prop where
  exact : m.after.Exact
  given : ∀ zmsg proto, m.input = .receive zmsg → response parse zmsg = some proto → ∀ k,
    (m.before.Waits k proto.correlation_id →
      m.after.messages k = m.before.messages k ++ [proto]) ∧
    (¬m.before.Waits k proto.correlation_id → m.after.messages k = m.before.messages k)
  kept : (∀ zmsg proto, m.input = .receive zmsg → response parse zmsg ≠ some proto) →
    ∀ k, m.after.messages k = m.before.messages k

/-- Connecting does not fail and the next id is that of no request that waits; the socket gives
up only on a request that was answered before. -/
def Safe (s : State) : Op → Prop
  | .asyncSend stream _ _ connects =>
    (stream ∈ s.connected ∨ connects = true) ∧
      ∀ k, ¬s.Waits k (decimalText ((s.correlationCounter + 1) % 2 ^ 32))
  | .sends request result => result = true ∨ s.messages request ≠ []
  | .receive _ => True

variable {parse : Bytes → Proto} {s t : State} {o : OnAirMessage} {id cid : Bytes} {j k r : ℕ}

/-! ### The requests -/

namespace State

/-- A request is added. -/
theorem waits_append (h : t.requests = s.requests ++ [o]) :
    t.Waits k id ↔ s.Waits k id ∨ k = s.requests.length ∧ o.mCorrelationId = id ∧ o.Waits := by
  rw [Waits, Waits, h]
  rcases lt_trichotomy k s.requests.length with hlt | rfl | hgt
  · simp [List.getElem?_append_left hlt, hlt.ne]
  · simp
  · have hnone : (s.requests ++ [o])[k]? = none := List.getElem?_eq_none (by simp; omega)
    have hnone' : s.requests[k]? = none := List.getElem?_eq_none (by omega)
    simp [hnone, hnone', hgt.ne']

theorem messages_append (h : t.requests = s.requests ++ [o]) (ho : o.messages = []) (k : ℕ) :
    t.messages k = s.messages k := by
  rw [messages, messages, h]
  rcases lt_trichotomy k s.requests.length with hlt | rfl | hgt
  · rw [List.getElem?_append_left hlt]
  · simp [ho]
  · rw [List.getElem?_eq_none (by simp; omega), List.getElem?_eq_none (by omega)]

/-- A request is changed. -/
theorem waits_modify {f : OnAirMessage → OnAirMessage} (h : t.requests = s.requests.modify r f)
    (hid : ∀ o, (f o).mCorrelationId = o.mCorrelationId) :
    t.Waits k id ↔ if r = k then ∃ o, s.requests[k]? = some o ∧ o.mCorrelationId = id ∧
      (f o).Waits else s.Waits k id := by
  rw [Waits, h, List.getElem?_modify]
  split_ifs with heq
  · cases hr : s.requests[k]? with
    | none => simp
    | some o => simp [hid]
  · rw [Waits]
    simp

theorem messages_modify {f : OnAirMessage → OnAirMessage} (h : t.requests = s.requests.modify r f)
    (k : ℕ) : t.messages k = if r = k then
      (s.requests[k]?.map fun o => (f o).messages).getD [] else s.messages k := by
  rw [messages, h, List.getElem?_modify]
  split_ifs with heq
  · cases s.requests[k]? <;> rfl
  · rw [messages]
    simp

theorem Waits.messages (h : s.Waits k id) : s.messages k = [] := by
  obtain ⟨o, ho, -, -, hnone⟩ := h
  rw [State.messages, ho]
  exact hnone

theorem Waits.id_eq (h : s.Waits k id) (h' : s.Waits k cid) : id = cid := by
  obtain ⟨o, ho, hid, -⟩ := h
  obtain ⟨o', ho', hcid, -⟩ := h'
  obtain rfl := Option.some.inj (ho.symm.trans ho')
  exact hid.symm.trans hcid

end State

/-! ### The map -/

/-- The keys of the map are printed numbers. -/
def Numbered (onAirMsgs : List (Bytes × ℕ)) : Prop := ∀ e ∈ onAirMsgs, ∃ n, e.1 = decimalText n

theorem strEq_decimalText (n : ℕ) : strEq (decimalText n) id = true ↔ id = decimalText n := by
  have hzero : 0 ∉ decimalText n := fun hmem => absurd (isDigit_decimalText hmem) (by decide)
  exact strEq_eq_true_iff hzero (decimalText_ne_nil n)

variable {m : List (Bytes × ℕ)} {e : Bytes × ℕ}

/-- A key is taken out. -/
theorem mem_filter (h : Numbered m) :
    e ∈ m.filter (fun e => !strEq e.1 cid) ↔ e ∈ m ∧ e.1 ≠ cid := by
  rw [List.mem_filter]
  refine and_congr_right fun he => ?_
  obtain ⟨n, hn⟩ := h e he
  rw [Bool.not_eq_true', Bool.eq_false_iff, ne_eq, hn, strEq_decimalText]
  exact not_congr eq_comm

theorem mem_put (h : Numbered m) : e ∈ put m id k ↔ e ∈ m ∧ e.1 ≠ id ∨ e = (id, k) := by
  rw [put, List.mem_append, mem_filter h, List.mem_singleton]

theorem numbered_put (h : Numbered m) (n : ℕ) : Numbered (put m (decimalText n) k) := by
  intro e he
  rcases (mem_put h).mp he with ⟨hold, -⟩ | rfl
  · exact h e hold
  · exact ⟨n, rfl⟩

theorem numbered_filter (h : Numbered m) : Numbered (m.filter fun e => !strEq e.1 cid) :=
  fun e he => h e (List.mem_of_mem_filter he)

/-! ### One step -/

/-- The map is exact, under printed numbers. -/
def Kept (s : State) : Prop := s.Exact ∧ Numbered s.onAirMsgs

/-- Where the requests have what they had, it is left to tell that the map is exact. -/
theorem right_iff_exact {u v : State} {i : Op} {out : Out}
    (hinput : ∀ zmsg proto, i = .receive zmsg → response parse zmsg ≠ some proto)
    (hkept : ∀ k, v.messages k = u.messages k) : Right parse ⟨u, i, out, v⟩ ↔ v.Exact :=
  ⟨fun h => h.exact, fun h => ⟨h, fun zmsg proto hzmsg hproto =>
    absurd hproto (hinput zmsg proto hzmsg), fun _ => hkept⟩⟩

/-- **A request is put into the map**: it stays there when connecting fails, and it takes the
place of another one with its id. -/
theorem asyncSend_right_iff (h : Kept s) (stream type : ℕ) (data : Bytes) (connects : Bool) :
    (Right parse ⟨s, .asyncSend stream type data connects,
      (asyncSend s stream type data connects).1, (asyncSend s stream type data connects).2⟩ ↔
        Safe s (.asyncSend stream type data connects)) ∧
      (Safe s (.asyncSend stream type data connects) →
        Kept (asyncSend s stream type data connects).2) := by
  obtain ⟨hexact, hnumbered⟩ := h
  set n := (s.correlationCounter + 1) % 2 ^ 32 with hn
  set v := (asyncSend s stream type data connects).2 with hv
  have hmap : v.onAirMsgs = put s.onAirMsgs (decimalText n) s.requests.length := by
    rw [hv, asyncSend]
    split_ifs <;> rfl
  have hfails : ∃ o : OnAirMessage, v.requests = s.requests ++ [o] ∧
      o.mCorrelationId = decimalText n ∧ o.messages = [] ∧
        (o.Waits ↔ stream ∈ s.connected ∨ connects = true) := by
    rw [hv, asyncSend]
    split_ifs with hthrown
    · exact ⟨_, rfl, rfl, rfl, by simp [OnAirMessage.Waits, hthrown]⟩
    · refine ⟨_, rfl, rfl, rfl, ?_⟩
      simp only [OnAirMessage.Waits, true_or, and_self, true_iff]
      rwa [not_and_or, not_not, Bool.not_eq_false] at hthrown
  obtain ⟨o, hrequests, hid, hnone, hwaits⟩ := hfails
  have hentry : (decimalText n, s.requests.length) ∈ v.onAirMsgs := by
    rw [hmap, mem_put hnumbered]
    exact Or.inr rfl
  have hmessages : ∀ k, v.messages k = s.messages k := State.messages_append hrequests hnone
  have hsafe : v.Exact ↔ Safe s (.asyncSend stream type data connects) := by
    constructor
    · intro hv
      obtain ⟨o', ho', -, hw⟩ := (hv.entries _ _).mp hentry
      rw [hrequests, List.getElem?_concat_length] at ho'
      obtain rfl := Option.some.inj ho'
      refine ⟨hwaits.mp hw, fun k hk => ?_⟩
      have hlt : k < s.requests.length := by
        obtain ⟨o', ho', -⟩ := hk
        exact (List.getElem?_eq_some_iff.mp ho').1
      -- an older request with this id would wait beside the new one
      have hboth := hv.distinct (decimalText n) k s.requests.length
        ((State.waits_append hrequests).mpr (Or.inl hk)) ((hv.entries _ _).mp hentry)
      omega
    · rintro ⟨hconnects, hfree⟩
      have how := hwaits.mpr hconnects
      refine ⟨fun id k => ?_, fun id j k hj hk => ?_, fun k => ?_⟩
      · rw [hmap, mem_put hnumbered, State.waits_append hrequests, hexact.entries, hid]
        refine or_congr (and_iff_left_of_imp fun hold heq => hfree k (heq ▸ hold)) ?_
        rw [Prod.mk.injEq]
        exact ⟨fun ⟨h₁, h₂⟩ => ⟨h₂, h₁.symm, how⟩, fun ⟨h₁, h₂, _⟩ => ⟨h₂.symm, h₁⟩⟩
      · rw [State.waits_append hrequests, hid] at hj hk
        rcases hj with hj | ⟨rfl, rfl, -⟩ <;> rcases hk with hk | ⟨rfl, hk, -⟩
        · exact hexact.distinct id j k hj hk
        · exact absurd hj (hk ▸ hfree j)
        · exact absurd hk (hfree k)
        · rfl
      · rw [hmessages]
        exact hexact.once k
  refine ⟨(right_iff_exact (by simp) hmessages).trans hsafe, fun hs => ?_⟩
  exact ⟨hsafe.mpr hs, hmap ▸ numbered_put hnumbered n⟩

/-- **The send on the socket returns**: the request stays in the map, whatever was returned. -/
theorem sends_right_iff (h : Kept s) {result : Bool}
    (hpending : s.requests[r]?.map OnAirMessage.sending = some .pending)
    (hv : t = { s with requests := s.requests.modify r (OnAirMessage.sends result) }) :
    (Right parse ⟨s, .sends r result, .returned, t⟩ ↔ Safe s (.sends r result)) ∧
      (Safe s (.sends r result) → Kept t) := by
  obtain ⟨hexact, hnumbered⟩ := h
  have hrequests : t.requests = s.requests.modify r (OnAirMessage.sends result) := by rw [hv]
  have hmap : t.onAirMsgs = s.onAirMsgs := by rw [hv]
  obtain ⟨o, ho, hsending⟩ := Option.map_eq_some_iff.mp hpending
  have hmessages : ∀ k, t.messages k = s.messages k := by
    intro k
    rw [State.messages_modify hrequests]
    split_ifs with heq
    · rfl
    · rfl
  have hwaits : ∀ k id, t.Waits k id ↔
      s.Waits k id ∧ (r = k → result = true ∨ s.messages r ≠ []) := by
    intro k id
    rw [State.waits_modify hrequests fun _ => rfl]
    split_ifs with heq
    · subst heq
      simp only [ho, Option.some.injEq, exists_eq_left', State.Waits, State.messages,
        Option.map_some, Option.getD_some, OnAirMessage.Waits, OnAirMessage.sends, hsending]
      cases result <;> simp
    · simp [heq]
  have hsafe : t.Exact ↔ Safe s (.sends r result) := by
    constructor
    · intro ht
      by_contra hunsafe
      rw [Safe, not_or, not_not] at hunsafe
      have hw : s.Waits r o.mCorrelationId := by
        refine ⟨o, ho, rfl, Or.inl hsending, ?_⟩
        have hnone := hunsafe.2
        rwa [State.messages, ho] at hnone
      -- its entry is still there when it does not wait any more
      have hentry := (hexact.entries _ _).mpr hw
      rw [← hmap, ht.entries, hwaits] at hentry
      rcases hentry.2 rfl with hresult | hanswered
      · exact hunsafe.1 hresult
      · exact hanswered hunsafe.2
    · intro hs
      have hsame : ∀ k id, t.Waits k id ↔ s.Waits k id := fun k id =>
        (hwaits k id).trans (and_iff_left fun _ => hs)
      refine ⟨fun id k => ?_, fun id j k hj hk => ?_, fun k => ?_⟩
      · rw [hmap, hexact.entries, hsame]
      · exact hexact.distinct id j k ((hsame j id).mp hj) ((hsame k id).mp hk)
      · rw [hmessages]
        exact hexact.once k
  refine ⟨(right_iff_exact (by simp) hmessages).trans hsafe, fun hs => ?_⟩
  exact ⟨hsafe.mpr hs, hmap ▸ hnumbered⟩

/-- What is taken out of the map for a response. -/
theorem find_iff (h : Kept s) (cid : Bytes) :
    s.onAirMsgs.find? (fun e => strEq e.1 cid) = none ∧ (∀ k, ¬s.Waits k cid) ∨
      ∃ k, s.onAirMsgs.find? (fun e => strEq e.1 cid) = some (cid, k) ∧ s.Waits k cid := by
  obtain ⟨hexact, hnumbered⟩ := h
  cases hfind : s.onAirMsgs.find? (fun e => strEq e.1 cid) with
  | none =>
    refine Or.inl ⟨rfl, fun k hk => ?_⟩
    have hentry := (hexact.entries cid k).mpr hk
    obtain ⟨n, hn⟩ := hnumbered _ hentry
    have hne := List.find?_eq_none.mp hfind _ hentry
    rw [hn] at hne
    exact hne ((strEq_decimalText n).mpr hn)
  | some e =>
    have he := List.mem_of_find?_eq_some hfind
    obtain ⟨n, hn⟩ := hnumbered e he
    have heq := List.find?_some hfind
    rw [hn, strEq_decimalText, ← hn] at heq
    subst heq
    exact Or.inr ⟨e.2, rfl, (hexact.entries _ _).mp he⟩

/-- **A response** goes to the request that waits for it, which waits no more. -/
theorem deliver_right (h : Kept s) {zmsg : List Bytes} {proto : Proto}
    (hresponse : response parse zmsg = some proto) :
    Right parse ⟨s, .receive zmsg, (deliver s proto).1, (deliver s proto).2⟩ ∧
      Kept (deliver s proto).2 := by
  obtain ⟨hexact, hnumbered⟩ := h
  have hinput : ∀ zmsg' proto', Op.receive zmsg = .receive zmsg' →
      response parse zmsg' = some proto' → proto' = proto := by
    rintro zmsg' proto' hzmsg hproto'
    rw [← Op.receive.inj hzmsg, hresponse] at hproto'
    exact (Option.some.inj hproto').symm
  rcases find_iff ⟨hexact, hnumbered⟩ proto.correlation_id with
    ⟨hfind, hnobody⟩ | ⟨r, hfind, hr⟩
  · have hdeliver : deliver s proto = (.unmatched, s) := by rw [deliver, hfind]
    rw [hdeliver]
    refine ⟨⟨hexact, fun zmsg' proto' hzmsg hproto' k => ?_, fun _ _ => rfl⟩, hexact, hnumbered⟩
    rw [hinput zmsg' proto' hzmsg hproto']
    exact ⟨fun hk => absurd hk (hnobody k), fun _ => rfl⟩
  · set t := (deliver s proto).2 with ht
    have hmap : t.onAirMsgs = s.onAirMsgs.filter fun e => !strEq e.1 proto.correlation_id := by
      rw [ht, deliver, hfind]
    have hrequests : t.requests = s.requests.modify r (OnAirMessage.setMessage proto) := by
      rw [ht, deliver, hfind]
    have hown : t.messages r = s.messages r ++ [proto] := by
      obtain ⟨o, ho, -⟩ := hr
      rw [State.messages_modify hrequests, if_pos rfl, State.messages, ho]
      rfl
    have hother : ∀ k, r ≠ k → t.messages k = s.messages k := fun k hne => by
      rw [State.messages_modify hrequests, if_neg hne]
    -- the request has its message, and the other requests wait as before
    have hwaits : ∀ k id, t.Waits k id ↔ s.Waits k id ∧ r ≠ k := by
      intro k id
      rw [State.waits_modify hrequests fun _ => rfl]
      split_ifs with heq
      · simp [heq, OnAirMessage.Waits, OnAirMessage.setMessage]
      · simp [heq]
    have hexact' : t.Exact := by
      refine ⟨fun id k => ?_, fun id j k hj hk => ?_, fun k => ?_⟩
      · rw [hmap, mem_filter hnumbered, hexact.entries, hwaits]
        refine and_congr_right fun hk => not_congr ⟨fun hid => ?_, fun heq => ?_⟩
        · exact hexact.distinct _ r k hr (hid ▸ hk)
        · exact hk.id_eq (heq ▸ hr)
      · exact hexact.distinct id j k ((hwaits j id).mp hj).1 ((hwaits k id).mp hk).1
      · rcases eq_or_ne r k with rfl | hne
        · rw [hown, hr.messages]
          exact le_rfl
        · rw [hother k hne]
          exact hexact.once k
    refine ⟨⟨hexact', fun zmsg' proto' hzmsg hproto' k => ?_, fun hnone => ?_⟩, hexact', ?_⟩
    · rw [hinput zmsg' proto' hzmsg hproto']
      refine ⟨fun hk => ?_, fun hk => hother k fun heq => hk (heq ▸ hr)⟩
      rw [← hexact.distinct _ r k hr hk]
      exact hown
    · exact absurd hresponse (hnone zmsg proto rfl)
    · rw [hmap]
      exact numbered_filter hnumbered

/-- **A message is received**: nothing is given to a request unless it is a response. -/
theorem receive_right (parse : Bytes → Proto) (h : Kept s) (zmsg : List Bytes) :
    Right parse ⟨s, .receive zmsg, (receive parse s zmsg).1, (receive parse s zmsg).2⟩ ∧
      Kept (receive parse s zmsg).2 := by
  have hsame : (receive parse s zmsg).2 = s → response parse zmsg = none →
      Right parse ⟨s, .receive zmsg, (receive parse s zmsg).1, (receive parse s zmsg).2⟩ ∧
        Kept (receive parse s zmsg).2 := by
    intro hv hnone
    rw [hv]
    refine ⟨(right_iff_exact ?_ fun _ => rfl).mpr h.1, h⟩
    intro zmsg' proto heq
    rw [← Op.receive.inj heq, hnone]
    exact (Option.some_ne_none proto).symm
  by_cases hempty : zmsg.getLastD [] = []
  · refine hsame ?_ ?_
    · rw [receive, if_pos hempty]
    · rw [response, if_pos hempty]
  by_cases hprocess : (parse (zmsg.getLastD [])).message_type = TP_PROCESS_REQUEST
  · refine hsame ?_ ?_
    · rw [receive, if_neg hempty]
      exact congrArg Prod.snd (if_pos hprocess)
    · rw [response, if_neg hempty]
      exact if_pos (Or.inl hprocess)
  by_cases hping : (parse (zmsg.getLastD [])).message_type = PING_REQUEST
  · refine hsame ?_ ?_
    · rw [receive, if_neg hempty]
      exact congrArg Prod.snd ((if_neg hprocess).trans (if_pos hping))
    · rw [response, if_neg hempty]
      exact if_pos (Or.inr hping)
  have hreceive : receive parse s zmsg = deliver s (parse (zmsg.getLastD [])) := by
    rw [receive, if_neg hempty]
    exact (if_neg hprocess).trans (if_neg hping)
  rw [hreceive]
  refine deliver_right h ?_
  rw [response, if_neg hempty]
  exact if_neg (not_or.mpr ⟨hprocess, hping⟩)

/-! ### Runs -/

theorem kept_start : Kept {} := by
  have hnobody : ∀ k id, ¬({} : State).Waits k id := fun k id ⟨o, ho, _⟩ => by simp at ho
  refine ⟨⟨fun id k => ?_, fun id j k hj => absurd hj (hnobody j id), fun k => ?_⟩, ?_⟩
  · exact iff_of_false List.not_mem_nil (hnobody k id)
  · exact Nat.zero_le _
  · exact fun e he => absurd he List.not_mem_nil

/-- **The runs in which the map is exact** after every step, and every response goes to the
request that waits for it, are those in which connecting never fails, no id is given to two
requests that wait, and the socket gives up on none that waits. -/
theorem run_exact_iff (parse : Bytes → Proto) {ms : List (Move State Op Out)}
    (h : Run (step parse) {} ms s) :
    (∀ m ∈ ms, Right parse m) ↔ ∀ m ∈ ms, Safe m.before m.input := by
  refine h.moves_iff (K := Kept) kept_start ?_
  intro u i out v hu hstep
  cases i with
  | asyncSend stream type data connects =>
    obtain ⟨rfl, rfl⟩ := Prod.mk.inj (Option.some.inj hstep)
    exact asyncSend_right_iff hu stream type data connects
  | sends r result =>
    obtain ⟨hpending, hstep⟩ := Option.ite_none_right_eq_some.mp hstep
    obtain ⟨rfl, rfl⟩ := Prod.mk.inj (Option.some.inj hstep)
    exact sends_right_iff hu hpending rfl
  | receive zmsg =>
    obtain ⟨rfl, rfl⟩ := Prod.mk.inj (Option.some.inj hstep)
    obtain ⟨hright, hkept⟩ := receive_right parse hu zmsg
    exact ⟨iff_of_true hright trivial, fun _ => hkept⟩

/-- Two responses of the type `TP_STATE_GET_RESPONSE`, as they are sent. -/
def sampleParse (frame : Bytes) : Proto :=
  if frame = [8, 8, 18, 1, 49] then ⟨8, ascii "1", []⟩
  else if frame = [8, 8, 18, 1, 50] then ⟨8, ascii "2", []⟩
  else {}

/-- Two streams; the second is answered first, and the first twice. -/
def sampleOps : List Op :=
  [.asyncSend 0 7 [] true, .asyncSend 1 7 [] true, .sends 0 true, .receive [[8, 8, 18, 1, 50]],
    .sends 1 true, .receive [[8, 8, 18, 1, 49]], .receive [[8, 8, 18, 1, 49]]]

theorem run_exact_iff_seven :
    (∀ m ∈ moves (step sampleParse) {} sampleOps, Right sampleParse m) ↔
      ∀ m ∈ moves (step sampleParse) {} sampleOps, Safe m.before m.input :=
  run_exact_iff sampleParse (run_final (step sampleParse) {} sampleOps)

example : (moves (step sampleParse) {} sampleOps).map Move.output =
    [.sending 0 ⟨7, ascii "1", []⟩, .sending 1 ⟨7, ascii "2", []⟩, .returned, .given 1, .returned,
      .given 0, .unmatched] := by decide +kernel

/-- The request of a call that throws stays in the map, and takes the response with its id. -/
theorem not_run_exact :
    let ops : List Op := [.asyncSend 0 7 [] false, .receive [[8, 8, 18, 1, 49]]]
    Run (step sampleParse) {} (moves (step sampleParse) {} ops) (final (step sampleParse) {} ops) ∧
      (moves (step sampleParse) {} ops).map Move.output = [.thrown, .given 0] ∧
      (moves (step sampleParse) {} ops).map (fun m => m.after.onAirMsgs) =
        [[(ascii "1", 0)], []] ∧
      ¬∀ m ∈ moves (step sampleParse) {} ops, Right sampleParse m := by
  refine ⟨run_final _ _ _, by decide +kernel, by decide +kernel, fun hright => ?_⟩
  have hexact := (hright _ List.mem_cons_self).exact
  obtain ⟨o, ho, -, hwaits, -⟩ := (hexact.entries (ascii "1") 0).mp (by decide +kernel)
  rw [← Option.some.inj ho] at hwaits
  simp at hwaits

end Suil.Dispatcher
