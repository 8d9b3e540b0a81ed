/-
The transaction processor.

The dispatcher puts the requests of the validator into a queue, and `run` takes one after the
other, has its handler apply the transaction, and sends a response.  While a transaction is applied
the validator is asked for parts of its state, each time with a request on the air.  Meanwhile the
dispatcher goes on receiving, and the handlers are being registered.

* `Talks` — what a processor asks and what it gets, up to where it stands;
* `Kept` — what holds between the steps: who is served, who is being served, and who waits;
* `kept_run` — that it holds after any run;
* `run_served` — every request is answered once, in their order, for what its handler made of it.
-/
import Suil.Dispatcher

open Runs

namespace Suil.TransactionProcessor

open Dispatcher (Numbered OnAirMessage Proto mem_put numbered_filter numbered_put response)

def TP_REGISTER_REQUEST : ℕ := 1

/-- `TpProcessResponse::Status` -/
inductive Status where
  | ok
  | invalidTransaction
  | internalError
deriving DecidableEq, Repr

/-- How `apply` ends: it returns, throws `InvalidTransaction`, or throws something else. -/
inductive Applied where
  | returned
  | invalid
  | thrown
deriving DecidableEq, Repr

/-- What comes of a request on the air: the content of a response, or one of the exceptions
`UnexpectedMessage` and `StreamError`. -/
inductive Reply where
  | content (data : Bytes)
  | unexpected
  | unsent
deriving DecidableEq

/-- A processor that applies a transaction, by what it asks the validator next and by the type of
the response that it waits for. -/
inductive Processor where
  | ended (how : Applied)
  | asks (type expected : ℕ) (data : Bytes) (next : Reply → Processor)

/-- `sawtooth::protos::TransactionHeader` -/
structure TransactionHeader where
  batcher_public_key : Bytes := []
  dependencies : List Bytes := []
  family_name : Bytes
  family_version : Bytes := []
  inputs : List Bytes := []
  nonce : Bytes := []
  outputs : List Bytes := []
  payload_sha512 : Bytes := []
  signer_public_key : Bytes := []

/-- `TpProcessRequest` -/
structure ProcessRequest where
  header : Option TransactionHeader
  payload : Bytes
  signature : Bytes
  context_id : Bytes

/-- What is given: how messages are parsed, and the handlers by their families.  A handler may
throw instead of giving a processor. -/
structure Setup where
  parse : Bytes → Proto
  parseRequest : Bytes → ProcessRequest
  mHandlers : List (Bytes × (ProcessRequest → Option Processor))

/-- A request in `handleRequest`, and how far it is. -/
inductive Phase where
  | applying (processor : Processor)
  /-- The send on the socket has not returned to `asyncSend`, or its result was not looked for. -/
  | sending (future expected : ℕ) (next : Reply → Processor)
  | waiting (future expected : ℕ) (next : Reply → Processor)
  /-- There is a null pointer, or `run` has caught an exception. -/
  | stopped

structure Current where
  request : Proto
  stream : ℕ
  phase : Phase

/-- The streams are numbered; the first is `mRespStream`. -/
structure State where
  dispatcher : Dispatcher.State := {}
  queue : List (List Bytes) := []
  streams : ℕ := 1
  current : Option Current := none

inductive Op where
  /-- `Dispatcher::receiveMessages` receives a message. -/
  | receive (zmsg : List Bytes)
  /-- `registerAll`, up to the send on the socket. -/
  | registers (data : Bytes) (connects : Bool)
  /-- A send on a socket returns. -/
  | sends (future : ℕ) (result : Bool)
  /-- `run` takes a message from the queue. -/
  | takes
  /-- `asyncSend` of the processor, up to the send on the socket. -/
  | asks (connects : Bool)
  /-- `getMessage` begins. -/
  | gets
  /-- The event of `waitForMessage` is notified. -/
  | wakes
  /-- `sendResponse` -/
  | responds (connects : Bool)
deriving DecidableEq

inductive Out where
  | dispatcher (out : Dispatcher.Out)
  | took (request : Proto)
  | ignored
  | crashed (request : Proto)
  | asked (msg : Proto)
  | unsent
  | waits
  | got (reply : Reply)
  | responded (cid : Bytes) (status : Status)
  | stopped
deriving DecidableEq

/-! ### The steps -/

/-- The status that is set behind `apply`. -/
def Applied.status : Applied → Status
  | .returned => .ok
  | .invalid => .invalidTransaction
  | .thrown => .internalError

namespace Setup

variable (c : Setup)

/-- `handleRequest` up to `apply`, when there is a header.  A family without a handler is answered
as if the transaction were invalid, and a handler that throws as if `apply` did. -/
def processor (content : Bytes) : Option Processor :=
  (c.parseRequest content).header.map fun txnHeader =>
    match c.mHandlers.find? fun e => strEq e.1 txnHeader.family_name with
    | none => .ended .invalid
    | some it => (it.2 (c.parseRequest content)).getD (.ended .thrown)

/-- `Dispatcher::receiveMessages`: one message. -/
def receive (s : State) (zmsg : List Bytes) : Out × State :=
  let r := Dispatcher.receive c.parse s.dispatcher zmsg
  (.dispatcher r.1, { s with
    dispatcher := r.2
    queue := if r.1 = .forwarded zmsg then s.queue ++ [zmsg] else s.queue })

/-- The loop of `run`, and `handleRequest` up to `apply`. -/
def takes (s : State) : Option (Out × State) :=
  match s.current, s.queue with
  | none, msg :: queue =>
    let validatorMsg := c.parse (msg.getLastD [])
    if validatorMsg.message_type = Dispatcher.TP_PROCESS_REQUEST then
      match c.processor validatorMsg.content with
      | none => some (.crashed validatorMsg, { s with
          queue := queue
          current := some ⟨validatorMsg, s.streams, .stopped⟩ })
      | some p => some (.took validatorMsg, { s with
          queue := queue
          streams := s.streams + 1
          current := some ⟨validatorMsg, s.streams, .applying p⟩ })
    else some (.ignored, { s with queue := queue })
  | _, _ => none

end Setup

/-- `asyncSend` -/
def asks (s : State) (connects : Bool) : Option (Out × State) :=
  match s.current with
  | some ⟨request, stream, .applying (.asks type expected data next)⟩ =>
    let r := Dispatcher.asyncSend s.dispatcher stream type data connects
    match r.1 with
    | .sending future msg => some (.asked msg, { s with
        dispatcher := r.2
        current := some ⟨request, stream, .sending future expected next⟩ })
    | _ => some (.unsent, { s with
        dispatcher := r.2
        current := some ⟨request, stream, .applying (next .unsent)⟩ })
  | _ => none

/-- `mMessage` of a request on the air. -/
def message (s : State) (future : ℕ) : Option Proto := (s.dispatcher.messages future).getLast?

/-- `getMessage`, when the message is there already: its type is not looked at. -/
def gets (s : State) : Option (Out × State) :=
  match s.current with
  | some ⟨request, stream, .sending future expected next⟩ =>
    if (s.dispatcher.requests[future]?.map OnAirMessage.sending) = some .pending then none
    else
      match message s future with
      | none => some (.waits, { s with
          current := some ⟨request, stream, .waiting future expected next⟩ })
      | some m => some (.got (.content m.content), { s with
          current := some ⟨request, stream, .applying (next (.content m.content))⟩ })
  | _ => none

/-- What `waitForMessage` makes of a message. -/
def checked (expected : ℕ) (m : Proto) : Reply :=
  if m.message_type ≠ expected then .unexpected else .content m.content

/-- `waitForMessage`, when the message has come, and `getMessage`. -/
def wakes (s : State) : Option (Out × State) :=
  match s.current with
  | some ⟨request, stream, .waiting future expected next⟩ =>
    (message s future).map fun m => (.got (checked expected m), { s with
      current := some ⟨request, stream, .applying (next (checked expected m))⟩ })
  | _ => none

/-- `sendResponse` -/
def responds (s : State) (connects : Bool) : Option (Out × State) :=
  match s.current with
  | some ⟨request, stream, .applying (.ended how)⟩ =>
    if 0 ∉ s.dispatcher.connected ∧ connects = false then
      some (.stopped, { s with current := some ⟨request, stream, .stopped⟩ })
    else some (.responded request.correlation_id how.status, { s with
      dispatcher := { s.dispatcher with connected := 0 :: s.dispatcher.connected }
      current := none })
  | _ => none

/-- A step of the dispatcher alone. -/
def beside (s : State) (r : Dispatcher.Out × Dispatcher.State) : Out × State :=
  (.dispatcher r.1, { s with dispatcher := r.2 })

/-- The steps.  The coroutines take turns in any order. -/
def step (c : Setup) (s : State) : Op → Option (Out × State)
  | .receive zmsg => some (c.receive s zmsg)
  | .registers data connects =>
    some (beside s (Dispatcher.asyncSend s.dispatcher 0 TP_REGISTER_REQUEST data connects))
  | .sends future result =>
    (Dispatcher.step c.parse s.dispatcher (.sends future result)).map (beside s)
  | .takes => c.takes s
  | .asks connects => asks s connects
  | .gets => gets s
  | .wakes => wakes s
  | .responds connects => responds s connects

/-! ### What should hold -/

/-- What was sent to the validator, if anything, and what came of it. -/
structure Exchange where
  expected : ℕ
  sent : Option Proto
  reply : Reply

/-- What a processor asks, and how it goes on with what it gets. -/
inductive Talks : Processor → List Exchange → Processor → Prop where
  | nil (p : Processor) : Talks p [] p
  | sent {p : Processor} {talk : List Exchange} {type expected : ℕ} {data id : Bytes}
    {next : Reply → Processor} (h : Talks p talk (.asks type expected data next)) (reply : Reply) :
    Talks p (talk ++ [⟨expected, some ⟨type, id, data⟩, reply⟩]) (next reply)
  | unsent {p : Processor} {talk : List Exchange} {type expected : ℕ} {data : Bytes}
    {next : Reply → Processor} (h : Talks p talk (.asks type expected data next)) :
    Talks p (talk ++ [⟨expected, none, .unsent⟩]) (next .unsent)

/-- What came of a request is a message with its id, or an exception for the type of one. -/
def Heard (received : List Proto) (x : Exchange) : Prop :=
  ∀ msg, x.sent = some msg → ∃ m ∈ received, m.correlation_id = msg.correlation_id ∧
    (x.reply = .content m.content ∨ m.message_type ≠ x.expected ∧ x.reply = .unexpected)

/-- A request of the validator that was served. -/
structure Service where
  request : Proto
  talk : List Exchange
  status : Status

/-- It was served by its handler, which was told what the validator sent for it. -/
def Service.Right (c : Setup) (received : List Proto) (v : Service) : Prop :=
  (∃ p how, c.processor v.request.content = some p ∧ Talks p v.talk (.ended how) ∧
    v.status = how.status) ∧ ∀ x ∈ v.talk, Heard received x

/-- What was sent in the exchanges. -/
def sentIn (talk : List Exchange) : List Proto := talk.filterMap Exchange.sent

/-- A process request, when it is put into the queue. -/
def Out.request (c : Setup) : Out → Option Proto
  | .dispatcher (.forwarded zmsg) => some (c.parse (zmsg.getLastD []))
  | _ => none

/-- What is sent for a processor. -/
def Out.sent : Out → Option Proto
  | .asked msg => some msg
  | _ => none

/-- A response, and for which request it is. -/
def Out.response : Out → Option (Bytes × Status)
  | .responded cid status => some (cid, status)
  | _ => none

/-- What is received, but for process requests and pings. -/
def Op.received (c : Setup) : Op → Option Proto
  | .receive zmsg => Dispatcher.response c.parse zmsg
  | _ => none

def requests (c : Setup) (ms : List (Move State Op Out)) : List Proto :=
  ms.filterMap fun m => m.output.request c

def received (c : Setup) (ms : List (Move State Op Out)) : List Proto :=
  ms.filterMap fun m => m.input.received c

def asked (ms : List (Move State Op Out)) : List Proto :=
  ms.filterMap fun m => m.output.sent

def responses (ms : List (Move State Op Out)) : List (Bytes × Status) :=
  ms.filterMap fun m => m.output.response

/-- The requests in the queue. -/
def queued (c : Setup) (queue : List (List Bytes)) : List Proto :=
  queue.map fun zmsg => c.parse (zmsg.getLastD [])

/-- The requests are answered one after the other, each once and as is right: there are those that
were, at most one that is in hand, and those in the queue.  When none is in hand, nothing was asked
but for those that were answered. -/
structure Served (c : Setup) (ms : List (Move State Op Out)) (s : State)
    (services : List Service) : Prop where
  requests : requests c ms = services.map Service.request ++
    ((s.current.map Current.request).toList ++ queued c s.queue)
  responses : responses ms = services.map fun v => (v.request.correlation_id, v.status)
  right : ∀ v ∈ services, v.Right c (received c ms)
  asked : ∃ rest, asked ms = sentIn (services.flatMap Service.talk) ++ rest ∧
    (s.current = none → rest = [])

variable {c : Setup} {ms : List (Move State Op Out)} {m : Move State Op Out} {s v : State}
  {d d' : Dispatcher.State} {heard more : List Proto} {r : ℕ} {id : Bytes}

/-! ### The requests on the air -/

/-- A request has this id. -/
def Under (d : Dispatcher.State) (r : ℕ) (id : Bytes) : Prop :=
  ∃ o, d.requests[r]? = some o ∧ o.mCorrelationId = id

/-- The map has requests under their ids, and a request has messages with its id that were
received. -/
structure Owned (heard : List Proto) (d : Dispatcher.State) : Prop where
  numbered : Numbered d.onAirMsgs
  entries : ∀ e ∈ d.onAirMsgs, Under d e.2 e.1
  messages : ∀ r, ∀ m ∈ d.messages r, Under d r m.correlation_id ∧ m ∈ heard

/-- Requests keep their ids. -/
def Grows (d d' : Dispatcher.State) : Prop := ∀ r id, Under d r id → Under d' r id

theorem Under.unique {id' : Bytes} (h : Under d r id) (h' : Under d r id') : id = id' := by
  obtain ⟨o, ho, rfl⟩ := h
  obtain ⟨o', ho', rfl⟩ := h'
  rw [ho] at ho'
  rw [Option.some.inj ho']

theorem grows_append {o : OnAirMessage} (h : d'.requests = d.requests ++ [o]) : Grows d d' := by
  rintro r id ⟨o', ho', hid⟩
  refine ⟨o', ?_, hid⟩
  rw [h, List.getElem?_append_left (List.getElem?_eq_some_iff.mp ho').1, ho']

theorem grows_modify {f : OnAirMessage → OnAirMessage} {k : ℕ}
    (h : d'.requests = d.requests.modify k f) (hf : ∀ o, (f o).mCorrelationId = o.mCorrelationId) :
    Grows d d' := by
  rintro r id ⟨o, ho, hid⟩
  refine ⟨if k = r then f o else o, ?_, ?_⟩
  · rw [h, List.getElem?_modify, ho]
    split_ifs <;> rfl
  · split_ifs
    · rw [hf, hid]
    · exact hid

/-- A request is added, and put into the map under its id. -/
theorem owned_asyncSend (h : Owned heard d) (stream type : ℕ) (data : Bytes) (connects : Bool) :
    Owned heard (Dispatcher.asyncSend d stream type data connects).2 ∧
      Grows d (Dispatcher.asyncSend d stream type data connects).2 ∧
      ∀ future msg, (Dispatcher.asyncSend d stream type data connects).1 = .sending future msg →
        msg.message_type = type ∧ msg.content = data ∧
          Under (Dispatcher.asyncSend d stream type data connects).2 future msg.correlation_id := by
  set n := (d.correlationCounter + 1) % 2 ^ 32 with hn
  set u := (Dispatcher.asyncSend d stream type data connects).2 with hu
  have hmap : u.onAirMsgs = Dispatcher.put d.onAirMsgs (decimalText n) d.requests.length := by
    rw [hu, Dispatcher.asyncSend]
    split_ifs <;> rfl
  obtain ⟨o, hrequests, hid, hnone⟩ : ∃ o : OnAirMessage, u.requests = d.requests ++ [o] ∧
      o.mCorrelationId = decimalText n ∧ o.messages = [] := by
    rw [hu, Dispatcher.asyncSend]
    split_ifs
    · exact ⟨_, rfl, rfl, rfl⟩
    · exact ⟨_, rfl, rfl, rfl⟩
  have hgrows := grows_append hrequests
  have hnew : Under u d.requests.length (decimalText n) :=
    ⟨o, by rw [hrequests, List.getElem?_concat_length], hid⟩
  refine ⟨⟨?_, fun e he => ?_, fun r m hm => ?_⟩, hgrows, fun future msg hsending => ?_⟩
  · rw [hmap]
    exact numbered_put h.numbered n
  · rw [hmap, mem_put h.numbered] at he
    rcases he with ⟨hold, -⟩ | rfl
    · exact hgrows _ _ (h.entries e hold)
    · exact hnew
  · rw [Dispatcher.State.messages_append hrequests hnone] at hm
    exact ⟨hgrows _ _ (h.messages r m hm).1, (h.messages r m hm).2⟩
  · rw [Dispatcher.asyncSend] at hsending
    split_ifs at hsending
    obtain ⟨rfl, rfl⟩ := Dispatcher.Out.sending.inj hsending
    exact ⟨rfl, rfl, hnew⟩

/-- A send returns: the requests have what they had. -/
theorem owned_sends (h : Owned heard d) {future : ℕ} {result : Bool}
    (hd : d' = { d with requests := d.requests.modify future (OnAirMessage.sends result) }) :
    Owned heard d' ∧ Grows d d' := by
  have hrequests : d'.requests = d.requests.modify future (OnAirMessage.sends result) := by rw [hd]
  have hgrows : Grows d d' := grows_modify hrequests fun _ => rfl
  refine ⟨⟨?_, fun e he => ?_, fun r m hm => ?_⟩, hgrows⟩
  · rw [hd]
    exact h.numbered
  · rw [hd] at he
    exact hgrows _ _ (h.entries e he)
  · have hsame : d'.messages r = d.messages r := by
      rw [Dispatcher.State.messages_modify hrequests]
      split_ifs <;> rfl
    rw [hsame] at hm
    exact ⟨hgrows _ _ (h.messages r m hm).1, (h.messages r m hm).2⟩

theorem Owned.mono (h : Owned heard d) (hsub : heard ⊆ more) : Owned more d :=
  ⟨h.numbered, h.entries, fun r m hm => ⟨(h.messages r m hm).1, hsub (h.messages r m hm).2⟩⟩

/-- **A response** is given to a request that has its id. -/
theorem owned_deliver (h : Owned heard d) (proto : Proto) :
    Owned (heard ++ [proto]) (Dispatcher.deliver d proto).2 ∧
      Grows d (Dispatcher.deliver d proto).2 := by
  cases hfind : d.onAirMsgs.find? fun e => strEq e.1 proto.correlation_id with
  | none =>
    have hsame : (Dispatcher.deliver d proto).2 = d := by rw [Dispatcher.deliver, hfind]
    rw [hsame]
    exact ⟨h.mono (List.subset_append_left _ _), fun _ _ => id⟩
  | some e =>
    have he := List.mem_of_find?_eq_some hfind
    obtain ⟨n, hn⟩ := h.numbered e he
    have hcid : e.1 = proto.correlation_id := by
      have heq := List.find?_some hfind
      rw [hn, Dispatcher.strEq_decimalText, ← hn] at heq
      exact heq.symm
    set u := (Dispatcher.deliver d proto).2 with hu
    have hmap : u.onAirMsgs = d.onAirMsgs.filter fun e => !strEq e.1 proto.correlation_id := by
      rw [hu, Dispatcher.deliver, hfind]
    have hrequests : u.requests = d.requests.modify e.2 (OnAirMessage.setMessage proto) := by
      rw [hu, Dispatcher.deliver, hfind]
    have hgrows : Grows d u := grows_modify hrequests fun _ => rfl
    refine ⟨⟨?_, fun e he => ?_, fun r m hm => ?_⟩, hgrows⟩
    · rw [hmap]
      exact numbered_filter h.numbered
    · rw [hmap] at he
      exact hgrows _ _ (h.entries e (List.mem_of_mem_filter he))
    · rw [Dispatcher.State.messages_modify hrequests] at hm
      split_ifs at hm with hr
      · subst hr
        obtain ⟨o, ho, hid⟩ := h.entries e he
        rw [ho, Option.map_some, Option.getD_some, OnAirMessage.setMessage] at hm
        rcases List.mem_append.mp hm with hold | hnew
        · have hmem : m ∈ d.messages e.2 := by rwa [Dispatcher.State.messages, ho]
          exact ⟨hgrows _ _ (h.messages _ m hmem).1,
            List.mem_append_left _ (h.messages _ m hmem).2⟩
        · obtain rfl := List.mem_singleton.mp hnew
          exact ⟨hgrows _ _ ⟨o, ho, hid.trans hcid⟩, List.mem_append_right _ hnew⟩
      · exact ⟨hgrows _ _ (h.messages r m hm).1, List.mem_append_left _ (h.messages r m hm).2⟩

/-- A message is received. -/
theorem owned_receive (parse : Bytes → Proto) (h : Owned heard d) (zmsg : List Bytes) :
    Owned (heard ++ (response parse zmsg).toList) (Dispatcher.receive parse d zmsg).2 ∧
      Grows d (Dispatcher.receive parse d zmsg).2 := by
  have hsame : ∀ u, u = d → Owned (heard ++ (response parse zmsg).toList) u ∧ Grows d u := by
    rintro u rfl
    exact ⟨h.mono (List.subset_append_left _ _), fun _ _ => id⟩
  rw [Dispatcher.receive]
  dsimp only
  split_ifs with hempty hprocess hping
  · exact hsame _ rfl
  · exact hsame _ rfl
  · exact hsame _ rfl
  · have hresponse : response parse zmsg = some (parse (zmsg.getLastD [])) := by
      rw [response, if_neg hempty]
      exact if_neg (not_or.mpr ⟨hprocess, hping⟩)
    rw [hresponse]
    exact owned_deliver h _

/-! ### Between the steps -/

/-- A processor of the request got as far as this. -/
def Told (c : Setup) (request : Proto) (now : List Exchange) (p : Processor) : Prop :=
  ∃ p₀, c.processor request.content = some p₀ ∧ Talks p₀ now p

/-- The request that is waited for is the one that was sent last. -/
def Asking (c : Setup) (d : Dispatcher.State) (request : Proto) (now : List Exchange)
    (asking : List Proto) (future expected : ℕ) (next : Reply → Processor) : Prop :=
  ∃ msg, asking = [msg] ∧ Under d future msg.correlation_id ∧
    Told c request now (.asks msg.message_type expected msg.content next)

/-- How far a request is. -/
def Phase.Fits (c : Setup) (d : Dispatcher.State) (request : Proto) (now : List Exchange)
    (asking : List Proto) : Phase → Prop
  | .applying p => asking = [] ∧ Told c request now p
  | .sending future expected next => Asking c d request now asking future expected next
  | .waiting future expected next => Asking c d request now asking future expected next
  | .stopped => asking = []

/-- A request is in hand, or nothing is asked. -/
def Standing (c : Setup) (d : Dispatcher.State) (now : List Exchange) (asking : List Proto) :
    Option Current → Prop
  | none => now = [] ∧ asking = []
  | some current => current.phase.Fits c d current.request now asking

/-- **What holds between the steps**, with the requests that were served, and with what was asked
for the one in hand. -/
structure Accounts (c : Setup) (ms : List (Move State Op Out)) (s : State)
    (services : List Service) (now : List Exchange) (asking : List Proto) : Prop where
  owned : Owned (received c ms) s.dispatcher
  served : requests c ms =
    services.map Service.request ++ ((s.current.map Current.request).toList ++ queued c s.queue)
  typed : ∀ m ∈ requests c ms, m.message_type = Dispatcher.TP_PROCESS_REQUEST
  answered : responses ms = services.map fun v => (v.request.correlation_id, v.status)
  sent : asked ms = sentIn (services.flatMap Service.talk) ++ (sentIn now ++ asking)
  right : ∀ v ∈ services, v.Right c (received c ms)
  heard : ∀ x ∈ now, Heard (received c ms) x
  standing : Standing c s.dispatcher now asking s.current

def Kept (c : Setup) (ms : List (Move State Op Out)) (s : State) : Prop :=
  ∃ services now asking, Accounts c ms s services now asking

theorem Heard.mono {x : Exchange} (h : Heard heard x) (hsub : heard ⊆ more) : Heard more x := by
  intro msg hmsg
  obtain ⟨m, hm, hid, hreply⟩ := h msg hmsg
  exact ⟨m, hsub hm, hid, hreply⟩

theorem Service.Right.mono {w : Service} (h : w.Right c heard) (hsub : heard ⊆ more) :
    w.Right c more :=
  ⟨h.1, fun x hx => (h.2 x hx).mono hsub⟩

theorem Phase.Fits.mono {request : Proto} {now : List Exchange} {asking : List Proto}
    {phase : Phase} (h : phase.Fits c d request now asking) (hd : Grows d d') :
    phase.Fits c d' request now asking := by
  have hasking : ∀ {future expected next}, Asking c d request now asking future expected next →
      Asking c d' request now asking future expected next := by
    rintro future expected next ⟨msg, hmsg, hunder, htold⟩
    exact ⟨msg, hmsg, hd _ _ hunder, htold⟩
  cases phase with
  | applying p => exact h
  | sending future expected next => exact hasking h
  | waiting future expected next => exact hasking h
  | stopped => exact h

theorem Standing.mono {now : List Exchange} {asking : List Proto} {current : Option Current}
    (h : Standing c d now asking current) (hd : Grows d d') :
    Standing c d' now asking current := by
  cases current with
  | none => exact h
  | some current => exact Phase.Fits.mono h hd

theorem filterMap_snoc {α β : Type} (f : α → Option β) (as : List α) (a : α) :
    (as ++ [a]).filterMap f = as.filterMap f ++ (f a).toList := by
  rw [List.filterMap_append, List.filterMap_cons, List.filterMap_nil]
  cases f a <;> rfl

theorem sentIn_append (talk talk' : List Exchange) :
    sentIn (talk ++ talk') = sentIn talk ++ sentIn talk' := List.filterMap_append

theorem received_subset (ms : List (Move State Op Out)) (m : Move State Op Out) :
    received c ms ⊆ received c (ms ++ [m]) := by
  rw [received, received, filterMap_snoc]
  exact List.subset_append_left _ _

/-- **The dispatcher goes on** by itself: what it puts into the queue is what it was sent. -/
theorem kept_dispatcher (h : Kept c ms s) {i : Op} {out : Dispatcher.Out}
    (howned : Owned (received c ms ++ (i.received c).toList) v.dispatcher)
    (hgrows : Grows s.dispatcher v.dispatcher) (hcurrent : v.current = s.current)
    (hqueue : queued c v.queue = queued c s.queue ++ ((Out.dispatcher out).request c).toList)
    (htyped : ∀ m ∈ (Out.dispatcher out).request c,
      m.message_type = Dispatcher.TP_PROCESS_REQUEST) :
    Kept c (ms ++ [⟨s, i, .dispatcher out, v⟩]) v := by
  obtain ⟨services, now, asking, hk⟩ := h
  have hsub := received_subset (c := c) ms ⟨s, i, .dispatcher out, v⟩
  refine ⟨services, now, asking, ?_, ?_, ?_, ?_, ?_, fun w hw => (hk.right w hw).mono hsub,
    fun x hx => (hk.heard x hx).mono hsub, ?_⟩
  · rw [received, filterMap_snoc]
    exact howned
  · have hserved := hk.served
    rw [requests] at hserved ⊢
    rw [filterMap_snoc, hserved, hqueue, hcurrent]
    simp only [List.append_assoc]
  · rw [requests, filterMap_snoc, List.forall_mem_append]
    exact ⟨hk.typed, fun m hm => htyped m (Option.mem_toList.mp hm)⟩
  · rw [responses, filterMap_snoc]
    exact (List.append_nil _).trans hk.answered
  · rw [asked, filterMap_snoc]
    exact (List.append_nil _).trans hk.sent
  · rw [hcurrent]
    exact hk.standing.mono hgrows

theorem kept_receive (h : Kept c ms s) (zmsg : List Bytes) :
    Kept c (ms ++ [⟨s, .receive zmsg, (c.receive s zmsg).1, (c.receive s zmsg).2⟩])
      (c.receive s zmsg).2 := by
  have howned : Owned (received c ms) s.dispatcher := by
    obtain ⟨services, now, asking, hk⟩ := h
    exact hk.owned
  obtain ⟨howned', hgrows⟩ := owned_receive c.parse howned zmsg
  -- what is forwarded is the message that was received, and a process request
  have hforwards : (Dispatcher.receive c.parse s.dispatcher zmsg).1 = .forwarded zmsg ∧
      (c.parse (zmsg.getLastD [])).message_type = Dispatcher.TP_PROCESS_REQUEST ∨
      (Dispatcher.receive c.parse s.dispatcher zmsg).1 ≠ .forwarded zmsg ∧
        (Out.dispatcher (Dispatcher.receive c.parse s.dispatcher zmsg).1).request c = none := by
    rw [Dispatcher.receive]
    dsimp only
    split_ifs with hempty hprocess hping
    · exact .inr ⟨by simp, rfl⟩
    · exact .inl ⟨rfl, hprocess⟩
    · exact .inr ⟨by simp, rfl⟩
    · rw [Dispatcher.deliver]
      split <;> exact .inr ⟨by simp, rfl⟩
  rcases hforwards with ⟨hforwarded, htype⟩ | ⟨hforwarded, hnone⟩
  · refine kept_dispatcher h howned' hgrows rfl ?_ ?_
    · rw [Setup.receive]
      dsimp only
      rw [if_pos hforwarded, hforwarded, queued, queued, List.map_append]
      rfl
    · rw [hforwarded]
      rintro m hm
      obtain rfl := Option.some.inj hm
      exact htype
  · refine kept_dispatcher h howned' hgrows rfl ?_ ?_
    · rw [Setup.receive]
      dsimp only
      rw [if_neg hforwarded, hnone]
      exact (List.append_nil _).symm
    · rw [hnone]
      exact fun _ hm => by cases hm

theorem kept_registers (h : Kept c ms s) (data : Bytes) (connects : Bool) {out : Out}
    (hstep : step c s (.registers data connects) = some (out, v)) :
    Kept c (ms ++ [⟨s, .registers data connects, out, v⟩]) v := by
  have howned : Owned (received c ms) s.dispatcher := by
    obtain ⟨services, now, asking, hk⟩ := h
    exact hk.owned
  obtain ⟨rfl, rfl⟩ := Prod.mk.inj (Option.some.inj hstep)
  obtain ⟨howned', hgrows, -⟩ := owned_asyncSend howned 0 TP_REGISTER_REQUEST data connects
  have hnone : (Out.dispatcher (Dispatcher.asyncSend s.dispatcher 0 TP_REGISTER_REQUEST data
      connects).1).request c = none := by
    rw [Dispatcher.asyncSend]
    split_ifs <;> rfl
  refine kept_dispatcher h ?_ hgrows rfl ?_ ?_
  · show Owned (received c ms ++ []) _
    rwa [List.append_nil]
  · rw [hnone]
    exact (List.append_nil _).symm
  · rw [hnone]
    exact fun _ hm => by cases hm

theorem kept_sends (h : Kept c ms s) (future : ℕ) (result : Bool) {out : Out}
    (hstep : step c s (.sends future result) = some (out, v)) :
    Kept c (ms ++ [⟨s, .sends future result, out, v⟩]) v := by
  have howned : Owned (received c ms) s.dispatcher := by
    obtain ⟨services, now, asking, hk⟩ := h
    exact hk.owned
  obtain ⟨r, hr, hout⟩ := Option.map_eq_some_iff.mp hstep
  obtain ⟨rfl, rfl⟩ := Prod.mk.inj hout
  obtain ⟨-, hr⟩ := Option.ite_none_right_eq_some.mp hr
  obtain rfl := Option.some.inj hr
  obtain ⟨howned', hgrows⟩ := @owned_sends _ _ _ howned _ result rfl
  refine kept_dispatcher h ?_ hgrows rfl (List.append_nil _).symm fun _ hm => by cases hm
  show Owned (received c ms ++ []) _
  rwa [List.append_nil]

variable {services services' : List Service} {now now' : List Exchange}
  {asking asking' : List Proto}

/-- **The processor goes on**, and nothing is received. -/
theorem Accounts.turn (hk : Accounts c ms s services now asking) {i : Op} {out : Out}
    (hinput : i.received c = none) (hout : out.request c = none)
    (howned : Owned (received c ms) v.dispatcher)
    (hserved : services'.map Service.request ++
        ((v.current.map Current.request).toList ++ queued c v.queue) =
      services.map Service.request ++ ((s.current.map Current.request).toList ++ queued c s.queue))
    (hanswered : services'.map (fun w => (w.request.correlation_id, w.status)) =
      services.map (fun w => (w.request.correlation_id, w.status)) ++ out.response.toList)
    (hsent : sentIn (services'.flatMap Service.talk) ++ (sentIn now' ++ asking') =
      sentIn (services.flatMap Service.talk) ++ (sentIn now ++ asking) ++ out.sent.toList)
    (hright : ∀ w ∈ services', w.Right c (received c ms))
    (hheard : ∀ x ∈ now', Heard (received c ms) x)
    (hstanding : Standing c v.dispatcher now' asking' v.current) :
    Kept c (ms ++ [⟨s, i, out, v⟩]) v := by
  have hreceived : received c (ms ++ [⟨s, i, out, v⟩]) = received c ms := by
    rw [received, filterMap_snoc, hinput]
    exact List.append_nil _
  have hrequests : requests c (ms ++ [⟨s, i, out, v⟩]) = requests c ms := by
    rw [requests, filterMap_snoc, hout]
    exact List.append_nil _
  refine ⟨services', now', asking', ?_, ?_, ?_, ?_, ?_, ?_, ?_, hstanding⟩
  · rw [hreceived]
    exact howned
  · rw [hrequests, hserved, hk.served]
  · rw [hrequests]
    exact hk.typed
  · rw [responses, filterMap_snoc, hanswered, ← hk.answered]
    rfl
  · rw [asked, filterMap_snoc, hsent, ← hk.sent]
    rfl
  · rw [hreceived]
    exact hright
  · rw [hreceived]
    exact hheard

/-- The same when nothing was asked and nobody was answered. -/
theorem Accounts.quiet (hk : Accounts c ms s services now asking) {i : Op} {out : Out}
    (hinput : i.received c = none) (hout : out.request c = none) (hsent : out.sent = none)
    (hresponse : out.response = none) (howned : Owned (received c ms) v.dispatcher)
    (hserved : (v.current.map Current.request).toList ++ queued c v.queue =
      (s.current.map Current.request).toList ++ queued c s.queue)
    (hnow : sentIn now' ++ asking' = sentIn now ++ asking)
    (hheard : ∀ x ∈ now', Heard (received c ms) x)
    (hstanding : Standing c v.dispatcher now' asking' v.current) :
    Kept c (ms ++ [⟨s, i, out, v⟩]) v := by
  refine hk.turn hinput hout howned (by rw [hserved]) ?_ ?_ hk.right hheard hstanding
  · rw [hresponse]
    exact (List.append_nil _).symm
  · rw [hsent, hnow]
    exact (List.append_nil _).symm

/-- **A request is taken** from the queue. -/
theorem kept_takes (h : Kept c ms s) {out : Out} (hstep : step c s .takes = some (out, v)) :
    Kept c (ms ++ [⟨s, .takes, out, v⟩]) v := by
  obtain ⟨services, now, asking, hk⟩ := h
  rw [step, Setup.takes] at hstep
  split at hstep
  · rename_i zmsg queue hcurrent hqueue
    have hstanding := hk.standing
    rw [hcurrent] at hstanding
    obtain ⟨rfl, rfl⟩ := hstanding
    have htype : (c.parse (zmsg.getLastD [])).message_type = Dispatcher.TP_PROCESS_REQUEST := by
      refine hk.typed _ ?_
      rw [hk.served, hqueue]
      exact List.mem_append_right _ (List.mem_append_right _ (List.mem_cons_self ..))
    dsimp only at hstep
    rw [if_pos htype] at hstep
    split at hstep
    · obtain ⟨rfl, rfl⟩ := Prod.mk.inj (Option.some.inj hstep)
      refine hk.quiet rfl rfl rfl rfl hk.owned ?_ rfl hk.heard rfl
      rw [hcurrent, hqueue]
      rfl
    · rename_i p hp
      obtain ⟨rfl, rfl⟩ := Prod.mk.inj (Option.some.inj hstep)
      refine hk.quiet rfl rfl rfl rfl hk.owned ?_ rfl hk.heard ⟨rfl, p, hp, .nil p⟩
      rw [hcurrent, hqueue]
      rfl
  · cases hstep

/-- **The processor asks** the validator. -/
theorem kept_asks (h : Kept c ms s) (connects : Bool) {out : Out}
    (hstep : step c s (.asks connects) = some (out, v)) :
    Kept c (ms ++ [⟨s, .asks connects, out, v⟩]) v := by
  obtain ⟨services, now, asking, hk⟩ := h
  rw [step, asks] at hstep
  split at hstep
  · rename_i request stream type expected data next hcurrent
    have hstanding := hk.standing
    rw [hcurrent] at hstanding
    obtain ⟨rfl, htold⟩ := hstanding
    obtain ⟨howned, -, hsending⟩ := owned_asyncSend hk.owned stream type data connects
    dsimp only at hstep
    split at hstep
    · rename_i future msg hout
      obtain ⟨rfl, rfl⟩ := Prod.mk.inj (Option.some.inj hstep)
      obtain ⟨rfl, rfl, hunder⟩ := hsending future msg hout
      refine hk.turn rfl rfl howned ?_ (List.append_nil _).symm ?_ hk.right hk.heard
        ⟨msg, rfl, hunder, htold⟩
      · rw [hcurrent]
        rfl
      · rw [List.append_nil, List.append_assoc]
        rfl
    · obtain ⟨rfl, rfl⟩ := Prod.mk.inj (Option.some.inj hstep)
      obtain ⟨p₀, hp₀, htalks⟩ := htold
      refine hk.quiet rfl rfl rfl rfl howned ?_ ?_ ?_ ⟨rfl, p₀, hp₀, .unsent htalks⟩
      · rw [hcurrent]
        rfl
      · rw [sentIn_append]
        exact congrArg (· ++ []) (List.append_nil _)
      · rw [List.forall_mem_append, List.forall_mem_singleton]
        exact ⟨hk.heard, fun _ h => by cases h⟩
  · cases hstep

/-- The last of what a request was given. -/
theorem message_spec (h : Owned heard s.dispatcher) {future : ℕ} {m : Proto}
    (hm : message s future = some m) : Under s.dispatcher future m.correlation_id ∧ m ∈ heard :=
  h.messages future m (List.mem_of_getLast? hm)

/-- **The processor gets** what came of its request. -/
theorem Accounts.gets (hk : Accounts c ms s services now asking) {i : Op} {request : Proto}
    {stream future expected : ℕ} {next : Reply → Processor} {reply : Reply} {m : Proto}
    {phase : Phase} (hinput : i.received c = none)
    (hcurrent : s.current = some ⟨request, stream, phase⟩)
    (hasking : Asking c s.dispatcher request now asking future expected next)
    (hm : message s future = some m)
    (hreply : reply = .content m.content ∨ m.message_type ≠ expected ∧ reply = .unexpected) :
    Kept c (ms ++ [⟨s, i, .got reply,
        { s with current := some ⟨request, stream, .applying (next reply)⟩ }⟩])
      { s with current := some ⟨request, stream, .applying (next reply)⟩ } := by
  obtain ⟨msg, rfl, hunder, p₀, hp₀, htalks⟩ := hasking
  obtain ⟨hunder', hmem⟩ := message_spec hk.owned hm
  have htalks' : Talks p₀ (now ++ [⟨expected, some msg, reply⟩]) (next reply) :=
    .sent htalks reply
  refine hk.quiet hinput rfl rfl rfl hk.owned ?_ ?_ ?_ ⟨rfl, p₀, hp₀, htalks'⟩
  · rw [hcurrent]
    rfl
  · rw [sentIn_append, List.append_nil]
    rfl
  · rw [List.forall_mem_append, List.forall_mem_singleton]
    refine ⟨hk.heard, fun msg' hmsg => ?_⟩
    obtain rfl := Option.some.inj hmsg
    exact ⟨m, hmem, hunder'.unique hunder, hreply⟩

theorem kept_gets (h : Kept c ms s) {out : Out} (hstep : step c s .gets = some (out, v)) :
    Kept c (ms ++ [⟨s, .gets, out, v⟩]) v := by
  obtain ⟨services, now, asking, hk⟩ := h
  rw [step, TransactionProcessor.gets] at hstep
  split at hstep
  · rename_i request stream future expected next hcurrent
    have hstanding := hk.standing
    rw [hcurrent] at hstanding
    split_ifs at hstep
    split at hstep
    · obtain ⟨rfl, rfl⟩ := Prod.mk.inj (Option.some.inj hstep)
      refine hk.quiet rfl rfl rfl rfl hk.owned ?_ rfl hk.heard hstanding
      rw [hcurrent]
      rfl
    · rename_i m hm
      obtain ⟨rfl, rfl⟩ := Prod.mk.inj (Option.some.inj hstep)
      exact hk.gets rfl hcurrent hstanding hm (.inl rfl)
  · cases hstep

theorem kept_wakes (h : Kept c ms s) {out : Out} (hstep : step c s .wakes = some (out, v)) :
    Kept c (ms ++ [⟨s, .wakes, out, v⟩]) v := by
  obtain ⟨services, now, asking, hk⟩ := h
  rw [step, wakes] at hstep
  split at hstep
  · rename_i request stream future expected next hcurrent
    have hstanding := hk.standing
    rw [hcurrent] at hstanding
    obtain ⟨m, hm, hout⟩ := Option.map_eq_some_iff.mp hstep
    obtain ⟨rfl, rfl⟩ := Prod.mk.inj hout
    refine hk.gets rfl hcurrent hstanding hm ?_
    rw [checked]
    split_ifs with htype
    · exact .inr ⟨htype, rfl⟩
    · exact .inl rfl
  · cases hstep

/-- **The response is sent.** -/
theorem kept_responds (h : Kept c ms s) (connects : Bool) {out : Out}
    (hstep : step c s (.responds connects) = some (out, v)) :
    Kept c (ms ++ [⟨s, .responds connects, out, v⟩]) v := by
  obtain ⟨services, now, asking, hk⟩ := h
  rw [step, responds] at hstep
  split at hstep
  · rename_i request stream how hcurrent
    have hstanding := hk.standing
    rw [hcurrent] at hstanding
    obtain ⟨rfl, p₀, hp₀, htalks⟩ := hstanding
    split_ifs at hstep
    · obtain ⟨rfl, rfl⟩ := Prod.mk.inj (Option.some.inj hstep)
      refine hk.quiet rfl rfl rfl rfl hk.owned ?_ rfl hk.heard rfl
      rw [hcurrent]
      rfl
    · obtain ⟨rfl, rfl⟩ := Prod.mk.inj (Option.some.inj hstep)
      have hright : ∀ w ∈ services ++ [⟨request, now, how.status⟩], w.Right c (received c ms) := by
        rw [List.forall_mem_append, List.forall_mem_singleton]
        exact ⟨hk.right, ⟨p₀, how, hp₀, htalks, rfl⟩, hk.heard⟩
      refine hk.turn rfl rfl ?_ ?_ ?_ ?_ hright (List.forall_mem_nil _) ⟨rfl, rfl⟩
      · exact ⟨hk.owned.numbered, hk.owned.entries, hk.owned.messages⟩
      · rw [hcurrent, List.map_append, List.append_assoc]
        rfl
      · rw [List.map_append]
        rfl
      · rw [List.flatMap_append, sentIn_append, List.flatMap_singleton]
        simp [Out.sent, sentIn]
  · cases hstep

/-! ### Runs -/

theorem kept_start (c : Setup) : Kept c [] {} := by
  have hnumbered : Numbered [] := fun e he => absurd he List.not_mem_nil
  refine ⟨[], [], [], ⟨hnumbered, List.forall_mem_nil _, fun r m hm => ?_⟩, rfl,
    List.forall_mem_nil _, rfl, rfl, List.forall_mem_nil _, List.forall_mem_nil _, rfl, rfl⟩
  exact absurd hm List.not_mem_nil

/-- **It holds after any run.** -/
theorem kept_run (h : Run (step c) {} ms s) : Kept c ms s := by
  refine h.rule (J := Kept c) (G := fun _ _ => True) (kept_start c) ?_ fun _ _ => trivial
  intro ms u i o v hu _ hstep
  cases i with
  | receive zmsg =>
    obtain ⟨rfl, rfl⟩ := Prod.mk.inj (Option.some.inj hstep)
    exact kept_receive hu zmsg
  | registers data connects => exact kept_registers hu data connects hstep
  | sends future result => exact kept_sends hu future result hstep
  | takes => exact kept_takes hu hstep
  | asks connects => exact kept_asks hu connects hstep
  | gets => exact kept_gets hu hstep
  | wakes => exact kept_wakes hu hstep
  | responds connects => exact kept_responds hu connects hstep

theorem served_run (h : Run (step c) {} ms s) : ∃ services, Served c ms s services := by
  obtain ⟨services, now, asking, hk⟩ := kept_run h
  refine ⟨services, hk.served, hk.answered, hk.right, sentIn now ++ asking, hk.sent, ?_⟩
  intro hnone
  have hstanding := hk.standing
  rw [hnone] at hstanding
  rw [hstanding.1, hstanding.2]
  rfl

/-- A handler that asks for the state, and is content with what it gets. -/
def sampleSetup : Setup where
  parse frame :=
    if frame = [1] then ⟨5, ascii "a", ascii "first"⟩
    else if frame = [2] then ⟨5, ascii "b", ascii "second"⟩
    else if frame = [3] then ⟨8, ascii "1", ascii "state"⟩
    else {}
  parseRequest content :=
    ⟨some { family_name := if content = ascii "first" then ascii "intkey" else ascii "other" },
      [], [], []⟩
  mHandlers := [(ascii "intkey", fun _ => some (.asks 7 8 [] fun reply =>
    .ended (if reply = .content (ascii "state") then .returned else .thrown)))]

/-- The second request comes while the first one is applied, and there is no handler for it. -/
def sampleOps : List Op :=
  [.receive [[1]], .takes, .asks true, .receive [[2]], .receive [[3]], .sends 0 true, .gets,
    .responds true, .takes, .responds true]

end Suil.TransactionProcessor
