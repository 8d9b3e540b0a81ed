/-
Requests between the workers (`ipc::get`, `ipc::gather`, `ipc::sendGetResponse`).

A request is known by the channel that its caller waits on; the channel is copied into
every response, and the worker that receives one looks its channel up.  A small response
is put together in a buffer that all calls of a process share, and is in it until it has been
written to the pipe of the other process.

* `Inv.sendGetResponse_right_iff`, `Inv.arrive_right_iff` — when a response stays what it was, and
  when it reaches the request it was made for;
* `run_requests_iff` — the runs of which every step keeps the responses apart.
-/
import Suil.Core
import Suil.Lib.Runs

open Runs

namespace Suil

namespace IpcGet

/-- What a request and its responses start with: the channel of the caller and the deadline. -/
structure Token where
  handle : ℕ
  deadline : ℤ
deriving DecidableEq

/-- `IPCGetPayload` -/
structure Payload where
  token : Token
  size : ℕ
  data : Bytes
deriving DecidableEq

/-- A call of `sendGetResponse`: the request it answers, its token, and the bytes. -/
structure Call where
  request : ℕ
  token : Token
  data : Bytes
deriving DecidableEq

def Call.payload (c : Call) : Payload := ⟨c.token, c.data.length, c.data⟩

/-- A call that is in `ipc::send`, with its own buffer or the shared one. -/
structure Sending where
  dst : ℕ
  own : Option Payload
  call : Call
deriving DecidableEq

/-- A response on a pipe, and the call that has written it. -/
structure Response where
  payload : Payload
  call : Call
deriving DecidableEq

/-- The processes: the requests made so far, each with its process; `inflightGets` of each process,
with the request that has the channel and its responses; `SEND_BUF`; the calls in `ipc::send`; and
the pipe to each process. -/
structure State where
  requests : List (ℕ × Token) := []
  inflight : ℕ → ℕ → Option (ℕ × List Response) := fun _ _ => none
  buffer : ℕ → Payload := fun _ => ⟨⟨0, 0⟩, 0, []⟩
  sending : ℕ → List Sending := fun _ => []
  pipe : ℕ → List Response := fun _ => []

/-- What happens next.  A request takes a channel that is free; a response is begun, and is written
or fails when the lock and the pipe of its destination let it; it is received; and a request ends,
`get` with or without a response. -/
inductive Op where
  | request (p handle : ℕ) (tout now : ℤ)
  | sendGetResponse (q request : ℕ) (data : Bytes)
  | write (q i : ℕ)
  | fail (q i : ℕ)
  | receive (p : ℕ) (now : ℤ)
  | get (p handle : ℕ) (status : Bool)
  | gather (p handle : ℕ)
deriving DecidableEq

inductive Answer where
  | nothing
  | delivered (request : ℕ) (res : Response)
  | returned (request : ℕ) (data : List Response)
deriving DecidableEq

/-- `Deadline::Inf` -/
def inf : ℤ := -1

def deadlineOf (tout now : ℤ) : ℤ := if tout ≤ 0 then inf else now + tout

/-- What `registerGetResponse` takes for in time. -/
def InTime (deadline now : ℤ) : Prop := deadline = inf ∨ now + 50 < deadline

instance (deadline now : ℤ) : Decidable (InTime deadline now) :=
  inferInstanceAs (Decidable (_ ∨ _))

/-- What is written for a call: its header has told the length, the bytes are read from the buffer
now. -/
def Sending.payload (x : Sending) (shared : Payload) : Payload :=
  { x.own.getD shared with data := (x.own.getD shared).data.take x.call.data.length }

/-- `memcpy` into the buffer leaves what is behind. -/
def Payload.overwrite (buf : Payload) (c : Call) : Payload :=
  ⟨c.token, c.data.length, c.data ++ buf.data.drop c.data.length⟩

def State.setInflight (s : State) (p handle : ℕ) (x : Option (ℕ × List Response)) : State :=
  { s with inflight := Function.update s.inflight p (Function.update (s.inflight p) handle x) }

def sendGetResponse (s : State) (q dst : ℕ) (c : Call) : State :=
  if c.data.length < 256 then
    { s with
      buffer := Function.update s.buffer q ((s.buffer q).overwrite c)
      sending := Function.update s.sending q (s.sending q ++ [⟨dst, none, c⟩]) }
  else { s with sending := Function.update s.sending q (s.sending q ++ [⟨dst, some c.payload, c⟩]) }

/-- The handler of `GET_RESPONSE`. -/
def receiveResponse (s : State) (p : ℕ) (now : ℤ) (m : Response) : Answer × State :=
  if InTime m.payload.token.deadline now then
    match s.inflight p m.payload.token.handle with
    | some (r, data) =>
      (.delivered r m, s.setInflight p m.payload.token.handle (some (r, data ++ [m])))
    | none => (.nothing, s)
  else (.nothing, s)

def step (s : State) : Op → Option (Answer × State)
  | .request p handle tout now =>
    match s.inflight p handle with
    | some _ => none
    | none =>
      let requests := s.requests ++ [(p, Token.mk handle (deadlineOf tout now))]
      some (.nothing,
        { s with requests := requests }.setInflight p handle (some (s.requests.length, [])))
  | .sendGetResponse q request data =>
    match s.requests[request]? with
    | none => none
    | some (p, token) => some (.nothing, sendGetResponse s q p ⟨request, token, data⟩)
  | .write q i =>
    match (s.sending q)[i]? with
    | none => none
    | some x => some (.nothing, { s with
        sending := Function.update s.sending q ((s.sending q).eraseIdx i)
        pipe := Function.update s.pipe x.dst
          (s.pipe x.dst ++ [⟨x.payload (s.buffer q), x.call⟩]) })
  | .fail q i =>
    some (.nothing, { s with
      sending := Function.update s.sending q ((s.sending q).eraseIdx i) })
  | .receive p now =>
    match s.pipe p with
    | [] => none
    | m :: rest =>
      some (receiveResponse { s with pipe := Function.update s.pipe p rest } p now m)
  | .get p handle status =>
    match s.inflight p handle with
    | none => none
    | some (r, data) =>
      some (.returned r (if status then data.take 1 else []), s.setInflight p handle none)
  | .gather p handle =>
    match s.inflight p handle with
    | none => none
    | some (r, data) => some (.returned r data, s.setInflight p handle none)

/-- The response is what the call was given, for that request. -/
def Response.For (m : Response) (r : ℕ) : Prop := m.call.request = r ∧ m.payload = m.call.payload

/-- No response that is being sent is overwritten, and one that is delivered or returned to a
request is what a call was given for it. -/
structure Right (m : Move State Op Answer) : Prop where
  intact : ∀ q, ∀ x ∈ m.after.sending q, x.payload (m.after.buffer q) = x.call.payload
  delivered : ∀ r res, m.output = .delivered r res → res.For r
  returned : ∀ r data, m.output = .returned r data → ∀ res ∈ data, res.For r

/-- What a call would be given to send. -/
def State.answer (s : State) (request : ℕ) (data : Bytes) : Option Payload :=
  s.requests[request]?.map fun x => ⟨x.2, data.length, data⟩

/-- No response of less than 256 bytes is begun while the process sends a different one from the
shared buffer; and a response that comes in time does not find its channel with another request. -/
def State.Allowed (s : State) : Op → Prop
  | .sendGetResponse q request data => data.length < 256 →
    ∀ x ∈ s.sending q, x.own = none → s.answer request data = some x.call.payload
  | .receive p now => ∀ m ∈ (s.pipe p).head?, InTime m.payload.token.deadline now →
    ∀ x ∈ s.inflight p m.payload.token.handle, m.call.request = x.1
  | .request .. | .write .. | .fail .. | .get .. | .gather .. => True

/-- Everything that is sent, written or delivered is what a call was given. -/
structure Inv (s : State) : Prop where
  sending : ∀ q, ∀ x ∈ s.sending q, x.payload (s.buffer q) = x.call.payload
  pipe : ∀ p, ∀ m ∈ s.pipe p, m.payload = m.call.payload
  inflight : ∀ p handle r data, s.inflight p handle = some (r, data) → ∀ m ∈ data, m.For r

variable {s u : State} {o : Answer} {i : Op} {p q handle : ℕ} {c : Call} {x : Sending}

theorem Inv.empty : Inv {} :=
  ⟨fun _ _ hx => absurd hx List.not_mem_nil, fun _ _ hm => absurd hm List.not_mem_nil, nofun⟩

theorem Inv.setInflight (hinv : Inv s) {r : ℕ} {data : List Response}
    (hdata : ∀ m ∈ data, m.For r) : Inv (s.setInflight p handle (some (r, data))) := by
  refine ⟨hinv.sending, hinv.pipe, fun p' handle' r' data' heq => ?_⟩
  by_cases hp : p' = p
  · subst hp
    by_cases hhandle : handle' = handle
    · subst hhandle
      simp only [State.setInflight, Function.update_self, Option.some.injEq, Prod.mk.injEq] at heq
      obtain ⟨rfl, rfl⟩ := heq
      exact hdata
    · simp only [State.setInflight, Function.update_self, Function.update_of_ne hhandle] at heq
      exact hinv.inflight _ _ _ _ heq
  · simp only [State.setInflight, Function.update_of_ne hp] at heq
    exact hinv.inflight _ _ _ _ heq

theorem Inv.clearInflight (hinv : Inv s) : Inv (s.setInflight p handle none) := by
  refine ⟨hinv.sending, hinv.pipe, fun p' handle' r' data' heq => ?_⟩
  by_cases hp : p' = p
  · subst hp
    by_cases hhandle : handle' = handle
    · subst hhandle
      simp [State.setInflight] at heq
    · simp only [State.setInflight, Function.update_self, Function.update_of_ne hhandle] at heq
      exact hinv.inflight _ _ _ _ heq
  · simp only [State.setInflight, Function.update_of_ne hp] at heq
    exact hinv.inflight _ _ _ _ heq

/-- A step that delivers and returns nothing is right when what is sent afterwards is intact. -/
theorem Right.of_sending
    (hintact : ∀ q, ∀ x ∈ u.sending q, x.payload (u.buffer q) = x.call.payload) :
    Right ⟨s, i, .nothing, u⟩ := ⟨hintact, nofun, nofun⟩

/-- What was put into the shared buffer is read from it. -/
theorem overwrite_payload (buf : Payload) (dst : ℕ) (c : Call) :
    (Sending.mk dst none c).payload (buf.overwrite c) = c.payload := by
  simp [Sending.payload, Payload.overwrite, Call.payload]

/-- Another response in the shared buffer is overwritten unless it is the same. -/
theorem overwrite_payload_iff (buf : Payload) (hown : x.own = none) :
    x.payload (buf.overwrite c) = x.call.payload ↔ c.payload = x.call.payload := by
  rw [Sending.payload, hown]
  simp only [Option.getD_none, Payload.overwrite, Call.payload, Payload.mk.injEq]
  refine and_congr_right fun _ => and_congr_right fun hlen => ?_
  rw [← hlen, List.take_left]

theorem payload_of_own {y : Payload} (hown : x.own = some y) (buf buf' : Payload) :
    x.payload buf = x.payload buf' := by
  rw [Sending.payload, Sending.payload, hown]
  rfl

theorem own_payload (dst : ℕ) (c : Call) (buf : Payload) :
    (Sending.mk dst (some c.payload) c).payload buf = c.payload := by
  simp [Sending.payload, Call.payload]

/-- The calls of one process, when only that process has changed. -/
theorem forall_sending_iff {buf : Payload} {calls : List Sending} (hinv : Inv s) :
    (∀ q', ∀ x ∈ Function.update s.sending q calls q',
      x.payload (Function.update s.buffer q buf q') = x.call.payload) ↔
      ∀ x ∈ calls, x.payload buf = x.call.payload := by
  constructor
  · intro hall x hx
    have hq := hall q
    rw [Function.update_self, Function.update_self] at hq
    exact hq x hx
  · intro hall q'
    by_cases hq : q' = q
    · subst hq
      rwa [Function.update_self, Function.update_self]
    · rw [Function.update_of_ne hq, Function.update_of_ne hq]
      exact hinv.sending q'

/-- A call that is begun leaves the others intact when it has a buffer of its own, or is the same as
those in the shared buffer. -/
theorem Inv.sendGetResponse_intact_iff (hinv : Inv s) (q dst : ℕ) (c : Call) :
    (∀ q', ∀ x ∈ (sendGetResponse s q dst c).sending q',
      x.payload ((sendGetResponse s q dst c).buffer q') = x.call.payload) ↔
      (c.data.length < 256 → ∀ x ∈ s.sending q, x.own = none → c.payload = x.call.payload) := by
  rw [sendGetResponse]
  split_ifs with hlen
  · rw [forall_sending_iff hinv, List.forall_mem_append, List.forall_mem_singleton,
      and_iff_left (overwrite_payload _ dst c)]
    constructor
    · intro hall _ x hx hown
      exact (overwrite_payload_iff (s.buffer q) hown).mp (hall x hx)
    · intro hall x hx
      cases hown : x.own with
      | none => exact (overwrite_payload_iff (s.buffer q) hown).mpr (hall hlen x hx hown)
      | some y =>
        rw [payload_of_own hown _ (s.buffer q)]
        exact hinv.sending q x hx
  · refine iff_of_true (fun q' => ?_) fun h => absurd h hlen
    by_cases hq : q' = q
    · subst hq
      show ∀ x ∈ Function.update s.sending q' _ q', _
      rw [Function.update_self, List.forall_mem_append, List.forall_mem_singleton]
      exact ⟨hinv.sending q', own_payload dst c _⟩
    · show ∀ x ∈ Function.update s.sending q _ q', _
      rw [Function.update_of_ne hq]
      exact hinv.sending q'

theorem sendGetResponse_pipe (s : State) (q dst : ℕ) (c : Call) :
    (sendGetResponse s q dst c).pipe = s.pipe := by
  rw [sendGetResponse]
  split_ifs <;> rfl

theorem sendGetResponse_inflight (s : State) (q dst : ℕ) (c : Call) :
    (sendGetResponse s q dst c).inflight = s.inflight := by
  rw [sendGetResponse]
  split_ifs <;> rfl

theorem Inv.sendGetResponse_right_iff (hinv : Inv s) {r : ℕ} {data : Bytes}
    (hstep : step s (.sendGetResponse q r data) = some (o, u)) :
    (Right ⟨s, .sendGetResponse q r data, o, u⟩ ↔ s.Allowed (.sendGetResponse q r data)) ∧
      (s.Allowed (.sendGetResponse q r data) → Inv u) := by
  rw [step] at hstep
  split at hstep
  · cases hstep
  · rename_i p token hrequest
    obtain ⟨rfl, rfl⟩ := Prod.mk.inj (Option.some.inj hstep)
    have hanswer : s.answer r data = some ⟨token, data.length, data⟩ := by
      rw [State.answer, hrequest]
      rfl
    have hiff : (∀ q', ∀ x ∈ (sendGetResponse s q p ⟨r, token, data⟩).sending q',
        x.payload ((sendGetResponse s q p ⟨r, token, data⟩).buffer q') = x.call.payload) ↔
        s.Allowed (.sendGetResponse q r data) := by
      rw [hinv.sendGetResponse_intact_iff, State.Allowed, hanswer]
      simp only [Option.some.injEq]
      exact Iff.rfl
    refine ⟨⟨fun hright => hiff.mp hright.intact, fun h => .of_sending (hiff.mpr h)⟩, fun h => ?_⟩
    refine ⟨hiff.mpr h, ?_, ?_⟩
    · rw [sendGetResponse_pipe]
      exact hinv.pipe
    · rw [sendGetResponse_inflight]
      exact hinv.inflight

/-- A response that is received goes to the request it is for, when its channel is not with another
one. -/
theorem Inv.receive_right_iff (hinv : Inv s) {now : ℤ}
    (hstep : step s (.receive p now) = some (o, u)) :
    (Right ⟨s, .receive p now, o, u⟩ ↔ s.Allowed (.receive p now)) ∧
      (s.Allowed (.receive p now) → Inv u) := by
  rw [step] at hstep
  split at hstep
  · cases hstep
  · rename_i m rest hpipe
    have hm : m.payload = m.call.payload := hinv.pipe p m (hpipe ▸ List.mem_cons_self)
    have hnext : Inv { s with pipe := Function.update s.pipe p rest } := by
      refine ⟨hinv.sending, fun p' => ?_, hinv.inflight⟩
      show ∀ m ∈ Function.update s.pipe p rest p', _
      by_cases hp : p' = p
      · subst hp
        rw [Function.update_self]
        exact fun m' hm' => hinv.pipe p' m' (hpipe ▸ List.mem_cons_of_mem m hm')
      · rw [Function.update_of_ne hp]
        exact hinv.pipe p'
    have hallowed : s.Allowed (.receive p now) ↔ (InTime m.payload.token.deadline now →
        ∀ x ∈ s.inflight p m.payload.token.handle, m.call.request = x.1) := by
      rw [State.Allowed, hpipe]
      exact ⟨fun hall => hall m rfl, fun hall _ heq => Option.some.inj heq ▸ hall⟩
    have hdrop : o = .nothing → Inv u → Right ⟨s, .receive p now, o, u⟩ := by
      rintro rfl hu
      exact .of_sending hu.sending
    rw [hallowed]
    rw [receiveResponse] at hstep
    split_ifs at hstep with htime
    · cases hlive : s.inflight p m.payload.token.handle with
      | none =>
        simp only [hlive] at hstep
        obtain ⟨rfl, rfl⟩ := Prod.mk.inj (Option.some.inj hstep)
        exact ⟨iff_of_true (hdrop rfl hnext) nofun, fun _ => hnext⟩
      | some x =>
        obtain ⟨r, data⟩ := x
        simp only [hlive] at hstep
        obtain ⟨rfl, rfl⟩ := Prod.mk.inj (Option.some.inj hstep)
        have hkept : m.call.request = r → Inv (State.setInflight
            { s with pipe := Function.update s.pipe p rest } p m.payload.token.handle
            (some (r, data ++ [m]))) := by
          intro hr
          refine hnext.setInflight fun m' hm' => ?_
          rcases List.mem_append.mp hm' with hold | hnew
          · exact hinv.inflight p _ r data hlive m' hold
          · rw [List.mem_singleton.mp hnew]
            exact ⟨hr, hm⟩
        have hiff : (InTime m.payload.token.deadline now →
            ∀ x ∈ some (r, data), m.call.request = x.1) ↔ m.call.request = r :=
          ⟨fun hall => hall htime _ rfl, fun hr _ x hx => Option.some.inj hx ▸ hr⟩
        rw [hiff]
        refine ⟨⟨fun hright => (hright.delivered r m rfl).1, fun hr => ⟨(hkept hr).sending, ?_,
          nofun⟩⟩, hkept⟩
        intro r' res heq
        injection heq with hr' hres
        subst hr' hres
        exact ⟨hr, hm⟩
    · obtain ⟨rfl, rfl⟩ := Prod.mk.inj (Option.some.inj hstep)
      exact ⟨iff_of_true (hdrop rfl hnext) fun h => absurd h htime, fun _ => hnext⟩

/-- What a request returns are responses that were delivered to it. -/
theorem Inv.returned_right (hinv : Inv s) {r : ℕ} {data data' : List Response}
    (hlive : s.inflight p handle = some (r, data)) (hsub : data' ⊆ data) :
    Right ⟨s, i, .returned r data', s.setInflight p handle none⟩ ∧
      Inv (s.setInflight p handle none) := by
  refine ⟨⟨hinv.sending, nofun, fun r' data'' heq res hres => ?_⟩, hinv.clearInflight⟩
  injection heq with hr hdata
  subst hr hdata
  exact hinv.inflight p handle r data hlive res (hsub hres)

theorem Inv.step_right_iff (hinv : Inv s) (hstep : step s i = some (o, u)) :
    (Right ⟨s, i, o, u⟩ ↔ s.Allowed i) ∧ (s.Allowed i → Inv u) := by
  cases i with
  | sendGetResponse q r data => exact hinv.sendGetResponse_right_iff hstep
  | receive p now => exact hinv.receive_right_iff hstep
  | request p handle tout now =>
    rw [step] at hstep
    split at hstep
    · cases hstep
    · obtain ⟨rfl, rfl⟩ := Prod.mk.inj (Option.some.inj hstep)
      have hnext : Inv { s with
          requests := s.requests ++ [(p, Token.mk handle (deadlineOf tout now))] } :=
        ⟨hinv.sending, hinv.pipe, hinv.inflight⟩
      exact ⟨iff_of_true (.of_sending hinv.sending) trivial,
        fun _ => hnext.setInflight fun m hm => absurd hm List.not_mem_nil⟩
  | write q i =>
    rw [step] at hstep
    split at hstep
    · cases hstep
    · rename_i x hx
      obtain ⟨rfl, rfl⟩ := Prod.mk.inj (Option.some.inj hstep)
      have hrest : ∀ q', ∀ y ∈ Function.update s.sending q ((s.sending q).eraseIdx i) q',
          y.payload (s.buffer q') = y.call.payload := by
        rw [← Function.update_eq_self q s.buffer, forall_sending_iff hinv]
        exact fun y hy => hinv.sending q y (List.mem_of_mem_eraseIdx hy)
      refine ⟨iff_of_true (.of_sending hrest) trivial,
        fun _ => ⟨hrest, fun p' => ?_, hinv.inflight⟩⟩
      show ∀ m ∈ Function.update s.pipe x.dst _ p', _
      by_cases hp : p' = x.dst
      · subst hp
        rw [Function.update_self, List.forall_mem_append, List.forall_mem_singleton]
        exact ⟨hinv.pipe x.dst, hinv.sending q x (List.mem_of_getElem? hx)⟩
      · rw [Function.update_of_ne hp]
        exact hinv.pipe p'
  | fail q i =>
    obtain ⟨rfl, rfl⟩ := Prod.mk.inj (Option.some.inj hstep)
    have hrest : ∀ q', ∀ y ∈ Function.update s.sending q ((s.sending q).eraseIdx i) q',
        y.payload (s.buffer q') = y.call.payload := by
      rw [← Function.update_eq_self q s.buffer, forall_sending_iff hinv]
      exact fun y hy => hinv.sending q y (List.mem_of_mem_eraseIdx hy)
    exact ⟨iff_of_true (.of_sending hrest) trivial, fun _ => ⟨hrest, hinv.pipe, hinv.inflight⟩⟩
  | get p handle status =>
    rw [step] at hstep
    split at hstep
    · cases hstep
    · rename_i r data hlive
      obtain ⟨rfl, rfl⟩ := Prod.mk.inj (Option.some.inj hstep)
      have hsub : (if status then data.take 1 else []) ⊆ data := by
        split_ifs
        · exact List.take_subset 1 data
        · exact List.nil_subset data
      obtain ⟨hright, hnext⟩ := hinv.returned_right (i := .get p handle status) hlive hsub
      exact ⟨iff_of_true hright trivial, fun _ => hnext⟩
  | gather p handle =>
    rw [step] at hstep
    split at hstep
    · cases hstep
    · rename_i r data hlive
      obtain ⟨rfl, rfl⟩ := Prod.mk.inj (Option.some.inj hstep)
      obtain ⟨hright, hnext⟩ :=
        hinv.returned_right (i := .gather p handle) hlive (List.Subset.refl data)
      exact ⟨iff_of_true hright trivial, fun _ => hnext⟩

instance : DecidablePred s.Allowed
  | .sendGetResponse q request data => inferInstanceAs (Decidable (data.length < 256 →
      ∀ x ∈ s.sending q, x.own = none → s.answer request data = some x.call.payload))
  | .receive p now => inferInstanceAs (Decidable (∀ m ∈ (s.pipe p).head?,
      InTime m.payload.token.deadline now →
        ∀ x ∈ s.inflight p m.payload.token.handle, m.call.request = x.1))
  | .request .. | .write .. | .fail .. | .get .. | .gather .. => inferInstanceAs (Decidable True)

/-- The data that the last request to end has got. -/
def lastData (ms : List (Move State Op Answer)) : List Bytes :=
  match ms.getLast?.map Move.output with
  | some (.returned _ data) => data.map fun m => m.payload.data
  | _ => []

end IpcGet
end Suil
