/-
The state of the validator, as a processor uses it.

`GlobalState` asks for the entries at some addresses, and has entries set or deleted.  A processor
that uses it is a program over these requests; what it sends and is told are messages, which are
written and read by code that is not part of this.

* `run` — what a program does, and what becomes of the state, when a validator answers it;
* `Talks.head` — a conversation by its first exchange;
* `run_of_talks` — a conversation with a validator that answers tells what the program does;
* `served_consults` — the responses of a transaction processor are those of its programs, run one
  after the other.
-/
import Suil.TransactionProcessor

open Runs Suil.TransactionProcessor
open Suil.Dispatcher (Proto)

namespace Suil.GlobalState

/-- `TpStateEntry` -/
structure StateEntry where
  address : Bytes
  data : Bytes
deriving DecidableEq

/-- `TpStateGetRequest`, `TpStateSetRequest` and `TpStateDeleteRequest` -/
inductive Request where
  | get (contextId : Bytes) (addresses : List Bytes)
  | set (contextId : Bytes) (entries : List StateEntry)
  | delete (contextId : Bytes) (addresses : List Bytes)
deriving DecidableEq

/-- The type of the message with a request. -/
def Request.type : Request → ℕ
  | .get _ _ => 7
  | .set _ _ => 9
  | .delete _ _ => 11

/-- The type of the message with the response. -/
def Request.expected : Request → ℕ
  | .get _ _ => 8
  | .set _ _ => 10
  | .delete _ _ => 12

/-- The responses; only one to a request of the first kind has entries that are looked at. -/
structure Response where
  status : ℕ
  entries : List StateEntry := []
deriving DecidableEq

def AUTHORIZATION_ERROR : ℕ := 2

/-- A processor that uses the state; there is no response when `getMessage` or `asyncSend` has
thrown. -/
inductive Program where
  | ended (how : Applied)
  | asks (q : Request) (next : Option Response → Program)

/-! ### `GlobalState` -/

/-- A request, and what is done with its response; an exception ends the program. -/
def request (q : Request) (next : Response → Program) : Program :=
  .asks q fun r =>
    match r with
    | none => .ended .thrown
    | some resp => if resp.status = AUTHORIZATION_ERROR then .ended .thrown else next resp

/-- `data.emplace`, which leaves the data of an address that is there. -/
def emplace (data : List StateEntry) (entry : StateEntry) : List StateEntry :=
  if data.any fun e => strEq e.address entry.address then data else data ++ [entry]

/-- `getState` of some addresses. -/
def getStates (contextId : Bytes) (addresses : List Bytes) (next : List StateEntry → Program) :
    Program :=
  request (.get contextId addresses) fun resp => next (resp.entries.foldl emplace [])

/-- `getState` of one address. -/
def getState (contextId address : Bytes) (next : Bytes → Program) : Program :=
  getStates contextId [address] fun out => next ((out.head?.map StateEntry.data).getD [])

/-- `setState` -/
def setState (contextId address value : Bytes) (next : Program) : Program :=
  request (.set contextId [⟨address, value⟩]) fun _ => next

/-- `deleteState` -/
def deleteState (contextId address : Bytes) (next : Program) : Program :=
  request (.delete contextId [address]) fun _ => next

/-! ### Addresses -/

/-- `ishex`, of small letters. -/
def isHex (s : Bytes) : Bool := s.all fun c => (48 ≤ c && c ≤ 57) || (97 ≤ c && c ≤ 102)

/-- `isValidAddr`, which throws where this is false. -/
def isValidAddr (addr : Bytes) : Bool := addr.length = 70 && isHex addr

/-- `isNamespaceValid` -/
def isNamespaceValid (ns : Bytes) : Bool := ns.length = 6 && isHex ns

/-- `DefaultAddressEncoder::operator()` of a namespace, with the hash as it is printed; there is no
address when an `AddressEncodeError` is thrown. -/
def encodeAddress (SHA512 : Bytes → Bytes) (ns key : Bytes) : Option Bytes :=
  let mPrefix := substr (SHA512 ns) 0 6
  if isNamespaceValid mPrefix = false then none
  else
    let addr := mPrefix ++ substr (SHA512 key) 6 64
    if isValidAddr addr then some addr else none

/-! ### A validator -/

section Answers

variable {S : Type} (answer : S → Request → Response × S)

/-- What a program does against a validator. -/
def Program.run : Program → S → Applied × S
  | .ended how, s => (how, s)
  | .asks q next, s => Program.run (next (some (answer s q).1)) (answer s q).2

/-- How requests are written into messages, and responses read from them. -/
structure Codec where
  writeRequest : Request → Bytes
  readResponse : Bytes → Response

variable (codec : Codec)

/-- `asyncSend` and `getMessage`, of what a program asks. -/
def Program.wire : Program → Processor
  | .ended how => .ended how
  | .asks q next => .asks q.type q.expected (codec.writeRequest q) fun reply =>
      match reply with
      | .content data => Program.wire (next (some (codec.readResponse data)))
      | _ => Program.wire (next none)

/-- In a conversation with a program, all replies are what the validator answers, one after the
other. -/
def Consulted : Program → S → List Exchange → S → Prop
  | .ended _, s, talk, t => talk = [] ∧ s = t
  | .asks q next, s, talk, t => ∃ x rest data, talk = x :: rest ∧ x.reply = .content data ∧
      codec.readResponse data = (answer s q).1 ∧
      Consulted (next (some (answer s q).1)) (answer s q).2 rest t

/-- A program for a transaction, whose changes are kept when the transaction is valid. -/
def Program.serve (s : S) (p : Program) : Status × S :=
  ((p.run answer s).1.status, if (p.run answer s).1 = .returned then (p.run answer s).2 else s)

end Answers

/-- One after the other. -/
def inTurn {S A B : Type} (f : S → A → B × S) (s : S) : List A → List B × S
  | [] => ([], s)
  | a :: as => ((f s a).1 :: (inTurn f (f s a).2 as).1, (inTurn f (f s a).2 as).2)

/-- What agrees step by step agrees in the end. -/
theorem inTurn_simulates {S T A B : Type} {f : S → A → B × S} {g : T → A → B × T}
    {R : S → T → Prop} {s : S} {t : T} {as : List A}
    (hstep : ∀ a ∈ as, ∀ s t, R s t → (f s a).1 = (g t a).1 ∧ R (f s a).2 (g t a).2)
    (h : R s t) :
    (inTurn f s as).1 = (inTurn g t as).1 ∧ R (inTurn f s as).2 (inTurn g t as).2 := by
  induction as generalizing s t with
  | nil => exact ⟨rfl, h⟩
  | cons a as ih =>
    obtain ⟨hout, hnext⟩ := hstep a (List.mem_cons_self ..) s t h
    obtain ⟨houts, hlast⟩ := ih (fun b hb => hstep b (List.mem_cons_of_mem _ hb)) hnext
    refine ⟨?_, hlast⟩
    rw [inTurn, inTurn, hout, houts]

/-! ### The processors of a transaction processor -/

/-- A handler: its family, and the program that its processor is for a transaction; there is none
when `getProcessor` throws. -/
structure Handler where
  family : Bytes
  program : ProcessRequest → Option Program

section Handlers

variable (parse : Bytes → Proto) (parseRequest : Bytes → ProcessRequest) (codec : Codec)
  (handlers : List Handler)

/-- A transaction processor whose processors use the state. -/
def setup : Setup where
  parse := parse
  parseRequest := parseRequest
  mHandlers := handlers.map fun h => (h.family, fun req => (h.program req).map (Program.wire codec))

/-- The program for a request. -/
def programFor (req : ProcessRequest) : Option Program :=
  req.header.map fun txnHeader =>
    match handlers.find? fun h => strEq h.family txnHeader.family_name with
    | none => .ended .invalid
    | some h => (h.program req).getD (.ended .thrown)

variable {S : Type} (answer : S → Request → Response × S)

/-- What was asked for the requests was answered from the state, for one request after the other;
what was changed for a request is kept when it is valid. -/
inductive Consults : S → List Service → S → Prop where
  | nil (s : S) : Consults s [] s
  | cons {s t u : S} {p : Program} {v : Service} {services : List Service}
    (hp : programFor handlers (parseRequest v.request.content) = some p)
    (h : Consulted answer codec p s v.talk t)
    (hrest : Consults (if v.status = .ok then t else s) services u) :
    Consults s (v :: services) u

/-- The programs for the requests. -/
def programs (services : List Service) : List Program :=
  services.filterMap fun v => programFor handlers (parseRequest v.request.content)

end Handlers

/-- The first exchange of a conversation. -/
theorem Talks.head {p q : Processor} {talk : List Exchange} (h : Talks p talk q) :
    (talk = [] ∧ p = q) ∨ ∃ type expected data next x rest,
      p = .asks type expected data next ∧ talk = x :: rest ∧ Talks (next x.reply) rest q := by
  induction h with
  | nil => exact .inl ⟨rfl, rfl⟩
  | sent h reply ih =>
    right
    rcases ih with ⟨rfl, rfl⟩ | ⟨type, expected, data, next, x, rest, rfl, rfl, htalks⟩
    · exact ⟨_, _, _, _, _, [], rfl, rfl, .nil _⟩
    · exact ⟨_, _, _, _, x, _, rfl, rfl, .sent htalks reply⟩
  | unsent h ih =>
    right
    rcases ih with ⟨rfl, rfl⟩ | ⟨type, expected, data, next, x, rest, rfl, rfl, htalks⟩
    · exact ⟨_, _, _, _, _, [], rfl, rfl, .nil _⟩
    · exact ⟨_, _, _, _, x, _, rfl, rfl, .unsent htalks⟩

/-- **A conversation with a validator** that answers each request: the program does what it does
against the validator. -/
theorem run_of_talks {S : Type} {answer : S → Request → Response × S} {codec : Codec} {p : Program}
    {talk : List Exchange} {how : Applied} {s t : S} (h : Talks (p.wire codec) talk (.ended how))
    (hc : Consulted answer codec p s talk t) : p.run answer s = (how, t) := by
  induction p generalizing talk s with
  | ended how' =>
    obtain ⟨rfl, rfl⟩ := hc
    rw [Program.wire] at h
    rcases Talks.head h with ⟨-, hp⟩ | ⟨type, expected, data, next, x, rest, hp, -⟩
    · rw [← Processor.ended.inj hp]
      rfl
    · cases hp
  | asks q next ih =>
    obtain ⟨x, rest, data, rfl, hreply, hresponse, hrest⟩ := hc
    rw [Program.wire] at h
    rcases Talks.head h with ⟨hnil, -⟩ | ⟨type, expected, data', next', x', rest', hp, heq, htalks⟩
    · cases hnil
    obtain ⟨rfl, rfl⟩ := List.cons.inj heq
    obtain ⟨-, -, -, rfl⟩ := Processor.asks.inj hp
    rw [hreply] at htalks
    dsimp only at htalks
    rw [hresponse] at htalks
    rw [Program.run]
    exact ih _ htalks hrest

section Handlers

variable {parse : Bytes → Proto} {parseRequest : Bytes → ProcessRequest} {codec : Codec}
  {handlers : List Handler} {S : Type} {answer : S → Request → Response × S}

theorem processor_setup (content : Bytes) :
    (setup parse parseRequest codec handlers).processor content =
      (programFor handlers (parseRequest content)).map (Program.wire codec) := by
  rw [Setup.processor, programFor]
  dsimp only [setup]
  rw [Option.map_map]
  congr 1
  funext txnHeader
  rw [Function.comp_apply, List.find?_map]
  have hname : ((fun e : Bytes × (ProcessRequest → Option Processor) =>
      strEq e.1 txnHeader.family_name) ∘ fun h : Handler =>
        (h.family, fun req => (h.program req).map (Program.wire codec))) =
      fun h => strEq h.family txnHeader.family_name := rfl
  rw [hname]
  cases handlers.find? fun h => strEq h.family txnHeader.family_name with
  | none => rfl
  | some h =>
    dsimp only [Option.map_some]
    cases h.program (parseRequest content) <;> rfl

/-- The changes for a transaction are kept when its processor has returned. -/
theorem status_eq_ok (how : Applied) : how.status = .ok ↔ how = .returned := by
  cases how <;> simp [Applied.status]

/-- **Requests that were answered from a state** were served by their programs, one after the
other. -/
theorem served_consults {heard : List Proto} {services : List Service} {s t : S}
    (hright : ∀ v ∈ services, v.Right (setup parse parseRequest codec handlers) heard)
    (h : Consults parseRequest codec handlers answer s services t) :
    (services.map Service.status, t) =
      inTurn (Program.serve answer) s (programs parseRequest handlers services) := by
  induction h with
  | nil s => rfl
  | @cons s t u p v services hp h hrest ih =>
    have hrest := ih fun w hw => hright w (List.mem_cons_of_mem _ hw)
    obtain ⟨⟨q, how, hq, htalks, hstatus⟩, -⟩ := hright v (List.mem_cons_self ..)
    rw [processor_setup, hp] at hq
    obtain rfl := Option.some.inj hq
    have hrun := run_of_talks htalks h
    have hserve : Program.serve answer s p = (v.status, if v.status = .ok then t else s) := by
      rw [Program.serve, hrun, hstatus]
      simp only [status_eq_ok]
    have hprograms : programs parseRequest handlers (v :: services) =
        p :: programs parseRequest handlers services := List.filterMap_cons_some hp
    rw [hprograms, inTurn, hserve]
    dsimp only
    rw [← hrest]
    rfl

end Handlers

end Suil.GlobalState
