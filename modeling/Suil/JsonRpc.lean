/-
Batches of JSON-RPC requests.

A server answers the requests of a batch one after another.  It answers a version
that it does not know without the id, and takes the id of every other request as
if it were there.  A client turns the responses into results from the last one to
the first.

* `answers_iff` — the batches that a server answers as it should;
* `transform_reverse` — the results are those of the responses, in reverse order;
* `batch_answers_iff` — both sides, with the batches for which the results are in
  order.
-/
import Suil.Json
import Suil.SrpcRequests

namespace Suil.Jrpc

open Srpc (RpcError)

variable {N S : Type}

structure Request (N : Type) where
  jsonrpc : Bytes
  method : Bytes
  id : Option ℤ
  params : Option (Json N)

structure Response (N : Type) where
  jsonrpc : Bytes
  id : Option ℤ
  result : Option (Json N)
  error : Option RpcError

inductive Result (N : Type) where
  | success (obj : Json N)
  | error (text : Bytes)

/-- `Context::operator()` of a service: what it returns or the text of the exception that it throws,
and the service as it then is. -/
abbrev Context (S N : Type) := S → Bytes → Json N → ℤ → Except Bytes (ℤ × Result N) × S

def jsonRpcVersion : Bytes := ascii "2.0"

def apiError : ℤ := -32000

def parseError : ℤ := -32700

def invalidRequest : ℤ := -32600

def methodNotFound : ℤ := -32601

def internalError : ℤ := -32603

/-- What `std::bad_variant_access` says. -/
def badVariantAccess : Bytes := ascii "std::get: wrong index for variant"

/-- `std::get<String>`. -/
def Result.getString : Result N → Except Bytes Bytes
  | .success _ => .error badVariantAccess
  | .error text => .ok text

/-- `std::get<json::Object>`. -/
def Result.getObject : Result N → Except Bytes (Json N)
  | .success obj => .ok obj
  | .error _ => .error badVariantAccess

/-- A response with nothing but an id. -/
def Response.new (id : Option ℤ) : Response N := ⟨jsonRpcVersion, id, none, none⟩

/-- The response to a call: its result, the error for the code it returned, or that for an
exception. -/
def respond (id : ℤ) (called : Except Bytes (ℤ × Result N)) (error : ℤ → Bytes → RpcError)
    (failed : Bytes → RpcError) : Response N :=
  let resp : Response N := .new (some id)
  let returned : Except Bytes (Response N) := do
    let (code, ret) ← called
    if code ≠ 0 then
      let text ← ret.getString
      .ok { resp with error := some (error code text) }
    else
      let obj ← ret.getObject
      .ok { resp with result := some obj }
  match returned with
  | .ok resp => resp
  | .error what => { resp with error := some (failed (what.takeWhile (· != 0))) }

theorem zero_notMem_empty : (0 : UInt8) ∉ ([] : Bytes) := List.not_mem_nil

/-- The empty string. -/
def emptyString : CString := ⟨[], zero_notMem_empty⟩

/-- `extensionMethods`. -/
def extensionMethods : List (Bytes × (Json N → ℤ × Result N)) :=
  [(Srpc.versionName, fun _ => (0, .success (.string emptyString)))]

/-- `Connection::handleExtension`. -/
def handleExtension (method : Bytes) (params : Json N) (id : ℤ) : Response N :=
  match extensionMethods.find? fun m => m.1 = method with
  | none =>
    { Response.new (some id) with
      error := some ⟨methodNotFound, ascii "InternalError",
        ascii "method '" ++ method ++ ascii "' is not an extension method"⟩ }
  | some m =>
    respond id (.ok (m.2 params)) (fun code text => ⟨code, ascii "InternalError", text⟩)
      fun what => ⟨internalError, ascii "InternalError", what⟩

/-- `Connection::handleWithContext`. -/
def handleWithContext (ctx : Context S N) (s : S) (method : Bytes) (params : Json N) (id : ℤ) :
    Response N × S :=
  let (called, s) := ctx s method params id
  (respond id called (fun _ text => ⟨apiError, ascii "ServiceHandlerError", text⟩)
    fun what => ⟨apiError, ascii "UnhandledApiError", what⟩, s)

/-- The response to one request of a batch; none when the id of a request that has none is taken. -/
def answer (ctx : Context S N) (s : S) (req : Request N) : Option (Response N × S) :=
  if !strEq req.jsonrpc jsonRpcVersion then
    some ({ Response.new none with
      error := some ⟨invalidRequest, ascii "InvalidRequest",
        ascii "Unsupported JSON RPC version '" ++ req.jsonrpc ++ ascii "'"⟩ }, s)
  else
    req.id.map fun id =>
      let obj := req.params.getD .null
      if strEq (substr req.method 0 4) (ascii "rpc_") then (handleExtension req.method obj id, s)
      else handleWithContext ctx s req.method obj id

/-- The responses to the requests. -/
def answerAll (ctx : Context S N) (s : S) : List (Request N) → Option (List (Response N) × S)
  | [] => some ([], s)
  | req :: reqs => do
    let (resp, s) ← answer ctx s req
    let (resps, s) ← answerAll ctx s reqs
    some (resp :: resps, s)

/-- `Connection::handleRequest`, on what was parsed: the text of the exception, if there was one,
and the requests. -/
def handleRequest (ctx : Context S N) (s : S) (status : Bytes) (reqs : List (Request N)) :
    Option (List (Response N) × S) :=
  if status ≠ [] then
    some ([{ Response.new none with
      error := some ⟨parseError, ascii "ParseError", status⟩ }], s)
  else answerAll ctx s reqs

/-! ### The client -/

/-- `Client::pack`, with the `idGenerator`. -/
def pack : ℤ → List (Bytes × Json N) → Option (List (Request N) × ℤ)
  | idGenerator, [] => some ([], idGenerator)
  | idGenerator, (method, params) :: args => do
    let next ← Srpc.int (idGenerator + 1)
    let (package, last) ← pack next args
    some (⟨jsonRpcVersion, method, some idGenerator,
      if params.empty then none else some params⟩ :: package, last)

/-- The result that a response stands for; none when the client throws. -/
def outcome (resp : Response N) : Option (Result N) :=
  if resp.error.isSome && resp.result.isSome then none
  else
    match resp.error with
    | some err =>
      if -32099 ≤ err.code ∧ err.code ≤ apiError then
        some (.error (ascii "ApiError-" ++ integerText err.code ++ ascii " " ++ err.data))
      else none
    | none => some (.success (resp.result.getD .null))

/-- The loop of `transform`, over the responses from the back. -/
def transformLoop : List (Response N) → Option (List (Result N))
  | [] => some []
  | resp :: resps => do
    let res ← outcome resp
    let rest ← transformLoop resps
    some (res :: rest)

/-- `Client::transform`. -/
def transform (resps : List (Response N)) : Option (List (Result N)) := transformLoop resps.reverse

/-! ### What is asked of the two sides -/

/-- A response is what the server makes of a request, with the id of the request. -/
def Answers (ctx : Context S N) (req : Request N) (resp : Response N) : Prop :=
  (∃ s t, answer ctx s req = some (resp, t)) ∧ ∀ id, req.id = some id → resp.id = some id

/-- There is one response a request, in order. -/
def AnswersBatch (ctx : Context S N) (s : S) (reqs : List (Request N)) : Prop :=
  ∃ resps t, handleRequest ctx s [] reqs = some (resps, t) ∧ List.Forall₂ (Answers ctx) reqs resps

/-- The responses that a client gets for a batch. -/
def Responds (ctx : Context S N) (s : S) (idGenerator : ℤ) (calls : List (Bytes × Json N))
    (resps : List (Response N)) : Prop :=
  ∃ reqs last t, pack idGenerator calls = some (reqs, last) ∧
    handleRequest ctx s [] reqs = some (resps, t)

/-- The results that a client returns are those that the server reported, in order. -/
def ReturnsReported (ctx : Context S N) (s : S) (idGenerator : ℤ) (calls : List (Bytes × Json N)) :
    Prop :=
  ∀ (resps : List (Response N)) (results : List (Result N)),
    Responds ctx s idGenerator calls resps → transform resps = some results →
      ∀ i : ℕ, results[i]? = resps[i]?.bind outcome

/-- Nothing that the server reports makes the client throw. -/
def Reported (resps : List (Response N)) : Prop := ∀ resp ∈ resps, outcome resp ≠ none

/-- Read backwards, the responses stand for the same results. -/
def Mirrored (resps : List (Response N)) : Prop :=
  (resps.map outcome).reverse = resps.map outcome

variable {ctx : Context S N} {s : S}

/-! ### The server -/

theorem respond_id (id : ℤ) (called : Except Bytes (ℤ × Result N)) (error : ℤ → Bytes → RpcError)
    (failed : Bytes → RpcError) : (respond id called error failed).id = some id := by
  rcases called with what | ⟨code, ret⟩
  · rfl
  · rw [respond]
    by_cases hcode : code ≠ 0
    · rcases ret with obj | text
      · simp [bind, Except.bind, hcode, Result.getString, Response.new]
      · simp [bind, Except.bind, hcode, Result.getString, Response.new]
    · rcases ret with obj | text
      · simp [bind, Except.bind, hcode, Result.getObject, Response.new]
      · simp [bind, Except.bind, hcode, Result.getObject, Response.new]

theorem handleExtension_id (method : Bytes) (params : Json N) (id : ℤ) :
    (handleExtension method params id).id = some id := by
  rw [handleExtension]
  split
  · rfl
  · exact respond_id ..

/-- A request is answered with its id iff it has one exactly when its version is known. -/
theorem answer_iff (ctx : Context S N) (s : S) (req : Request N) :
    (∃ resp t, answer ctx s req = some (resp, t) ∧ Answers ctx req resp) ↔
      req.id.isSome = strEq req.jsonrpc jsonRpcVersion := by
  rcases hversion : strEq req.jsonrpc jsonRpcVersion with _ | _
  · have hanswer : ∀ u, answer ctx u req = some (_, u) := fun u => by
      rw [answer, hversion]
      rfl
    constructor
    · -- the answer to another version has no id
      rintro ⟨resp, t, hresp, -, hid⟩
      obtain ⟨rfl, -⟩ := Prod.mk.inj (Option.some.inj ((hanswer s).symm.trans hresp))
      rcases hreq : req.id with _ | id
      · rfl
      · exact absurd (hid id hreq) nofun
    · intro hnone
      refine ⟨_, _, hanswer s, ⟨s, s, hanswer s⟩, fun id hid => ?_⟩
      rw [hid] at hnone
      exact absurd hnone nofun
  · rcases hreq : req.id with _ | id
    · -- the id that is not there is taken
      refine iff_of_false ?_ nofun
      rintro ⟨resp, t, hresp, -⟩
      rw [answer, hversion, hreq] at hresp
      exact absurd hresp nofun
    · refine iff_of_true ?_ rfl
      have hanswer : ∃ resp t, answer ctx s req = some (resp, t) ∧ resp.id = some id := by
        rw [answer, hversion, hreq, Bool.not_true, if_neg Bool.false_ne_true, Option.map_some]
        by_cases hext : strEq (substr req.method 0 4) (ascii "rpc_") = true
        · simp only [if_pos hext]
          exact ⟨_, s, rfl, handleExtension_id ..⟩
        · simp only [if_neg hext]
          exact ⟨_, _, rfl, respond_id ..⟩
      obtain ⟨resp, t, hresp, hid⟩ := hanswer
      refine ⟨resp, t, hresp, ⟨s, t, hresp⟩, fun id' hid' => ?_⟩
      rw [hid, ← hid', hreq]

theorem answerAll_iff (ctx : Context S N) (s : S) (reqs : List (Request N)) :
    (∃ resps t, answerAll ctx s reqs = some (resps, t) ∧
      List.Forall₂ (Answers ctx) reqs resps) ↔
      ∀ req ∈ reqs, req.id.isSome = strEq req.jsonrpc jsonRpcVersion := by
  induction reqs generalizing s with
  | nil => exact iff_of_true ⟨[], s, rfl, .nil⟩ nofun
  | cons req reqs ih =>
    rw [List.forall_mem_cons, ← answer_iff ctx s req]
    constructor
    · -- the state behind the first request is that of the rest
      rintro ⟨resps, t, hall, hforall⟩
      obtain ⟨⟨resp, u⟩, hresp, hall⟩ := Option.bind_eq_some_iff.mp hall
      obtain ⟨⟨rest, v⟩, hrest, hall⟩ := Option.bind_eq_some_iff.mp hall
      obtain ⟨rfl, rfl⟩ := Prod.mk.inj (Option.some.inj hall)
      obtain ⟨hhead, htail⟩ := List.forall₂_cons.mp hforall
      exact ⟨⟨resp, u, hresp, hhead⟩, (ih u).mp ⟨rest, v, hrest, htail⟩⟩
    · rintro ⟨⟨resp, u, hresp, hhead⟩, hall⟩
      obtain ⟨rest, v, hrest, htail⟩ := (ih u).mpr hall
      refine ⟨resp :: rest, v, ?_, .cons hhead htail⟩
      rw [answerAll, hresp, Option.bind_eq_bind, Option.bind_some]
      simp only [hrest]
      rfl

/-! ### The client -/

theorem transformLoop_map {resps : List (Response N)} {results : List (Result N)}
    (h : transformLoop resps = some results) : results.map some = resps.map outcome := by
  induction resps generalizing results with
  | nil =>
    obtain rfl := Option.some.inj h
    rfl
  | cons resp resps ih =>
    obtain ⟨res, hres, h⟩ := Option.bind_eq_some_iff.mp h
    obtain ⟨rest, hrest, h⟩ := Option.bind_eq_some_iff.mp h
    obtain rfl := Option.some.inj h
    rw [List.map_cons, List.map_cons, hres, ih hrest]

theorem transformLoop_isSome_iff {resps : List (Response N)} :
    (∃ results, transformLoop resps = some results) ↔ Reported resps := by
  induction resps with
  | nil => exact iff_of_true ⟨[], rfl⟩ nofun
  | cons resp resps ih =>
    rw [Reported, List.forall_mem_cons, ← Reported, ← ih]
    constructor
    · rintro ⟨results, h⟩
      obtain ⟨res, hres, h⟩ := Option.bind_eq_some_iff.mp h
      obtain ⟨rest, hrest, -⟩ := Option.bind_eq_some_iff.mp h
      exact ⟨by rw [hres]; exact Option.some_ne_none res, rest, hrest⟩
    · rintro ⟨hres, rest, hrest⟩
      obtain ⟨res, hres⟩ := Option.ne_none_iff_exists'.mp hres
      exact ⟨res :: rest, by rw [transformLoop, hres, hrest]; rfl⟩

/-- **The results of a batch** are those of its responses, the last one first. -/
theorem transform_reverse {resps : List (Response N)} {results : List (Result N)}
    (h : transform resps = some results) : results.map some = (resps.map outcome).reverse := by
  rw [transformLoop_map h, List.map_reverse]

theorem transform_isSome_iff {resps : List (Response N)} :
    (∃ results, transform resps = some results) ↔ Reported resps := by
  rw [transform, transformLoop_isSome_iff, Reported, Reported]
  simp only [List.mem_reverse]

/-- Results are in order iff, one by one, they are those of the responses. -/
theorem forall_getElem?_iff {resps : List (Response N)} {results : List (Result N)}
    (hlen : results.length = resps.length) :
    (∀ i : ℕ, results[i]? = resps[i]?.bind outcome) ↔ results.map some = resps.map outcome := by
  have hone : ∀ i : ℕ, results[i]? = resps[i]?.bind outcome ↔
      (results.map some)[i]? = (resps.map outcome)[i]? := by
    intro i
    rw [List.getElem?_map, List.getElem?_map]
    by_cases hi : i < resps.length
    · rw [List.getElem?_eq_getElem hi, List.getElem?_eq_getElem (hlen ▸ hi), Option.bind_some,
        Option.map_some, Option.map_some, Option.some.injEq]
    · rw [List.getElem?_eq_none (not_lt.mp hi), List.getElem?_eq_none (hlen ▸ not_lt.mp hi)]
      exact iff_of_true rfl rfl
  simp only [hone]
  exact ⟨List.ext_getElem?, fun heq i => by rw [heq]⟩

theorem transform_iff {resps : List (Response N)} {results : List (Result N)}
    (h : transform resps = some results) :
    (∀ i : ℕ, results[i]? = resps[i]?.bind outcome) ↔ Mirrored resps := by
  have hmap := transform_reverse h
  have hlen := congrArg List.length hmap
  rw [List.length_map, List.length_reverse, List.length_map] at hlen
  rw [forall_getElem?_iff hlen, hmap]
  rfl

theorem returnsReported_iff (ctx : Context S N) (s : S) (idGenerator : ℤ)
    (calls : List (Bytes × Json N)) : ReturnsReported ctx s idGenerator calls ↔
      ∀ resps, Responds ctx s idGenerator calls resps → Reported resps → Mirrored resps := by
  constructor
  · intro hall resps hresp hreported
    obtain ⟨results, hresults⟩ := transform_isSome_iff.mpr hreported
    exact (transform_iff hresults).mp (hall resps results hresp hresults)
  · intro hall resps results hresp hresults
    have hreported := transform_isSome_iff.mp ⟨results, hresults⟩
    exact (transform_iff hresults).mpr (hall resps hresp hreported)

/-- **Batches**: a server answers a batch as it should iff a request has an id exactly when its
version is known, and a client returns what the server reported, in order, iff that is the same
read backwards. -/
theorem batch_answers_iff (ctx : Context S N) (s : S) (reqs : List (Request N)) (idGenerator : ℤ)
    (calls : List (Bytes × Json N)) :
    (AnswersBatch ctx s reqs ↔
      ∀ req ∈ reqs, req.id.isSome = strEq req.jsonrpc jsonRpcVersion) ∧
    (ReturnsReported ctx s idGenerator calls ↔
      ∀ resps, Responds ctx s idGenerator calls resps → Reported resps → Mirrored resps) := by
  refine ⟨?_, returnsReported_iff ctx s idGenerator calls⟩
  rw [← answerAll_iff ctx s reqs]
  rfl

/-- The number that a result is. -/
def Result.number : Result ℕ → Option ℕ
  | .success (.number x) => some x
  | _ => none

/-- A service that returns the parameters of a call. -/
def echo : Context Unit ℕ := fun s _ params _ => (.ok (0, .success params), s)

/-- A request without an id, a request of another version, and a batch of two calls. -/
theorem not_batch_answers :
    ¬AnswersBatch echo () [⟨jsonRpcVersion, ascii "get", none, none⟩] ∧
      ¬AnswersBatch echo () [⟨ascii "1.0", ascii "get", some 7, none⟩] ∧
      ¬ReturnsReported echo () 0 [(ascii "get", .number 1), (ascii "get", .number 2)] := by
  refine ⟨?_, ?_, ?_⟩
  · rintro ⟨resps, t, hresps, -⟩
    have hnone : (handleRequest echo () [] [⟨jsonRpcVersion, ascii "get", none, none⟩]).isNone := by
      decide +kernel
    rw [hresps] at hnone
    exact absurd hnone nofun
  · rintro ⟨resps, t, hresps, hanswers⟩
    have hid : (handleRequest echo () [] [⟨ascii "1.0", ascii "get", some 7, none⟩]).map
        (·.1.map Response.id) = some [none] := by
      decide +kernel
    rw [hresps] at hid
    obtain ⟨resp, rest, ⟨-, hresp⟩, -, rfl⟩ := List.forall₂_cons_left_iff.mp hanswers
    have hsome := hresp 7 rfl
    simp [hsome] at hid
  · intro hall
    have hrun : (pack 0 [(ascii "get", .number 1), (ascii "get", .number 2)]).bind (fun p =>
        (handleRequest echo () [] p.1).bind fun q => (transform q.1).map fun results =>
          (results[0]?.bind Result.number, (q.1[0]?.bind outcome).bind Result.number)) =
        some (some 2, some 1) := by
      decide +kernel
    obtain ⟨p, hpack, hrun⟩ := Option.bind_eq_some_iff.mp hrun
    obtain ⟨q, hresps, hrun⟩ := Option.bind_eq_some_iff.mp hrun
    obtain ⟨results, hresults, hrun⟩ := Option.map_eq_some_iff.mp hrun
    obtain ⟨htwo, hone⟩ := Prod.mk.inj hrun
    rw [hall q.1 results ⟨p.1, p.2, q.2, hpack, hresps⟩ hresults 0, hone] at htwo
    exact absurd htwo (by decide)

end Suil.Jrpc
