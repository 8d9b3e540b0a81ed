/-
How an RPC connection answers a request.

A request is an id, a method number and the parameters.  Every answer is put on a
board whose size is estimated first, and begins with the id and a code: zero before
a result, another number before an error.  The extension that turns the size prefix
on reads its parameter and answers nothing.

* `WireType.encode_length` — a value takes as many bytes as `maxByteSize` tells;
* `respond_of_fits`, `respond_error` — which answers fit, those with an error always;
* `generated_undefined_iff` — the methods that a generated service calls;
* `request_answers_iff` — the requests that are answered as they should be.
-/
import Suil.SrpcMethods
import Suil.WireReading

open LittleEndian

namespace Suil

namespace WireType

/-- `Wire::maxByteSize`, where a structure has the sum of its members. -/
def maxByteSize : {α : Type} → WireType α → α → ℕ
  | _, varint, v => 1 + VarInt.length v.toNat
  | _, scalar size, _ => size
  | _, data, v => 1 + VarInt.length (v.length % 2 ^ 32) + v.length % 2 ^ 32
  | _, string, v => 1 + VarInt.length (v.length % 2 ^ 32) + v.length % 2 ^ 32
  | _, nullable _, none => 1
  | _, nullable t, some v => 1 + t.maxByteSize v
  | _, vector t, v => 1 + VarInt.length v.length + (v.map t.maxByteSize).sum
  | _, done, _ => 0
  | _, member t rest, (v, vs) => t.maxByteSize v + rest.maxByteSize vs
  | _, metaType t _, v => t.maxByteSize v

variable {α : Type}

theorem pushVarInt_length (n : ℕ) : (pushVarInt n).length = 1 + VarInt.length n := by
  rw [pushVarInt, List.length_cons, length_bytesLE, Nat.add_comm]

theorem encodeData_length (d : Bytes) : (encodeData d).length =
    1 + VarInt.length (d.length % 2 ^ 32) + d.length % 2 ^ 32 := by
  rw [encodeData, List.length_append, pushVarInt_length, List.length_take_of_le (Nat.mod_le _ _)]

theorem encodeAll_length {enc : α → Option Bytes} {size : α → ℕ} {xs : List α} {bs : Bytes}
    (henc : ∀ x b, enc x = some b → b.length = size x) (h : encodeAll enc xs = some bs) :
    bs.length = (xs.map size).sum := by
  induction xs generalizing bs with
  | nil =>
    obtain rfl := Option.some.inj h
    rfl
  | cons x xs ih =>
    obtain ⟨b, hb, h⟩ := Option.bind_eq_some_iff.mp h
    obtain ⟨rest, hrest, h⟩ := Option.bind_eq_some_iff.mp h
    obtain rfl := Option.some.inj h
    rw [List.length_append, henc x b hb, ih hrest, List.map_cons, List.sum_cons]

/-- **The size of an encoding** is the one that was estimated. -/
theorem encode_length (t : WireType α) {v : α} {bs : Bytes} (h : t.encode v = some bs) :
    bs.length = t.maxByteSize v := by
  induction t generalizing bs with
  | varint =>
    obtain rfl := Option.some.inj h
    exact pushVarInt_length _
  | scalar size =>
    rw [encode] at h
    split_ifs at h
    obtain rfl := Option.some.inj h
    exact v.size_toArray
  | data =>
    obtain rfl := Option.some.inj h
    exact encodeData_length v
  | string =>
    obtain rfl := Option.some.inj h
    exact encodeData_length v
  | nullable t ih =>
    rcases v with _ | v
    · obtain rfl := Option.some.inj h
      rfl
    · obtain ⟨b, hb, rfl⟩ := Option.map_eq_some_iff.mp h
      rw [List.length_cons, ih hb, maxByteSize, Nat.add_comm]
  | vector t ih =>
    rw [encode] at h
    split_ifs at h
    obtain ⟨b, hb, rfl⟩ := Option.map_eq_some_iff.mp h
    rw [List.length_append, pushVarInt_length, maxByteSize,
      encodeAll_length (fun x b hx => ih hx) hb]
  | done =>
    obtain rfl := Option.some.inj h
    rfl
  | member t rest iht ihrest =>
    obtain ⟨b, hb, h⟩ := Option.bind_eq_some_iff.mp h
    obtain ⟨b', hb', h⟩ := Option.bind_eq_some_iff.mp h
    obtain rfl := Option.some.inj h
    rw [List.length_append, iht hb, ihrest hb', maxByteSize]
  | metaType t init ih => exact ih h

end WireType

namespace Srpc

open WireType

/-- The bytes of an `int`. -/
def intBytes (i : ℤ) : Bytes := bytesLE 4 (i % 2 ^ 32).toNat

/-- The `int` that four bytes stand for. -/
def intOf (bs : Bytes) : ℤ := Int.bmod (valueLE bs) (2 ^ 32)

theorem intBytes_length (i : ℤ) : (intBytes i).length = 4 := length_bytesLE _ _

/-- An `int` as a scalar of the wire. -/
def intScalar (i : ℤ) : Vector UInt8 4 := ⟨(intBytes i).toArray, intBytes_length i⟩

/-- What is put on a board behind an id and a code: `maxByteSize` of it, and its bytes, push by
push; those of a value that has its size for sure are one push. -/
structure Payload where
  maxByteSize : ℕ
  pushes : List Bytes
deriving DecidableEq

def Payload.bytes (t : Payload) : Bytes := t.pushes.flatten

/-- A value with its type.  (No vector of it has 2^64 elements.) -/
def payload {α : Type} (t : WireType α) (v : α) : Payload :=
  ⟨t.maxByteSize v, (t.encode v).toList⟩

/-- `Context::payloadSize`. -/
def payloadSize (t : Payload) : ℕ :=
  ((scalar 4).maxByteSize (intScalar 0) <<< 1) + 16 + t.maxByteSize

structure RpcError where
  code : ℤ
  message : Bytes
  data : Bytes
deriving DecidableEq

def RpcError.payload (e : RpcError) : Payload :=
  Srpc.payload (member (scalar 4) (member string (member string done)))
    (intScalar e.code, e.message, e.data, ())

def methodType : WireType (Vector UInt8 4 × Bytes × Unit) := member (scalar 4) (member string done)

def Method.members (m : Method) : Vector UInt8 4 × Bytes × Unit := (intScalar m.id, m.name, ())

def Metadata.payload (c : Metadata) : Payload :=
  Srpc.payload (member string (member (vector methodType) (member (vector methodType) done)))
    (c.version, c.methods.map Method.members, c.extensions.map Method.members, ())

/-- `SUIL_RPC_VERSION`. -/
def suilRpcVersion : Bytes := ascii "0.1.0"

/-- The pushes on a new board; the text of the exception when one does not fit. -/
def pushAll : Breadboard → List Bytes → Except Bytes Breadboard
  | b, [] => .ok b
  | b, e :: es =>
    match b.forward e with
    | some b => pushAll b es
    | none => .error (ascii "Breadboard buffer out of memory, requested: " ++
        decimalText e.length ++ ascii " available: " ++ decimalText (b.M - b.T))

/-- `resp = HeapBoard(payloadSize(t)); resp << id << code << t`. -/
def respond (id code : ℤ) (t : Payload) : Except Bytes Bytes :=
  (pushAll (.new (List.replicate (payloadSize t) 0))
    (intBytes id :: intBytes code :: t.pushes)).map Breadboard.unread

/-- The same with an error, whose texts end at a zero byte. -/
def respondError (id : ℤ) (message data : Bytes) : Except Bytes Bytes :=
  respond id (-1) (RpcError.payload ⟨-1, message, data.takeWhile (· != 0)⟩)

/-- `reverse` on the bytes that are left of a request. -/
def readBytes (es : ℕ) (req : Bytes) : Except Bytes (Bytes × Bytes) :=
  match pull req es with
  | some p => .ok p
  | none => .error (ascii "Breadboard out of read buffer bytes, requested: " ++ decimalText es ++
      ascii " available: " ++ decimalText req.length)

/-- What comes of reading the parameters of a method and calling it: what it writes, the text of a
`std::exception`, or neither. -/
inductive Served where
  | result (t : Payload)
  | thrown (what : Bytes)
  | undefined

/-- It comes back, and with a result that is not estimated more than sixteen bytes too small. -/
def Served.Fits : Served → Prop
  | .result t => t.bytes.length ≤ t.maxByteSize + 16
  | .thrown _ => True
  | .undefined => False

/-- A server: its metadata and, unless it has the `operator()` of the base class, the methods
of its service. -/
structure Context where
  rpcMeta : Metadata
  service : Option (List (Bytes → Served))

/-- `Context::operator()`, also as it is generated for a service. -/
def Context.call (c : Context) (req : Bytes) (id method : ℤ) : Option (Except Bytes Bytes) :=
  match c.service with
  | none =>
    some (respondError id (ascii "MethodNotImplemented") (ascii "requested method not implemented"))
  | some ms =>
    match ms[(method - 1).toNat]? with
    | none =>
      some (respondError id (ascii "MethodNotFound") (ascii "requested method does not exist"))
    | some m =>
      match m req with
      | .result t => some (respond id 0 t)
      | .thrown what => some (.error what)
      | .undefined => none

/-- `Context::handleExtension`: the response, and the connection's `protoUseSize`. -/
def Context.handleExtension (c : Context) (useSize : UInt8) (req : Bytes) (id method : ℤ) :
    Except Bytes (Bytes × UInt8) :=
  if method = rpcMetaRequest then (respond id 0 c.rpcMeta.payload).map (·, useSize)
  else if method = rpcVersion then (respond id 0 (payload string suilRpcVersion)).map (·, useSize)
  else if method = rpcUseProto then (readBytes 1 req).map fun p => ([], p.1.headD 0)
  else (respondError id (ascii "UnsupportedExtensionMethod")
    (ascii "Extension method not found")).map (·, useSize)

/-- `Connection::processRequest`. -/
def Context.processRequest (c : Context) (useSize : UInt8) (req : Bytes) (id method : ℤ) :
    Option (Except Bytes (Bytes × UInt8)) :=
  let attempt :=
    if method ≤ 0 then some (c.handleExtension useSize req id method)
    else (c.call req id method).map fun r => r.map (·, useSize)
  attempt.map fun r => r.tryCatch fun what =>
    (respondError id (ascii "ApiError") what).map (·, useSize)

/-- `Connection::handleRequest` into a null board; an error is an exception that leaves it, and
`none` that it does not come back. -/
def Context.handleRequest (c : Context) (useSize : UInt8) (data : Bytes) :
    Option (Except Bytes (Bytes × UInt8)) :=
  let decodingError := fun id what =>
    (respondError id (ascii "DecodingError") what).map (·, useSize)
  match readBytes 4 data with
  | .error what => some (decodingError (-1) what)
  | .ok (idBytes, hb) =>
    match readBytes 4 hb with
    | .error what => some (decodingError (intOf idBytes) what)
    | .ok (method, hb) =>
      (c.processRequest useSize hb (intOf idBytes) (intOf method)).map fun r =>
        r.tryCatch (decodingError (intOf idBytes))

/-! ### What a request asks for -/

/-- The id of a request, or −1 when it has none. -/
def requestId (data : Bytes) : ℤ := if 4 ≤ data.length then intOf (data.take 4) else -1

def requestMethod (data : Bytes) : ℤ := intOf ((data.drop 4).take 4)

def parameters (data : Bytes) : Bytes := data.drop 8

/-- A method or an extension ran on parameters, with what result. -/
inductive Ran (c : Context) : ℤ → Bytes → Bytes → Prop
  | metaRequest (req : Bytes) : Ran c rpcMetaRequest req c.rpcMeta.payload.bytes
  | version (req : Bytes) : Ran c rpcVersion req (payload string suilRpcVersion).bytes
  | useProto {req : Bytes} (h : req ≠ []) : Ran c rpcUseProto req []
  | service {ms : List (Bytes → Served)} {i : ℕ} {m : Bytes → Served} {req : Bytes} {t : Payload}
    (hservice : c.service = some ms) (hm : ms[i]? = some m) (ht : m req = .result t) :
    Ran c (i + 1) req t.bytes

/-- What a request asks for ran, with a result. -/
def Succeeds (c : Context) (data result : Bytes) : Prop :=
  8 ≤ data.length ∧ Ran c (requestMethod data) (parameters data) result

/-- There is one response, and it begins with the id of the request and a code; the code is zero and
the result follows exactly when the request ran, and else it is not zero and an error follows. -/
def Answers (c : Context) (useSize : UInt8) (data : Bytes) : Prop :=
  ∃ resp useSize', c.handleRequest useSize data = some (.ok (resp, useSize')) ∧
    ((∃ result, Succeeds c data result ∧ resp = intBytes (requestId data) ++ intBytes 0 ++ result) ∨
      ((∀ result, ¬Succeeds c data result) ∧ ∃ code err, code ≠ 0 ∧ -2 ^ 31 ≤ code ∧ code < 2 ^ 31 ∧
        resp = intBytes (requestId data) ++ intBytes code ++ (RpcError.payload err).bytes))

/-- The requests that are answered so: the extension that changes the size prefix has no parameter,
and the method that is called comes back, with a result that is not estimated more than sixteen
bytes too small. -/
structure Answerable (c : Context) (data : Bytes) : Prop where
  useProto : requestMethod data = rpcUseProto → data.length ≤ 8
  service : 8 ≤ data.length → ∀ ms i m, c.service = some ms → requestMethod data = (i : ℕ) + 1 →
    ms[i]? = some m → (m (parameters data)).Fits

variable {c : Context} {useSize : UInt8} {data req result : Bytes} {id code method : ℤ}
  {t : Payload}

section Boards

theorem pushAll_of_fits {es : List Bytes} {b : Breadboard} (h : es.flatten.length ≤ b.M - b.T) :
    ∃ b', pushAll b es = .ok b' ∧ b'.unread = b.unread ++ es.flatten := by
  induction es generalizing b with
  | nil => exact ⟨b, rfl, by simp⟩
  | cons e es ih =>
    rw [List.flatten_cons, List.length_append] at h
    obtain ⟨b₁, hforward, hunread, hM, hT, -⟩ := Breadboard.forward_of_fits (b := b) (e := e)
      (by omega)
    obtain ⟨b₂, hpush, hunread₂⟩ := ih (b := b₁) (by omega)
    refine ⟨b₂, ?_, ?_⟩
    · rw [pushAll, hforward]
      exact hpush
    · rw [hunread₂, hunread, List.flatten_cons, List.append_assoc]

theorem pushAll_of_overrun {es : List Bytes} {b : Breadboard}
    (h : b.M - b.T < es.flatten.length) : ∃ what, pushAll b es = .error what := by
  induction es generalizing b with
  | nil => exact absurd h (Nat.not_lt_zero _)
  | cons e es ih =>
    rw [pushAll]
    rcases le_or_gt e.length (b.M - b.T) with hfits | hover
    · obtain ⟨b₁, hforward, -, hM, hT, -⟩ := Breadboard.forward_of_fits hfits
      rw [List.flatten_cons, List.length_append] at h
      obtain ⟨what, hwhat⟩ := ih (b := b₁) (by omega)
      rw [hforward]
      exact ⟨what, hwhat⟩
    · rw [Breadboard.forward_of_overrun hover]
      exact ⟨_, rfl⟩

theorem payloadSize_eq (t : Payload) : payloadSize t = 24 + t.maxByteSize := rfl

/-- An answer that is not estimated sixteen bytes too small is on the board. -/
theorem respond_of_fits (h : t.bytes.length ≤ t.maxByteSize + 16) :
    respond id code t = .ok (intBytes id ++ intBytes code ++ t.bytes) := by
  have hroom : (intBytes id :: intBytes code :: t.pushes).flatten.length ≤
      (Breadboard.new (List.replicate (payloadSize t) 0)).M - 0 := by
    rw [Breadboard.M, Breadboard.new, List.length_replicate, payloadSize_eq]
    simp only [List.flatten_cons, List.length_append, intBytes_length]
    change 4 + (4 + t.bytes.length) ≤ _
    omega
  obtain ⟨b, hpush, hunread⟩ := pushAll_of_fits hroom
  rw [respond, hpush, Except.map, hunread, Breadboard.unread_new, List.nil_append]
  simp only [List.flatten_cons, List.append_assoc]
  rfl

/-- Any other overruns its board. -/
theorem respond_of_overrun (id code : ℤ) (h : t.maxByteSize + 16 < t.bytes.length) :
    ∃ what, respond id code t = .error what := by
  have hroom : (Breadboard.new (List.replicate (payloadSize t) 0)).M - 0 <
      (intBytes id :: intBytes code :: t.pushes).flatten.length := by
    rw [Breadboard.M, Breadboard.new, List.length_replicate, payloadSize_eq]
    simp only [List.flatten_cons, List.length_append, intBytes_length]
    change _ < 4 + (4 + t.bytes.length)
    omega
  obtain ⟨what, hpush⟩ := pushAll_of_overrun hroom
  exact ⟨what, by rw [respond, hpush]; rfl⟩

/-- The bytes of a value with a type are as many as were estimated. -/
theorem payload_length {α : Type} (wt : WireType α) (v : α) :
    (payload wt v).bytes.length ≤ (payload wt v).maxByteSize + 16 := by
  rw [payload, Payload.bytes]
  rcases hv : wt.encode v with _ | bs
  · exact Nat.zero_le _
  · have hlen := wt.encode_length hv
    simp only [Option.toList_some, List.flatten_cons, List.flatten_nil, List.append_nil]
    omega

theorem respond_payload {α : Type} (wt : WireType α) (v : α) : respond id code (payload wt v) =
    .ok (intBytes id ++ intBytes code ++ (payload wt v).bytes) :=
  respond_of_fits (payload_length wt v)

/-- An error is always answered. -/
theorem respondError_eq (id : ℤ) (message what : Bytes) : ∃ err : RpcError,
    respondError id message what = .ok (intBytes id ++ intBytes (-1) ++ err.payload.bytes) :=
  ⟨_, respond_payload _ _⟩

end Boards

section Requests

theorem readBytes_of_le {es : ℕ} (h : es ≤ req.length) :
    readBytes es req = .ok (req.take es, req.drop es) := by
  rw [readBytes, pull, if_pos h]

theorem readBytes_of_lt (es : ℕ) (req : Bytes) (h : req.length < es) :
    ∃ what, readBytes es req = .error what := by
  rw [readBytes, pull, if_neg (not_le.mpr h)]
  exact ⟨_, rfl⟩

/-- A request that has no id or no method number. -/
theorem handleRequest_short (c : Context) (useSize : UInt8) (h : data.length < 8) :
    ∃ err : RpcError, c.handleRequest useSize data =
      some (.ok (intBytes (requestId data) ++ intBytes (-1) ++ err.payload.bytes, useSize)) := by
  rw [Context.handleRequest, requestId]
  by_cases hid : 4 ≤ data.length
  · obtain ⟨what, hwhat⟩ := readBytes_of_lt 4 (data.drop 4)
      (by rw [List.length_drop]; omega)
    obtain ⟨err, herr⟩ := respondError_eq (intOf (data.take 4)) (ascii "DecodingError") what
    rw [readBytes_of_le hid, if_pos hid]
    simp only [hwhat, herr]
    exact ⟨err, rfl⟩
  · obtain ⟨what, hwhat⟩ := readBytes_of_lt 4 data (not_le.mp hid)
    obtain ⟨err, herr⟩ := respondError_eq (-1) (ascii "DecodingError") what
    rw [if_neg hid]
    simp only [hwhat, herr]
    exact ⟨err, rfl⟩

/-- A request with an id and a method number. -/
theorem handleRequest_long (h : 8 ≤ data.length) : c.handleRequest useSize data =
    (c.processRequest useSize (parameters data) (requestId data) (requestMethod data)).map fun r =>
      r.tryCatch fun what => (respondError (requestId data) (ascii "DecodingError") what).map
        (·, useSize) := by
  have hid : 4 ≤ data.length := by omega
  have hmethod : 4 ≤ (data.drop 4).length := by
    rw [List.length_drop]
    omega
  rw [Context.handleRequest, requestId, readBytes_of_le hid, if_pos hid]
  simp only [readBytes_of_le hmethod, requestMethod, parameters, List.drop_drop]

theorem handleRequest_of_process {r : Bytes × UInt8} (h : 8 ≤ data.length)
    (hproc : c.processRequest useSize (parameters data) (requestId data) (requestMethod data) =
      some (.ok r)) : c.handleRequest useSize data = some (.ok r) := by
  rw [handleRequest_long h, hproc]
  rfl

/-- What a method or an extension threw is answered by an error. -/
theorem answered_thrown (useSize : UInt8) (id : ℤ) (what : Bytes) : ∃ err : RpcError,
    ((.error what : Except Bytes (Bytes × UInt8)).tryCatch fun what =>
      (respondError id (ascii "ApiError") what).map (·, useSize)) =
      .ok (intBytes id ++ intBytes (-1) ++ err.payload.bytes, useSize) := by
  obtain ⟨err, herr⟩ := respondError_eq id (ascii "ApiError") what
  refine ⟨err, ?_⟩
  rw [Except.tryCatch, herr]
  rfl

theorem ran_iff : Ran c method req result ↔
    (method = 0 ∧ result = c.rpcMeta.payload.bytes) ∨
    (method = -1 ∧ result = (payload string suilRpcVersion).bytes) ∨
    (method = -2 ∧ req ≠ [] ∧ result = []) ∨
    ∃ ms i m t, method = (i : ℕ) + 1 ∧ c.service = some ms ∧ ms[i]? = some m ∧
      m req = .result t ∧ result = t.bytes := by
  constructor
  · rintro (_ | _ | hne | ⟨hservice, hm, ht⟩)
    · exact .inl ⟨rfl, rfl⟩
    · exact .inr (.inl ⟨rfl, rfl⟩)
    · exact .inr (.inr (.inl ⟨rfl, hne, rfl⟩))
    · exact .inr (.inr (.inr ⟨_, _, _, _, rfl, hservice, hm, ht, rfl⟩))
  · rintro (⟨rfl, rfl⟩ | ⟨rfl, rfl⟩ | ⟨rfl, hne, rfl⟩ | ⟨ms, i, m, t, rfl, hservice, hm, ht, rfl⟩)
    · exact .metaRequest req
    · exact .version req
    · exact .useProto hne
    · exact .service hservice hm ht

/-- An answer with the result of what ran. -/
theorem answers_of_ran {u : UInt8} (h : 8 ≤ data.length)
    (hresp : c.processRequest useSize (parameters data) (requestId data) (requestMethod data) =
      some (.ok (intBytes (requestId data) ++ intBytes 0 ++ result, u)))
    (hran : Ran c (requestMethod data) (parameters data) result) : Answers c useSize data := by
  exact ⟨_, u, handleRequest_of_process h hresp, .inl ⟨result, ⟨h, hran⟩, rfl⟩⟩

/-- An answer with an error, when nothing ran. -/
theorem answers_of_error {u : UInt8} {err : RpcError}
    (hresp : c.handleRequest useSize data =
      some (.ok (intBytes (requestId data) ++ intBytes (-1) ++ err.payload.bytes, u)))
    (hran : ∀ result, ¬Succeeds c data result) : Answers c useSize data :=
  ⟨_, u, hresp, .inr ⟨hran, -1, err, by decide, by decide, by decide, rfl⟩⟩

/-- An error is no answer to a request that ran. -/
theorem not_answers_of_ran {u : UInt8} {err : RpcError}
    (hresp : c.handleRequest useSize data =
      some (.ok (intBytes (requestId data) ++ intBytes (-1) ++ err.payload.bytes, u)))
    (hran : Succeeds c data result) : ¬Answers c useSize data := by
  rintro ⟨resp, u', heq, ⟨result', -, hresult⟩ | ⟨hnot, -⟩⟩
  · -- the codes differ behind the same id
    rw [hresp] at heq
    obtain ⟨rfl, -⟩ := Prod.mk.inj (Except.ok.inj (Option.some.inj heq))
    rw [List.append_assoc, List.append_assoc] at hresult
    have hcode := (List.append_inj (List.append_cancel_left hresult) rfl).1
    exact absurd hcode (by decide)
  · exact hnot result hran

/-- A request for an extension. -/
theorem processRequest_extension (c : Context) (useSize : UInt8) (req : Bytes) (id : ℤ)
    (h : method ≤ 0) : c.processRequest useSize req id method =
    some ((c.handleExtension useSize req id method).tryCatch fun what =>
      (respondError id (ascii "ApiError") what).map (·, useSize)) := by
  rw [Context.processRequest, if_pos h]
  rfl

/-- A request for a method. -/
theorem processRequest_method (c : Context) (useSize : UInt8) (req : Bytes) (id : ℤ) {i : ℕ}
    (h : method = i + 1) :
    c.processRequest useSize req id method =
      (c.call req id method).map fun r => (r.map (·, useSize)).tryCatch fun what =>
        (respondError id (ascii "ApiError") what).map (·, useSize) := by
  rw [Context.processRequest, if_neg (by omega), Option.map_map]
  rfl

end Requests

section Answers

/-- No bytes are no answer. -/
theorem not_answers_nil {u : UInt8} (h : c.handleRequest useSize data = some (.ok ([], u))) :
    ¬Answers c useSize data := by
  have hlong : ∀ id code rest, [] ≠ intBytes id ++ intBytes code ++ rest := by
    intro id code rest hnil
    have hlength := congrArg List.length hnil
    simp only [List.length_nil, List.length_append, intBytes_length] at hlength
    omega
  rintro ⟨resp, u, hresp, hparts⟩
  rw [h] at hresp
  obtain ⟨rfl, -⟩ := Prod.mk.inj (Except.ok.inj (Option.some.inj hresp))
  rcases hparts with ⟨result, -, hnil⟩ | ⟨-, code, err, -, -, -, hnil⟩
  · exact hlong _ _ _ hnil
  · exact hlong _ _ _ hnil

theorem answers_short (h : data.length < 8) : Answers c useSize data := by
  obtain ⟨err, herr⟩ := handleRequest_short c useSize h
  exact answers_of_error herr fun result hrun => absurd hrun.1 (not_le.mpr h)

/-- A request for an extension is answered, but for that which changes the size prefix. -/
theorem answers_extension_iff (h : 8 ≤ data.length) (hmethod : requestMethod data ≤ 0) :
    Answers c useSize data ↔ (requestMethod data = rpcUseProto → data.length ≤ 8) := by
  have hproc := processRequest_extension c useSize (parameters data) (requestId data) hmethod
  have hran : ∀ result, Succeeds c data result → requestMethod data = 0 ∨
      requestMethod data = -1 ∨ requestMethod data = -2 ∧ parameters data ≠ [] := by
    rintro result ⟨-, hran⟩
    rcases ran_iff.mp hran with ⟨h0, -⟩ | ⟨h1, -⟩ | ⟨h2, hne, -⟩ | ⟨ms, i, m, t, hi, -⟩
    · exact .inl h0
    · exact .inr (.inl h1)
    · exact .inr (.inr ⟨h2, hne⟩)
    · omega
  rw [show rpcUseProto = -2 from rfl]
  rw [Context.handleExtension, show rpcMetaRequest = 0 from rfl, show rpcVersion = -1 from rfl,
    show rpcUseProto = -2 from rfl] at hproc
  by_cases h0 : requestMethod data = 0
  · rw [if_pos h0, show respond _ 0 c.rpcMeta.payload = _ from respond_payload _ _] at hproc
    refine iff_of_true (answers_of_ran h hproc (ran_iff.mpr (.inl ⟨h0, rfl⟩))) ?_
    omega
  by_cases h1 : requestMethod data = -1
  · rw [if_neg h0, if_pos h1, respond_payload] at hproc
    refine iff_of_true (answers_of_ran h hproc (ran_iff.mpr (.inr (.inl ⟨h1, rfl⟩)))) ?_
    omega
  by_cases h2 : requestMethod data = -2
  · rw [if_neg h0, if_neg h1, if_pos h2] at hproc
    by_cases hlen : data.length ≤ 8
    · -- the parameter is not there
      obtain ⟨what, hwhat⟩ := readBytes_of_lt 1 (parameters data)
        (by rw [parameters, List.length_drop]; omega)
      rw [hwhat] at hproc
      obtain ⟨err, herr⟩ := answered_thrown useSize (requestId data) what
      refine iff_of_true (answers_of_error (handleRequest_of_process h (hproc.trans
        (congrArg some herr))) fun result hrun => ?_) fun _ => hlen
      have hnil : parameters data = [] := List.drop_eq_nil_of_le hlen
      rcases hran result hrun with hr | hr | ⟨-, hne⟩
      · exact h0 hr
      · exact h1 hr
      · exact hne hnil
    · -- the parameter is read, and nothing is answered
      rw [readBytes_of_le (by rw [parameters, List.length_drop]; omega)] at hproc
      exact iff_of_false (not_answers_nil (handleRequest_of_process h hproc))
        fun hall => hlen (hall h2)
  · -- there are no other extensions
    obtain ⟨err, herr⟩ := respondError_eq (requestId data) (ascii "UnsupportedExtensionMethod")
      (ascii "Extension method not found")
    rw [if_neg h0, if_neg h1, if_neg h2, herr] at hproc
    refine iff_of_true (answers_of_error (handleRequest_of_process h hproc) fun result hrun => ?_)
      fun heq => absurd heq h2
    rcases hran result hrun with hr | hr | ⟨hr, -⟩
    · exact h0 hr
    · exact h1 hr
    · exact h2 hr

/-- A request for a method is answered when it comes back with what fits. -/
theorem answers_method_iff {i : ℕ} (h : 8 ≤ data.length) (hmethod : requestMethod data = i + 1) :
    Answers c useSize data ↔ ∀ ms m, c.service = some ms → ms[i]? = some m →
      (m (parameters data)).Fits := by
  have hproc := processRequest_method c useSize (parameters data) (requestId data) hmethod
  have hran : ∀ result, Succeeds c data result → ∃ ms m t, c.service = some ms ∧ ms[i]? = some m ∧
      m (parameters data) = .result t ∧ result = t.bytes := by
    rintro result ⟨-, hran⟩
    rcases ran_iff.mp hran with ⟨h0, -⟩ | ⟨h1, -⟩ | ⟨h2, -, -⟩ | ⟨ms, j, m, t, hj, hs, hm, ht, hb⟩
    · omega
    · omega
    · omega
    · obtain rfl : j = i := by omega
      exact ⟨ms, m, t, hs, hm, ht, hb⟩
  have hindex : (requestMethod data - 1).toNat = i := by omega
  rw [Context.call, hindex] at hproc
  rcases hservice : c.service with _ | ms
  · -- no method runs, whatever its number
    obtain ⟨err, herr⟩ := respondError_eq (requestId data) (ascii "MethodNotImplemented")
      (ascii "requested method not implemented")
    simp only [hservice, herr] at hproc
    refine iff_of_true (answers_of_error (handleRequest_of_process h hproc) fun result hrun => ?_)
      fun ms m hms => absurd hms (by simp)
    obtain ⟨ms, m, t, hs, -⟩ := hran result hrun
    simp [hservice] at hs
  rcases hm : ms[i]? with _ | m
  · obtain ⟨err, herr⟩ := respondError_eq (requestId data) (ascii "MethodNotFound")
      (ascii "requested method does not exist")
    simp only [hservice, hm, herr] at hproc
    have hresp := handleRequest_of_process h hproc
    refine iff_of_true (answers_of_error hresp fun result hrun => ?_) ?_
    · obtain ⟨ms', m, t, hs, hm', -⟩ := hran result hrun
      obtain rfl := Option.some.inj (hservice.symm.trans hs)
      simp [hm] at hm'
    · rintro ms' m hms hm'
      obtain rfl := Option.some.inj hms
      simp [hm] at hm'
  -- one method is called
  have hone : (∀ ms' m', some ms = some ms' → ms'[i]? = some m' → (m' (parameters data)).Fits) ↔
      (m (parameters data)).Fits := by
    constructor
    · exact fun hall => hall ms m rfl hm
    · rintro hall ms' m' hms hm'
      obtain rfl := Option.some.inj hms
      obtain rfl := Option.some.inj (hm.symm.trans hm')
      exact hall
  rw [hone]
  have hcalled : ∀ result, Succeeds c data result → ∃ t, m (parameters data) = .result t ∧
      result = t.bytes := by
    intro result hrun
    obtain ⟨ms', m', t, hs, hm', ht, hb⟩ := hran result hrun
    obtain rfl := Option.some.inj (hservice.symm.trans hs)
    obtain rfl := Option.some.inj (hm.symm.trans hm')
    exact ⟨t, ht, hb⟩
  rcases hserved : m (parameters data) with t | what | _
  · have hrun : Ran c (requestMethod data) (parameters data) t.bytes :=
      ran_iff.mpr (.inr (.inr (.inr ⟨ms, i, m, t, hmethod, hservice, hm, hserved, rfl⟩)))
    by_cases hfits : t.bytes.length ≤ t.maxByteSize + 16
    · simp only [hservice, hm, hserved, respond_of_fits hfits] at hproc
      exact iff_of_true (answers_of_ran h hproc hrun) hfits
    · -- the result overruns its board, and an error is answered
      obtain ⟨what, hwhat⟩ := respond_of_overrun (requestId data) 0 (not_le.mp hfits)
      simp only [hservice, hm, hserved, hwhat, Option.map_some] at hproc
      obtain ⟨err, herr⟩ := answered_thrown useSize (requestId data) what
      have hresp := handleRequest_of_process h (hproc.trans (congrArg some herr))
      exact iff_of_false (not_answers_of_ran hresp ⟨h, hrun⟩) hfits
  · simp only [hservice, hm, hserved, Option.map_some] at hproc
    obtain ⟨err, herr⟩ := answered_thrown useSize (requestId data) what
    have hresp := handleRequest_of_process h (hproc.trans (congrArg some herr))
    refine iff_of_true (answers_of_error hresp fun result hrun => ?_) trivial
    obtain ⟨t, ht, -⟩ := hcalled result hrun
    rw [hserved] at ht
    exact absurd ht nofun
  · -- it does not come back
    simp only [hservice, hm, hserved, Option.map_none] at hproc
    refine iff_of_false ?_ id
    rintro ⟨resp, u, heq, -⟩
    rw [handleRequest_long h, hproc] at heq
    exact absurd heq nofun

end Answers

/-- **Requests**: a request is answered as it should be iff it is `Answerable`. -/
theorem request_answers_iff (c : Context) (useSize : UInt8) (data : Bytes) :
    Answers c useSize data ↔ Answerable c data := by
  by_cases h : 8 ≤ data.length
  · rcases lt_or_ge 0 (requestMethod data) with hpos | hneg
    · obtain ⟨i, hi⟩ : ∃ i : ℕ, requestMethod data = i + 1 :=
        ⟨(requestMethod data - 1).toNat, by omega⟩
      rw [answers_method_iff h hi]
      constructor
      · refine fun hall => ⟨fun heq => ?_, fun _ ms j m hs hj hm => ?_⟩
        · rw [show rpcUseProto = -2 from rfl] at heq
          omega
        · obtain rfl : j = i := by omega
          exact hall ms m hs hm
      · exact fun hall ms m hs hm => hall.service h ms i m hs hi hm
    · rw [answers_extension_iff h hneg]
      exact ⟨fun hall => ⟨hall, fun _ ms i m _ hi => by omega⟩, Answerable.useProto⟩
  · refine iff_of_true (answers_short (not_le.mp h)) ⟨fun _ => ?_, fun hlong => absurd hlong h⟩
    omega

/-- A server without a service. -/
def bare : Context := ⟨⟨suilRpcVersion, [], [⟨-1, versionName⟩, ⟨-2, protoName⟩]⟩, none⟩

/-- The request that turns the size prefix on has no answer. -/
theorem not_request_answers : ¬Answers bare 0 (intBytes 5 ++ intBytes (-2) ++ [1]) := by
  have hnone : bare.handleRequest 0 (intBytes 5 ++ intBytes (-2) ++ [1]) = some (.ok ([], 1)) := by
    decide +kernel
  exact not_answers_nil hnone

section Generated

variable {α : Type} {params : Form α} {what : Breadboard → Bytes} {call : α → Served}

theorem received_read_le (req : Bytes) : 0 ≤ req.length := Nat.zero_le _

theorem received_write_le (req : Bytes) : req.length ≤ req.length := le_rfl

/-- The board of the bytes that are left of a request. -/
def received (req : Bytes) : Breadboard :=
  ⟨req, 0, req.length, received_read_le req, received_write_le req⟩

/-- A method as it is generated: its parameters are read into new objects, and it is called. -/
def generated (params : Form α) (what : Breadboard → Bytes) (call : α → Served) (req : Bytes) :
    Served :=
  match params.read params.fresh (received req) with
  | .value v _ => call v
  | .thrown b => .thrown (what b)
  | .undefined => .undefined

/-- It leaves defined behaviour for parameters that overrun a temporary only. -/
theorem generated_undefined_iff (hcall : ∀ v, call v ≠ .undefined) (req : Bytes) :
    generated params what call req = .undefined ↔ params.overruns req = true := by
  have hunread : (received req).unread = req := by
    rw [received, Breadboard.unread, List.take_length]
    rfl
  have hfollows := params.read_follows params.fresh (received req)
  rw [hunread] at hfollows
  rw [generated]
  -- reading ends as the bytes say, and the call adds nothing
  rcases hread : params.read params.fresh (received req) with ⟨v, b⟩ | ⟨b⟩ | _
  · rw [hread] at hfollows
    exact iff_of_false (hcall v) (by rw [hfollows.2.2]; exact Bool.false_ne_true)
  · rw [hread] at hfollows
    have hthrown : Served.thrown (what b) ≠ .undefined := by
      intro h
      cases h
    exact iff_of_false hthrown (by rw [hfollows.2.2]; exact Bool.false_ne_true)
  · rw [hread] at hfollows
    exact iff_of_true rfl hfollows.2

end Generated

end Srpc

end Suil
