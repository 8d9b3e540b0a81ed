/-
Calls on one RPC connection.

A call draws an id, sends its request and takes what it then finds on the stream,
one byte at least, for the response.  It looks at no id.  When it gives up, because
nothing has come in time or reading fails, its response stays on the way.

* `Waits.step` — what a call that waits will find, when nothing was left before it;
* `run_returns` — the results of a run, for any protocol;
* `run_returns_own` — for the two protocols.
-/
import Suil.JsonRpc
import Suil.Lib.Runs

open Runs

namespace Suil.RpcCalls

/-- How the two ends talk: the bytes of the response to the request with an id, and what a call
makes of the bytes that it received (`none` when it throws). -/
structure Protocol (A R : Type) where
  encode : ℤ → A → Bytes
  read : Bytes → Option R

/-- A connection: the ids that are drawn and not sent, the bytes that the server wrote and that
have not arrived, those that have arrived and are not read, and the request of the call that
waits, with the answer of the server. -/
structure Link (A : Type) where
  idGenerator : ℤ
  drawn : List ℤ
  inFlight : Bytes
  stream : Bytes
  waiting : Option (ℤ × A)
deriving DecidableEq

inductive Op (A : Type) where
  /-- `idGenerator++`. -/
  | draw
  /-- The request is sent; the server will answer it. -/
  | send (answer : A)
  /-- Sending fails; for what it has got of the request the server will write these bytes. -/
  | sendFails (resp : Bytes)
  /-- So many bytes arrive. -/
  | arrive (n : ℕ)
  /-- `receive` takes so many bytes, and the call makes a result of them. -/
  | receive (n : ℕ)
  /-- `receive` fails, in time or later, when it has taken so many bytes. -/
  | fail (n : ℕ)
deriving DecidableEq

inductive Out (R : Type) where
  | drew (id : ℤ)
  | sent (id : ℤ)
  | arrived
  | returned (result : R)
  | thrown
deriving DecidableEq

variable {A R : Type} {P : Protocol A R} {s t : Link A} {ms : List (Move (Link A) (Op A) (Out R))}

/-- The end of a call, for which bytes were taken; an exception leaves the calls around it, too. -/
def finish (s : Link A) (n : ℕ) : Option R → Out R × Link A
  | some result => (.returned result, { s with stream := s.stream.drop n, waiting := none })
  | none => (.thrown, { s with stream := s.stream.drop n, waiting := none, drawn := [] })

/-- The steps of a connection. -/
def step (P : Protocol A R) (s : Link A) : Op A → Option (Out R × Link A)
  | .draw =>
    if s.waiting.isNone then
      (Srpc.int (s.idGenerator + 1)).map fun next =>
        (.drew s.idGenerator, { s with idGenerator := next, drawn := s.idGenerator :: s.drawn })
    else none
  | .send answer =>
    match s.waiting, s.drawn with
    | none, id :: drawn =>
      some (.sent id,
        { s with
          drawn := drawn
          inFlight := s.inFlight ++ P.encode id answer
          waiting := some (id, answer) })
    | _, _ => none
  | .sendFails resp =>
    if s.waiting.isNone then
      some (.thrown,
        { s with
          drawn := []
          inFlight := s.inFlight ++ resp })
    else none
  | .arrive n =>
    if n ≤ s.inFlight.length then
      some (.arrived,
        { s with
          inFlight := s.inFlight.drop n
          stream := s.stream ++ s.inFlight.take n })
    else none
  | .receive n =>
    if s.waiting.isSome ∧ 0 < n ∧ n ≤ s.stream.length then
      some (finish s n (P.read (s.stream.take n)))
    else none
  | .fail n =>
    if s.waiting.isSome ∧ n ≤ s.stream.length then some (finish s n none) else none

/-- A connection on which nothing was sent. -/
def connected (A : Type) : Link A := ⟨0, [], [], [], none⟩

/-- A call that returns a result returns that of the response to its own request. -/
def ReturnsOwn (P : Protocol A R) (m : Move (Link A) (Op A) (Out R)) : Prop :=
  ∀ result, m.output = .returned result →
    ∃ id answer, m.before.waiting = some (id, answer) ∧ P.read (P.encode id answer) = some result

/-- A request is sent when no byte of an earlier response is unread or on its way, and a response
is taken whole. -/
def Orderly (P : Protocol A R) (s : Link A) : Op A → Prop
  | .send _ => s.inFlight = [] ∧ s.stream = []
  | .receive n => ∀ w ∈ s.waiting, n = (P.encode w.1 w.2).length
  | _ => True

instance (P : Protocol A R) (s : Link A) (op : Op A) : Decidable (Orderly P s op) :=
  match op with
  | .send _ => inferInstanceAs (Decidable (s.inFlight = [] ∧ s.stream = []))
  | .receive n =>
    inferInstanceAs (Decidable (∀ w ∈ s.waiting, n = (P.encode w.1 w.2).length))
  | .draw => inferInstanceAs (Decidable True)
  | .sendFails _ => inferInstanceAs (Decidable True)
  | .arrive _ => inferInstanceAs (Decidable True)
  | .fail _ => inferInstanceAs (Decidable True)

/-- What is unread or on its way for a call that waits is its own response. -/
def Waits (P : Protocol A R) (s : Link A) : Prop :=
  ∀ w ∈ s.waiting, s.stream ++ s.inFlight = P.encode w.1 w.2

/-- The end of a call leaves no call that waits. -/
theorem finish_waiting (s : Link A) (n : ℕ) (r : Option R) : (finish s n r).2.waiting = none := by
  rcases r with _ | r <;> rfl

theorem waits_of_none (h : t.waiting = none) : Waits P t := by
  intro w hw
  rw [h] at hw
  exact absurd hw nofun

/-- Bytes that arrive are no longer on the way. -/
theorem Waits.arrive {n : ℕ} (h : Waits P s) : Waits P
    { s with
      inFlight := s.inFlight.drop n
      stream := s.stream ++ s.inFlight.take n } := by
  intro w hw
  show s.stream ++ s.inFlight.take n ++ s.inFlight.drop n = _
  rw [List.append_assoc, List.take_append_drop]
  exact h w hw

/-- A call that takes as many bytes as its response has takes its response. -/
theorem Waits.receive {n : ℕ} {w : ℤ × A} (h : Waits P s) (hw : s.waiting = some w)
    (hn : n ≤ s.stream.length) (hlen : n = (P.encode w.1 w.2).length) :
    s.stream.take n = P.encode w.1 w.2 := by
  have hwhole := h w hw
  have hlength := congrArg List.length hwhole
  rw [List.length_append] at hlength
  have hfull : n = s.stream.length := by omega
  have hnone : s.inFlight = [] := List.length_eq_zero_iff.mp (by omega)
  rw [hnone, List.append_nil] at hwhole
  rw [hfull, List.take_length, hwhole]

/-- One step keeps this, and returns the result of that response. -/
theorem Waits.step {op : Op A} {out : Out R} (h : Waits P s) (hop : Orderly P s op)
    (hstep : step P s op = some (out, t)) :
    ReturnsOwn P ⟨s, op, out, t⟩ ∧ Waits P t := by
  cases op with
  | draw =>
    rw [RpcCalls.step] at hstep
    obtain ⟨hnone, hstep⟩ := Option.ite_none_right_eq_some.mp hstep
    obtain ⟨next, -, hnext⟩ := Option.map_eq_some_iff.mp hstep
    obtain ⟨rfl, rfl⟩ := Prod.mk.inj hnext
    exact ⟨nofun, waits_of_none (Option.isNone_iff_eq_none.mp hnone)⟩
  | send answer =>
    rw [RpcCalls.step] at hstep
    split at hstep
    · obtain ⟨rfl, rfl⟩ := Prod.mk.inj (Option.some.inj hstep)
      refine ⟨nofun, fun w hw => ?_⟩
      obtain rfl := Option.some.inj hw
      show s.stream ++ (s.inFlight ++ _) = _
      rw [hop.1, hop.2]
      rfl
    · exact absurd hstep nofun
  | sendFails resp =>
    rw [RpcCalls.step] at hstep
    obtain ⟨hnone, hstep⟩ := Option.ite_none_right_eq_some.mp hstep
    obtain ⟨rfl, rfl⟩ := Prod.mk.inj (Option.some.inj hstep)
    exact ⟨nofun, waits_of_none (Option.isNone_iff_eq_none.mp hnone)⟩
  | arrive n =>
    rw [RpcCalls.step] at hstep
    obtain ⟨-, hstep⟩ := Option.ite_none_right_eq_some.mp hstep
    obtain ⟨rfl, rfl⟩ := Prod.mk.inj (Option.some.inj hstep)
    exact ⟨nofun, h.arrive⟩
  | receive n =>
    rw [RpcCalls.step] at hstep
    obtain ⟨⟨hsome, -, hn⟩, hstep⟩ := Option.ite_none_right_eq_some.mp hstep
    obtain ⟨⟨id, answer⟩, hw⟩ := Option.isSome_iff_exists.mp hsome
    have htake := h.receive hw hn (hop _ hw)
    rw [htake, Option.some.injEq] at hstep
    have hnone := finish_waiting s n (P.read (P.encode id answer))
    rw [hstep] at hnone
    refine ⟨?_, waits_of_none hnone⟩
    -- what it returns is read from its own response
    rintro result rfl
    refine ⟨id, answer, hw, ?_⟩
    rcases hread : P.read (P.encode id answer) with _ | r
    · rw [hread] at hstep
      exact absurd (congrArg Prod.fst hstep) nofun
    · rw [hread] at hstep
      rw [Out.returned.inj (congrArg Prod.fst hstep)]
  | fail n =>
    rw [RpcCalls.step] at hstep
    obtain ⟨-, hstep⟩ := Option.ite_none_right_eq_some.mp hstep
    obtain ⟨rfl, rfl⟩ := Prod.mk.inj (Option.some.inj hstep)
    exact ⟨nofun, waits_of_none rfl⟩

/-- **The results of a run**: when every request is sent and every response taken in order, a call
returns the result of its own response. -/
theorem run_returns (h : Run (step P) (connected A) ms s)
    (hms : ∀ m ∈ ms, Orderly P m.before m.input) : ∀ m ∈ ms, ReturnsOwn P m := by
  refine (h.moves_of (G := Orderly P) (K := Waits P) (waits_of_none rfl) ?_ hms).1
  intro u op out v hwaits hop hstep
  obtain ⟨hreturns, hwaits'⟩ := hwaits.step hop hstep
  exact ⟨hwaits', hreturns⟩

/-! ### The two protocols -/

/-- `srpc::Client::doCall`: what is left on the board behind the id and a code of zero. -/
def doCall (rxb : Bytes) : Option Bytes :=
  match Srpc.readBytes 4 rxb with
  | .error _ => none
  | .ok (_, res) =>
    match Srpc.readBytes 4 res with
    | .error _ => none
    | .ok (code, res) => if Srpc.intOf code ≠ 0 then none else some res

/-- SUIL RPC: an answer is a code and the bytes behind it. -/
def srpc : Protocol (ℤ × Bytes) Bytes where
  encode id answer := Srpc.intBytes id ++ Srpc.intBytes answer.1 ++ answer.2
  read := doCall

/-- The JSON codec of responses. -/
structure Codec (N : Type) where
  encode : List (Jrpc.Response N) → Bytes
  decode : Bytes → Option (List (Jrpc.Response N))

/-- JSON RPC: an answer is a response but for its id.  A call takes the last of the results; there
is one. -/
def jrpc {N : Type} (json : Codec N) : Protocol (Jrpc.Response N) (Jrpc.Result N) where
  encode id resp := json.encode [{ resp with id := some id }]
  read rxb := ((json.decode rxb).bind Jrpc.transform).bind List.getLast?

/-- **Calls on a connection**, of either protocol: in a run of which every step is orderly, a call
returns the result of its own response only. -/
theorem run_returns_own {N : Type} (json : Codec N) :
    (∀ ms s, Run (step srpc) (connected _) ms s → (∀ m ∈ ms, Orderly srpc m.before m.input) →
      ∀ m ∈ ms, ReturnsOwn srpc m) ∧
    (∀ ms s, Run (step (jrpc json)) (connected _) ms s →
      (∀ m ∈ ms, Orderly (jrpc json) m.before m.input) → ∀ m ∈ ms, ReturnsOwn (jrpc json) m) :=
  ⟨fun _ _ h hms => run_returns h hms, fun _ _ h hms => run_returns h hms⟩

/-- Two calls, each of which takes its response; the first one is drawn around the second. -/
def inOrder {A : Type} (answers : A × A) (size : ℕ) : List (Op A) :=
  [.draw, .draw, .send answers.1, .arrive size, .receive size,
    .send answers.2, .arrive size, .receive size]

/-- The responses to the requests 0 and 1, without a result. -/
def voidCodec : Codec ℕ where
  encode resps :=
    match resps with
    | [resp] =>
      ascii "[\x7b\"jsonrpc\":\"2.0\",\"id\":" ++ integerText (resp.id.getD 0) ++ ascii "\x7d]"
    | _ => []
  decode rxb :=
    if rxb = ascii "[\x7b\"jsonrpc\":\"2.0\",\"id\":0\x7d]" then some [.new (some 0)]
    else if rxb = ascii "[\x7b\"jsonrpc\":\"2.0\",\"id\":1\x7d]" then some [.new (some 1)]
    else none

theorem run_returns_own_two :
    (∀ m ∈ moves (step srpc) (connected _) (inOrder ((0, [1]), (0, [2])) 9), ReturnsOwn srpc m) ∧
      ∀ m ∈ moves (step (jrpc voidCodec)) (connected _) (inOrder (.new none, .new none) 26),
        ReturnsOwn (jrpc voidCodec) m := by
  have hsrpc := run_final (step srpc) (connected _) (inOrder ((0, [1]), (0, [2])) 9)
  have hjrpc := run_final (step (jrpc voidCodec)) (connected _) (inOrder (.new none, .new none) 26)
  have horderly : ∀ m ∈ moves (step srpc) (connected _) (inOrder ((0, [1]), (0, [2])) 9),
      Orderly srpc m.before m.input := by
    decide +kernel
  have horderly' : ∀ m ∈ moves (step (jrpc voidCodec)) (connected _)
      (inOrder (.new none, .new none) 26), Orderly (jrpc voidCodec) m.before m.input := by
    decide +kernel
  exact ⟨(run_returns_own voidCodec).1 _ _ hsrpc horderly,
    (run_returns_own voidCodec).2 _ _ hjrpc horderly'⟩

/-- The response of a call that gave up is the result of the next one. -/
def late : List (Op (ℤ × Bytes)) :=
  [.draw, .send (0, [1]), .fail 0, .draw, .send (0, [2]), .arrive 9, .receive 9]

theorem not_run_returns_own :
    ¬ ∀ m ∈ moves (step srpc) (connected _) late, ReturnsOwn srpc m := by
  intro hall
  have hlast : ∃ m ∈ moves (step srpc) (connected _) late,
      m.output = .returned [1] ∧ m.before.waiting = some (1, (0, [2])) := by
    decide +kernel
  obtain ⟨m, hm, hout, hwaiting⟩ := hlast
  obtain ⟨id, answer, hw, hread⟩ := hall m hm [1] hout
  obtain ⟨rfl, rfl⟩ := Prod.mk.inj (Option.some.inj (hwaiting.symm.trans hw))
  have hown : srpc.read (srpc.encode 1 (0, [2])) = some [2] := by decide +kernel
  rw [hown] at hread
  exact absurd hread (by decide)

end Suil.RpcCalls
