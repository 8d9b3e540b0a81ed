/-
The trie of routes (`RoutesTrie`).

Routes are strings of literal characters and parameters such as `{int}`.  `add`
threads a route through the trie one character or parameter at a time, `find`
searches the trie for a request URL: at each node it tries the parameter
children in the order of `ParamType` and then the literal children, on one
shared parameter set that every end of the URL moves out.

* `tokens` — the characters and parameters that `add` sees in a route;
* `RoutesTrie.add`, `RoutesTrie.find` — the two operations, as the code has
  them; `find` works on the URL's remaining bytes in place of a position;
* `matchPattern` — matching one route against a URL, from left to right;
* `scan_consumed` — a parameter consumes at least one byte.
-/
import Suil.RoutingParams

namespace Suil

/-- One step of a route: a literal character or a parameter. -/
inductive Token where
  | lit (c : UInt8)
  | param (k : ParamType)
deriving DecidableEq, Repr

/-- `paramTraits`, in the order of the table. -/
def paramTraits : List (ParamType × Bytes) :=
  [(.int, ascii "{int}"), (.uint, ascii "{uint}"), (.double, ascii "{float}"),
    (.double, ascii "{double}"), (.string, ascii "{str}"), (.string, ascii "{string}"),
    (.path, ascii "{path}")]

/-- The steps `add` takes along a route; `skip` characters belong to the
parameter just read.  A brace that opens no parameter name is dropped. -/
def tokensFrom : ℕ → Bytes → List Token
  | _, [] => []
  | skip + 1, _ :: cs => tokensFrom skip cs
  | 0, c :: cs =>
    if c = 123 then
      match paramTraits.find? fun x => x.2.isPrefixOf (c :: cs) with
      | some (k, name) => .param k :: tokensFrom (name.length - 1) cs
      | none => tokensFrom 0 cs
    else .lit c :: tokensFrom 0 cs

def tokens (url : Bytes) : List Token := tokensFrom 0 url

namespace RoutesTrie

/-- `RoutesTrie::Node`; a link of 0 stands for no child. -/
structure Node where
  index : ℕ := 0
  paramChildren : ParamType → ℕ := fun _ => 0
  children : List (Bytes × ℕ) := []

/-- A node as `createNode` makes it. -/
def Node.fresh : Node := {}

/-- The child `add` finds for a step. -/
def Node.next? (n : Node) : Token → Option ℕ
  | .lit c => n.children.lookup [c]
  | .param k => if n.paramChildren k = 0 then none else some (n.paramChildren k)

/-- Link a child for a step that has none yet. -/
def Node.link (n : Node) (tok : Token) (j : ℕ) : Node :=
  match tok with
  | .lit c => { n with children := n.children ++ [([c], j)] }
  | .param k => { n with paramChildren := Function.update n.paramChildren k j }

end RoutesTrie

/-- `RoutesTrie`: the vector of nodes, the head first. -/
structure RoutesTrie where
  nodes : List RoutesTrie.Node

namespace RoutesTrie

/-- The constructor: a head without children. -/
def empty : RoutesTrie := ⟨[Node.fresh]⟩

def node (t : RoutesTrie) (i : ℕ) : Node := t.nodes.getD i Node.fresh

/-- One iteration of `add`: follow the step from node `idx`, creating the child
when there is none. -/
def addToken (s : RoutesTrie × ℕ) (tok : Token) : RoutesTrie × ℕ :=
  match (s.1.node s.2).next? tok with
  | some j => (s.1, j)
  | none =>
    let nidx := s.1.nodes.length
    (⟨(s.1.nodes ++ [Node.fresh]).set s.2 ((s.1.node s.2).link tok nidx)⟩, nidx)

/-- The exception of `add`: the rule is already registered. -/
inductive AddError where
  | alreadyRegistered (url : Bytes)
deriving DecidableEq, Repr

/-- `add`: the outcome and the trie afterwards, which keeps the nodes created
before an exception. -/
def add (t : RoutesTrie) (url : Bytes) (index : ℕ) : Except AddError Unit × RoutesTrie :=
  let (t, idx) := (tokens url).foldl addToken (t, 0)
  if (t.node idx).index ≠ 0 then (.error (.alreadyRegistered url), t)
  else (.ok (), ⟨t.nodes.set idx { t.node idx with index := index }⟩)

end RoutesTrie

section Find

variable {D : Type} (strtod : Strtod D)

/-- The guard and the conversion of one parameter type at the remaining URL:
the value and the bytes it takes up. -/
def scan (k : ParamType) (rest : Bytes) : Option (Value D × ℕ) :=
  let c := rest.headD 0
  match k with
  | .int =>
    if isDigit c ∨ c = 43 ∨ c = 45 then
      (strtoll rest).map fun x => (.int x.1, x.2)
    else none
  | .uint =>
    if isDigit c ∨ c = 43 then
      (strtoull rest).map fun x => (.uint x.1, x.2)
    else none
  | .double =>
    if isDigit c ∨ c = 43 ∨ c = 45 ∨ c = 46 then
      (strtod.conv rest).map fun x => (.double x.1, x.2)
    else none
  | .string =>
    let text := rest.takeWhile (· ≠ 47)
    if text = [] then none else some (.str text, text.length)
  | .path => if rest = [] then none else some (.str rest, rest.length)

namespace RoutesTrie

/-- A link of a node that `find` may follow. -/
inductive Edge where
  | param (k : ParamType) (child : ℕ)
  | text (fragment : Bytes) (child : ℕ)

def Edge.child : Edge → ℕ
  | .param _ child => child
  | .text _ child => child

/-- The links of a node in the order `find` tries them. -/
def Node.edges (n : Node) : List Edge :=
  ([ParamType.int, .uint, .double, .string, .path].filter (n.paramChildren · ≠ 0)).map
      (fun k => .param k (n.paramChildren k)) ++
    n.children.map fun c => .text c.1 c.2

/-- What a link takes from the remaining URL: the value, if the link has one,
and the bytes left. -/
def Edge.take (e : Edge) (rest : Bytes) : Option (Option (Value D) × Bytes) :=
  match e with
  | .param k _ => (scan strtod k rest).map fun x => (some x.1, rest.drop x.2)
  | .text f _ => if startsWith rest f then some (none, rest.drop f.length) else none

/-- `RouterParams`: the index found and the parameters. -/
abbrev RouterParams (D : Type) := ℕ × RoutingParams D

/-- `updateFound`: keep the smaller non-zero index. -/
def updateFound {β : Type} (best ret : ℕ × β) : ℕ × β :=
  if ret.1 ≠ 0 ∧ (best.1 = 0 ∨ ret.1 < best.1) then ret else best

/-- One link: push its value on the shared parameters, search the child, keep
the better result and pop the value. -/
def tryEdge (search : ℕ → Bytes → RoutingParams D → Option (RouterParams D × RoutingParams D))
    (rest : Bytes) (s : RouterParams D × RoutingParams D) (e : Edge) :
    Option (RouterParams D × RoutingParams D) :=
  match e.take strtod rest with
  | none => some s
  | some (none, rest') => do
    let (ret, params) ← search e.child rest' s.2
    some (updateFound s.1 ret, params)
  | some (some v, rest') => do
    let params ← s.2.push v
    let (ret, params) ← search e.child rest' params
    some (updateFound s.1 ret, params.pop v)

/-- `find` from a node: the result and the shared parameters afterwards.  At
the end of the URL the parameters are moved out.  `none` when a parameter
container dies growing (or the fuel is used up). -/
def findFrom (t : RoutesTrie) : ℕ → ℕ → Bytes → RoutingParams D →
    Option (RouterParams D × RoutingParams D)
  | 0, _, _, _ => none
  | _ + 1, i, [], params => some (((t.node i).index, params), .empty)
  | fuel + 1, i, rest, params =>
    (t.node i).edges.foldlM (tryEdge strtod (findFrom t fuel) rest) ((0, .empty), params)

/-- `find(reqUrl)`; a step consumes at least one byte, so the fuel suffices
(`findFrom_eq_run`). -/
def find (t : RoutesTrie) (url : Bytes) : Option (RouterParams D) :=
  (t.findFrom strtod (url.length + 1) 0 url .empty).map Prod.fst

end RoutesTrie

/-- Match a route against a URL from left to right: the parameter values in
order and the bytes left over. -/
def matchPattern : List Token → Bytes → Option (List (Value D) × Bytes)
  | [], rest => some ([], rest)
  | .lit _ :: _, [] => none
  | .lit c :: p, b :: rest => if b = c then matchPattern p rest else none
  | .param k :: p, rest => do
    let (v, n) ← scan strtod k rest
    let (vs, rest') ← matchPattern p (rest.drop n)
    some (v :: vs, rest')

/-- A parameter consumes at least one byte and no more than there are. -/
theorem scan_consumed {k : ParamType} {rest : Bytes} {v : Value D} {n : ℕ}
    (h : scan strtod k rest = some (v, n)) : 0 < n ∧ n ≤ rest.length := by
  cases k with
  | int =>
    simp only [scan, Option.ite_none_right_eq_some, Option.map_eq_some_iff, Prod.mk.injEq] at h
    obtain ⟨-, x, hx, -, rfl⟩ := h
    exact strtoll_consumed hx
  | uint =>
    simp only [scan, Option.ite_none_right_eq_some, Option.map_eq_some_iff, Prod.mk.injEq] at h
    obtain ⟨-, x, hx, -, rfl⟩ := h
    exact strtoull_consumed hx
  | double =>
    simp only [scan, Option.ite_none_right_eq_some, Option.map_eq_some_iff, Prod.mk.injEq] at h
    obtain ⟨-, x, hx, -, rfl⟩ := h
    exact strtod.consumed hx
  | string =>
    simp only [scan, Option.ite_none_left_eq_some, Option.some.injEq, Prod.mk.injEq] at h
    obtain ⟨hne, -, rfl⟩ := h
    exact ⟨List.length_pos_iff.mpr hne, (List.takeWhile_prefix _).length_le⟩
  | path =>
    simp only [scan, Option.ite_none_left_eq_some, Option.some.injEq, Prod.mk.injEq] at h
    obtain ⟨hne, -, rfl⟩ := h
    exact ⟨List.length_pos_iff.mpr hne, le_refl _⟩

end Find

example : tokens (ascii "/u/{int}") = [.lit 47, .lit 117, .lit 47, .param .int] := by decide
example : tokens (ascii "{nope}/") = [.lit 110, .lit 111, .lit 112, .lit 101, .lit 125, .lit 47] := by
  decide

end Suil
