/-
The integers of the `intkey` processor.

A transaction sets a name to a number, or adds to its number or takes from it.  The number of a name
is stored as the text of an object, at the address of the name.  Names that share an address get in
each other's way, and what stands under a name with a `0x1F` in it cannot be read again.

* `decode_stored` — what is read of what was stored;
* `serve_holds` — one transaction, against the ledger of what can be read;
* `serveAll_holds` — any number of them;
* `run_ledger` — the responses of the transaction processor are those of the ledger;
* `serveAll_plain` — the ledger is a map of names to numbers when names have addresses of their own
  and can be read, and numbers are printed exactly.
-/
import Suil.GlobalState
import Suil.JsonEncode
import Suil.JsonObjects

open Runs Scanning Suil.JsonDecode Suil.JsonEncode Suil.GlobalState
open Suil.Dispatcher (Proto)
open Suil.TransactionProcessor (Applied Op Out ProcessRequest Served Service State Status
  served_run step)

namespace Suil.IntKey

variable {N : Type}

/-- What comes from elsewhere: how numbers are printed, read and cast, and the hash; and the
namespace of the handler. -/
structure Setting (N : Type) where
  printing : Printing N
  strtod : Bytes → N
  double : UInt32 → N
  uint32 : N → UInt32
  SHA512 : Bytes → Bytes
  ns : Bytes

/-- The exceptions of a processor: `InvalidTransaction`, and all others. -/
inductive Thrown where
  | invalidTransaction
  | other
deriving DecidableEq

def Thrown.applied : Thrown → Applied
  | .invalidTransaction => .invalid
  | .other => .thrown

/-- What is done when nothing was thrown. -/
def orThrow {α : Type} (r : Except Thrown α) (next : α → Program) : Program :=
  match r with
  | .error t => .ended t.applied
  | .ok a => next a

def keyVerb : CString := ⟨ascii "Verb", by decide⟩
def keyName : CString := ⟨ascii "Name", by decide⟩
def keyValue : CString := ⟨ascii "Value", by decide⟩

section Functions

variable (e : Setting N)

/-- `json::Object::decode` of some data, with what is behind them in memory. -/
def decode (data memory : Bytes) : Except Thrown (Json N) :=
  match decodeStr e.strtod (bufferString (data ++ memory)) with
  | none => .error .other
  | some p => .ok p.1

/-- `json::encode`; `UnsupportedOperation` is not caught. -/
def encode (o : Json N) : Except Thrown Bytes :=
  match emitValue e.printing o with
  | .error _ => .error .other
  | .ok str => .ok str

/-- `obj.get(name, false)` -/
def found (obj : Json N) (name : CString) : Option (Json N) :=
  match JsonObjects.get obj name false with
  | .error _ => none
  | .ok o => o

/-- `operator bool` of what was found. -/
def given (o : Option (Json N)) : Bool := o.any fun v => !v.empty

/-- `getString`: an object that is no string is cast before it is looked at. -/
def getString (name : CString) (obj : Json N) : Except Thrown CString :=
  match found obj name with
  | some (.string s) => if s.bytes = [] then .error .invalidTransaction else .ok s
  | _ => .error .other

/-- `(std::uint32_t) value` -/
def cast (o : Option (Json N)) : Except Thrown UInt32 :=
  match o with
  | some (.number x) => .ok (e.uint32 x)
  | _ => .error .other

/-- `getNumber` -/
def getNumber (name : CString) (obj : Json N) : Except Thrown UInt32 :=
  if given (found obj name) = false then .error .invalidTransaction else cast e (found obj name)

/-- `mAe(name)` -/
def makeAddress (name : CString) : Except Thrown Bytes :=
  match encodeAddress e.SHA512 e.ns name.bytes with
  | none => .error .other
  | some addr => .ok addr

/-- The object that is stored for a name. -/
def entry (name : CString) (value : UInt32) : Json N := .object [(name, .number (e.double value))]

/-- The name, the number and the address, as each of the three functions gets them. -/
def withArguments (obj : Json N) (next : CString → UInt32 → Bytes → Program) : Program :=
  orThrow (getString keyName obj) fun name =>
  orThrow (getNumber e keyValue obj) fun value =>
  orThrow (makeAddress e name) fun addr => next name value addr

/-- `setKey` behind the address.  When something is stored there and the name is not found in it,
what is stored is written again.  The number for the message of the exception is cast first. -/
def setAt (contextId memory : Bytes) (name : CString) (value : UInt32) (addr : Bytes) : Program :=
  getState contextId addr fun state =>
  if state ≠ [] then
    orThrow (decode e state memory) fun current =>
    if given (found current name) then
      orThrow (cast e (found current name)) fun _ => .ended .invalid
    else
      orThrow (encode e current) fun str => setState contextId addr str (.ended .returned)
  else
    orThrow (encode e (entry e name value)) fun str =>
    setState contextId addr str (.ended .returned)

/-- `setKey` -/
def setKey (contextId memory : Bytes) (obj : Json N) : Program :=
  withArguments e obj (setAt e contextId memory)

/-- `decrementKey` and `incrementKey` behind the address, by what they do with the numbers. -/
def changeAt (op : UInt32 → UInt32 → UInt32) (contextId memory : Bytes) (name : CString)
    (value : UInt32) (addr : Bytes) : Program :=
  getState contextId addr fun state =>
  if state = [] then .ended .invalid
  else
    orThrow (decode e state memory) fun current =>
    if given (found current name) = false then .ended .invalid
    else
      orThrow (getNumber e name current) fun stateValue =>
      orThrow (encode e (entry e name (op stateValue value))) fun str =>
      setState contextId addr str (.ended .returned)

/-- `decrementKey` -/
def decrementKey (contextId memory : Bytes) (obj : Json N) : Program :=
  withArguments e obj (changeAt e (· - ·) contextId memory)

/-- `incrementKey` -/
def incrementKey (contextId memory : Bytes) (obj : Json N) : Program :=
  withArguments e obj (changeAt e (· + ·) contextId memory)

/-- `sHandlers` -/
def sHandlers : List (Bytes × (Bytes → Bytes → Json N → Program)) :=
  [(ascii "set", setKey e), (ascii "dec", decrementKey e), (ascii "inc", incrementKey e)]

/-- `apply`, with what is behind a copy of the state in memory. -/
def apply (contextId payload memory : Bytes) : Program :=
  orThrow (decode e payload [0]) fun obj =>
  orThrow (getString keyVerb obj) fun verb =>
  match (sHandlers e).find? fun h => strEq h.1 verb.bytes with
  | none => .ended .invalid
  | some handler => handler.2 contextId memory obj

end Functions

/-! ### The validator -/

/-- What is stored at the addresses; nothing is stored where it is empty. -/
abbrev Store := Bytes → Bytes

/-- What the validator answers a transaction whose inputs and outputs have the addresses. -/
def answer (s : Store) : GlobalState.Request → GlobalState.Response × Store
  | .get _ addresses => (⟨1, addresses.map fun a => ⟨a, s a⟩⟩, s)
  | .set _ entries => (⟨1, []⟩, entries.foldl (fun s e => Function.update s e.address e.data) s)
  | .delete _ addresses => (⟨1, []⟩, addresses.foldl (fun s a => Function.update s a []) s)

/-- A transaction, and what is behind the copies of its state in memory. -/
structure Transaction where
  contextId : Bytes
  payload : Bytes
  memory : Bytes

section Serving

variable (e : Setting N)

/-- A transaction is applied; what it set is kept when it is valid. -/
def serve (s : Store) (txn : Transaction) : Status × Store :=
  (apply e txn.contextId txn.payload txn.memory).serve answer s

end Serving

/-! ### The ledger -/

inductive Verb where
  | set
  | change (op : UInt32 → UInt32 → UInt32)

/-- What a transaction wants. -/
structure Command where
  verb : Verb
  name : CString
  value : UInt32
  addr : Bytes

/-- The name and the number in what is stored at an address, as they will be read. -/
abbrev Ledger (N : Type) := Bytes → Option (CString × Json N)

section Ledgers

variable (e : Setting N)

/-- The verbs. -/
def verbOf (verb : Bytes) : Option Verb :=
  if verb = ascii "set" then some .set
  else if verb = ascii "dec" then some (.change (· - ·))
  else if verb = ascii "inc" then some (.change (· + ·))
  else none

/-- What the object in a payload wants. -/
def commandOf (verb : Verb) (obj : Json N) : Except Thrown Command :=
  (getString keyName obj).bind fun name =>
    (getNumber e keyValue obj).bind fun value =>
      (makeAddress e name).map fun addr => ⟨verb, name, value, addr⟩

/-- What a payload wants. -/
def command (payload : Bytes) : Except Thrown Command :=
  (decode e payload [0]).bind fun obj =>
    (getString keyVerb obj).bind fun verb =>
      match verbOf verb.bytes with
      | none => .error .invalidTransaction
      | some v => commandOf e v obj

/-- A number as it will be read. -/
def reread (value : Json N) : Json N := readBack e.printing e.strtod value

/-- What becomes of a number when it is added to, or taken from. -/
def changed (op : UInt32 → UInt32 → UInt32) (value : UInt32) : Json N → Option (Json N)
  | .number x => some (.number (e.double (op (e.uint32 x) value)))
  | _ => none

/-- What a command does to the ledger.  Under a name that cannot be read nothing is done, and what
stands under another name is no number of this one. -/
def Ledger.perform (L : Ledger N) (c : Command) : Applied × Ledger N :=
  match c.verb, L c.addr with
  | .set, none => (.returned,
      Function.update L c.addr (some (c.name, reread e (.number (e.double c.value)))))
  | .change _, none => (.invalid, L)
  | verb, some (n, x) =>
    if 0x1F ∈ n.bytes then (.thrown, L)
    else
      match verb with
      | .set =>
        if n = c.name ∧ x.empty = false then (.invalid, L)
        else (.returned, Function.update L c.addr (some (n, reread e x)))
      | .change op =>
        if n ≠ c.name then (.invalid, L)
        else
          match changed e op c.value x with
          | none => (.invalid, L)
          | some y => (.returned, Function.update L c.addr (some (n, reread e y)))

/-- A transaction. -/
def Ledger.serve (L : Ledger N) (txn : Transaction) : Status × Ledger N :=
  match command e txn.payload with
  | .error t => (t.applied.status, L)
  | .ok c => ((L.perform e c).1.status, (L.perform e c).2)

/-- A number, or what a number became that could not be printed. -/
def Plain (value : Json N) : Prop := value = .null ∨ ∃ x, value = .number x

/-- What is stored is the text of a name with a number, which will be read as in the ledger. -/
def Stored (state : Bytes) : Option (CString × Json N) → Prop
  | none => state = []
  | some (n, x) => IsUtf8 n ∧ ∃ y, Plain y ∧ x = reread e y ∧
      emitValue e.printing (.object [(n, y)]) = .ok state

/-- A store has what is in a ledger. -/
def Holds (s : Store) (L : Ledger N) : Prop := ∀ a, Stored e (s a) (L a)

end Ledgers

variable {e : Setting N} {s : Store} {L : Ledger N} {name n : CString} {x y : Json N}
  {state memory t : Bytes} {c : Command}

/-! ### What is stored -/

/-- The text of an object with one member. -/
theorem emitValue_object (h : emitValue e.printing (.object [(n, y)]) = .ok state) :
    ∃ k t, emitString n = .ok k ∧ state = 123 :: (k ++ (58 :: (t ++ [125]))) := by
  rw [emitValue, emitMembers, emitMembers] at h
  cases hk : emitString n with
  | error _ =>
    rw [hk] at h
    cases h
  | ok k =>
    cases ht : emitValue e.printing y with
    | error _ =>
      rw [hk, ht] at h
      cases h
    | ok t =>
      rw [hk, ht] at h
      refine ⟨k, t, rfl, ?_⟩
      rw [← Except.ok.inj h]
      simp

/-- Strings and keys of such an object. -/
theorem allStrings_entry {P : CString → Prop} (hy : Plain y) :
    AllStrings P (.object [(n, y)] : Json N) ↔ P n := by
  constructor
  · intro h
    cases h with
    | object hkeys _ => exact hkeys (n, y) (List.mem_singleton.mpr rfl)
  · intro h
    refine .object (fun m hm => ?_) fun m hm => ?_
    · rw [List.mem_singleton.mp hm]
      exact h
    · rw [List.mem_singleton.mp hm]
      rcases hy with rfl | ⟨z, rfl⟩
      · exact .null
      · exact .number z

/-- **An object is stored**, and will be read as in the ledger. -/
theorem exists_stored (hp : e.printing.Numerals) (hn : IsUtf8 n) (hy : Plain y) :
    ∃ str, encode e (.object [(n, y)]) = .ok str ∧ str ≠ [] ∧
      Stored e str (some (n, reread e y)) := by
  have hwrites : WritesValue e.printing e.strtod (.object [(n, y)])
      (emitValue e.printing (.object [(n, y)])) := writes_emitValue hp _
  rcases hwrites with ⟨hnot, -⟩ | ⟨-, str, hstr, -⟩
  · exact absurd ((allStrings_entry hy).mpr hn) hnot
  · refine ⟨str, by rw [encode, hstr], ?_, hn, y, hy, rfl, hstr⟩
    obtain ⟨k, t, -, rfl⟩ := emitValue_object hstr
    exact List.cons_ne_nil _ _

theorem plain_reread (hy : Plain y) : Plain (reread e y) := by
  rcases hy with rfl | ⟨x, rfl⟩
  · exact .inl (by rw [reread, readBack])
  · rw [reread, readBack]
    split_ifs
    · exact .inr ⟨_, rfl⟩
    · exact .inl rfl

/-- No zero is written for a string. -/
theorem zero_free_charText {cs : List Char} (hne : ∀ c ∈ cs, c.toNat ≠ 0) :
    0 ∉ cs.flatMap (charText false) := by
  intro h0
  obtain ⟨c, hc, hmem⟩ := List.mem_flatMap.mp h0
  by_cases hsep : c.toNat = 0x1F
  · rw [(charText_separator hsep).2] at hmem
    exact absurd (List.mem_singleton.mp hmem) (by decide)
  · exact absurd ((spelled_charText (hne c hc) hsep).printable 0 hmem) (by decide)

/-- An object is not read when its first key has a `0x1F` in it. -/
theorem decodeStr_separator {strtod : Bytes → N} {cs : List Char} (hne : ∀ c ∈ cs, c.toNat ≠ 0)
    (hsep : ∃ c ∈ cs, c.toNat = 0x1F) (r : Bytes) :
    decodeStr strtod (bufferString (123 :: 34 :: (cs.flatMap (charText false) ++ r))) = none := by
  have hzero : 0 ∉ (123 :: 34 :: cs.flatMap (charText false) : Bytes) := by
    simp only [List.mem_cons, not_or]
    exact ⟨by decide, by decide, zero_free_charText hne⟩
  have hbytes : (bufferString (123 :: 34 :: (cs.flatMap (charText false) ++ r))).bytes =
      123 :: 34 :: (cs.flatMap (charText false) ++ r.takeWhile (· ≠ 0)) :=
    takeWhile_append_of_not_mem hzero r
  set u := cs.flatMap (charText false) ++ r.takeWhile (· ≠ 0) with hu
  have hskip : ∀ (c : UInt8) (w : Bytes), isBlank c = false → skipSpace (c :: w) = c :: w :=
    fun c w hc => skipSpace_cons (b := []) (List.forall_mem_nil _) hc w
  have hitems : ∀ n m, items isBlank 44 125 (parseMember (parseValue strtod n)) (m + 1)
      (34 :: u) = none := by
    intro n m
    rw [items, parseMember, hu, parseString_separator hne hsep, Option.bind_none, Option.bind_none]
  have hparse : ∀ n, parseItems 125 (parseMember (parseValue strtod n)) (34 :: u) = none := by
    intro n
    rw [parseItems, hskip 34 u (by decide), List.head?_cons, if_neg (by decide), hitems]
  rw [decodeStr, hbytes, hskip 123 _ (by decide), parseValue_cons, if_neg (by decide),
    if_neg (by decide), if_neg (by decide), if_neg (by decide), if_neg (by decide), if_pos rfl,
    hparse]
  rfl

/-- **What is read** of what was stored: the name and the number, or nothing. -/
theorem decode_stored (hlocal : StopsBehind e.strtod) (hp : e.printing.Numerals)
    (h : Stored e state (some (n, x))) (memory : Bytes) :
    (0x1F ∉ n.bytes → decode e state memory = .ok (.object [(n, x)])) ∧
      (0x1F ∈ n.bytes → decode e state memory = .error .other) := by
  obtain ⟨hn, y, hy, rfl, hstate⟩ := h
  constructor
  · intro hclean
    have hwrites : WritesValue e.printing e.strtod (.object [(n, y)])
        (emitValue e.printing (.object [(n, y)])) := writes_emitValue hp _
    rcases hwrites with ⟨-, hraised⟩ | ⟨-, str, hstr, hright, -⟩
    · rw [hstate] at hraised
      cases hraised
    rw [hstate] at hstr
    obtain rfl := Except.ok.inj hstr
    have hdenotes := hright ((allStrings_entry hy).mpr hclean)
    have hobject : readBack e.printing e.strtod (.object [(n, y)]) =
        .object [(n, reread e y)] := by
      rw [readBack, readBackMembers, readBackMembers]
      rfl
    rw [hobject] at hdenotes
    obtain ⟨b, hb, hrest⟩ := exists_blank isBlank (memory.takeWhile (· ≠ 0))
    have hbytes : (bufferString (state ++ memory)).bytes = state ++ memory.takeWhile (· ≠ 0) :=
      takeWhile_append_of_not_mem hdenotes.zero_free memory
    have hread : decodeStr e.strtod (bufferString (state ++ memory)) =
        some (.object [(n, reread e y)], ([] ++ (state ++ b)).length) :=
      (decodeStr_iff hlocal).mpr ⟨[], state, b, skipSpace (memory.takeWhile (· ≠ 0)),
        List.forall_mem_nil _, .other (fun _ h => by cases h) hdenotes, hb, noBlank_skipSpace _,
        by rw [hbytes, skipSpace, ← hrest]; rfl, rfl⟩
    rw [decode, hread]
  · intro hsep
    obtain ⟨k, t, hk, rfl⟩ := emitValue_object hstate
    rcases @emitStringWith_eq false n with ⟨hnot, -⟩ | ⟨cs, hcs, hne, heq⟩
    · exact absurd hn hnot
    obtain rfl := Except.ok.inj (hk.symm.trans heq)
    have hfail := @decodeStr_separator _ e.strtod cs hne (mem_encode_separator.mp (hcs ▸ hsep))
      (34 :: 58 :: (t ++ 125 :: memory))
    rw [decode]
    have heq : 123 :: (34 :: (cs.flatMap (charText false) ++ [34]) ++ 58 :: (t ++ [125])) ++ memory
        = 123 :: 34 :: (cs.flatMap (charText false) ++ 34 :: 58 :: (t ++ 125 :: memory)) := by simp
    rw [heq, hfail]

/-! ### One transaction -/

section Run

variable {α : Type} {contextId addr value : Bytes}

theorem run_orThrow (r : Except Thrown α) (next : α → Program) :
    (orThrow r next).run answer s =
      match r with
      | .error t => (t.applied, s)
      | .ok a => (next a).run answer s := by
  cases r <;> rfl

theorem run_getState (next : Bytes → Program) :
    (getState contextId addr next).run answer s = (next (s addr)).run answer s := rfl

theorem run_setState (next : Program) : (setState contextId addr value next).run answer s =
    next.run answer (Function.update s addr value) := rfl

end Run

theorem applied_ne_returned (t : Thrown) : t.applied ≠ .returned := by
  cases t <;> exact fun h => by cases h

theorem found_object (n : CString) (x : Json N) (name : CString) :
    found (.object [(n, x)]) name = if n = name then some x else none := by
  rw [found, JsonObjects.get_object, List.lookup_cons]
  split_ifs with h
  · rw [h, beq_self_eq_true]
  · rw [beq_eq_false_iff_ne.mpr (Ne.symm h)]
    rfl

/-- What is found in the object of a name. -/
theorem given_found (n : CString) (x : Json N) (name : CString) :
    given (found (.object [(n, x)]) name) = true ↔ n = name ∧ x.empty = false := by
  rw [found_object]
  split_ifs with h
  · simp [given, h]
  · simp [given, h]

theorem Holds.update (h : Holds e s L) {a str : Bytes} {o : Option (CString × Json N)}
    (hstr : Stored e str o) : Holds e (Function.update s a str) (Function.update L a o) := by
  intro b
  by_cases hb : b = a
  · rw [hb, Function.update_self, Function.update_self]
    exact hstr
  · rw [Function.update_of_ne hb, Function.update_of_ne hb]
    exact h b

/-- A run that ends like a step of the ledger. -/
def Follows (e : Setting N) (L : Ledger N) (r : Applied × Store) (l : Applied × Ledger N) : Prop :=
  r.1 = l.1 ∧ if r.1 = .returned then Holds e r.2 l.2 else l.2 = L

theorem follows_ended {how : Applied} (hhow : how ≠ .returned) : Follows e L (how, s) (how, L) :=
  ⟨rfl, by rw [if_neg hhow]⟩

/-- **What is written** at an address is in the ledger. -/
theorem follows_write (hp : e.printing.Numerals) (h : Holds e s L) (hn : IsUtf8 n) (hy : Plain y)
    (contextId addr : Bytes) :
    Follows e L ((orThrow (encode e (.object [(n, y)])) fun str =>
        setState contextId addr str (.ended .returned)).run answer s)
      (.returned, Function.update L addr (some (n, reread e y))) := by
  obtain ⟨str, hstr, -, hstored⟩ := exists_stored hp hn hy
  rw [hstr]
  show Follows e L (.returned, Function.update s addr str) _
  exact ⟨rfl, by rw [if_pos rfl]; exact h.update hstored⟩

theorem Stored.ne_nil (h : Stored e state (some (n, x))) : state ≠ [] := by
  obtain ⟨-, y, -, -, hstate⟩ := h
  obtain ⟨k, t, -, rfl⟩ := emitValue_object hstate
  exact List.cons_ne_nil _ _

theorem Stored.plain (h : Stored e state (some (n, x))) : Plain x := by
  obtain ⟨-, y, hy, rfl, -⟩ := h
  exact plain_reread hy

/-- **A number is set.** -/
theorem setAt_follows (hlocal : StopsBehind e.strtod) (hp : e.printing.Numerals)
    (h : Holds e s L) (hname : IsUtf8 name) (value : UInt32) (addr contextId memory : Bytes) :
    Follows e L ((setAt e contextId memory name value addr).run answer s)
      (L.perform e ⟨.set, name, value, addr⟩) := by
  rw [setAt, run_getState, Ledger.perform]
  have hstored := h addr
  dsimp only
  cases hL : L addr with
  | none =>
    rw [hL] at hstored
    rw [show s addr = [] from hstored, if_neg (not_not.mpr rfl)]
    exact follows_write hp h hname (.inr ⟨_, rfl⟩) contextId addr
  | some m =>
    obtain ⟨n, x⟩ := m
    rw [hL] at hstored
    obtain ⟨hclean, hsep⟩ := decode_stored hlocal hp hstored memory
    rw [if_pos hstored.ne_nil]
    dsimp only
    split_ifs with hn hsame
    · rw [hsep hn]
      exact follows_ended (by decide)
    · rw [hclean hn, run_orThrow]
      dsimp only
      rw [if_pos ((given_found n x name).mpr hsame)]
      obtain ⟨rfl, hx⟩ := hsame
      rcases hstored.plain with rfl | ⟨z, rfl⟩
      · cases hx
      · rw [found_object, if_pos rfl]
        exact follows_ended (by decide)
    · rw [hclean hn, run_orThrow]
      dsimp only
      rw [if_neg fun hgiven => hsame ((given_found n x name).mp hgiven)]
      exact follows_write hp h hstored.1 hstored.plain contextId addr

/-- **A number is changed.** -/
theorem changeAt_follows (hlocal : StopsBehind e.strtod) (hp : e.printing.Numerals)
    (h : Holds e s L) (op : UInt32 → UInt32 → UInt32) (value : UInt32)
    (addr contextId memory : Bytes) :
    Follows e L ((changeAt e op contextId memory name value addr).run answer s)
      (L.perform e ⟨.change op, name, value, addr⟩) := by
  rw [changeAt, run_getState, Ledger.perform]
  have hstored := h addr
  dsimp only
  cases hL : L addr with
  | none =>
    rw [hL] at hstored
    rw [show s addr = [] from hstored, if_pos rfl]
    exact follows_ended (by decide)
  | some m =>
    obtain ⟨n, x⟩ := m
    rw [hL] at hstored
    obtain ⟨hclean, hsep⟩ := decode_stored hlocal hp hstored memory
    rw [if_neg hstored.ne_nil]
    dsimp only
    by_cases hn : 0x1F ∈ n.bytes
    · rw [hsep hn, if_pos hn]
      exact follows_ended (by decide)
    rw [hclean hn, if_neg hn, run_orThrow]
    dsimp only
    have hgiven := given_found n x name
    by_cases hname : n = name
    · subst hname
      rw [if_neg (not_not.mpr rfl)]
      rcases hstored.plain with rfl | ⟨z, rfl⟩
      · rw [if_pos (Bool.eq_false_iff.mpr fun hg => by cases (hgiven.mp hg).2)]
        exact follows_ended (by decide)
      · have htrue := hgiven.mpr ⟨rfl, rfl⟩
        have hnumber : getNumber e n (.object [(n, .number z)]) = .ok (e.uint32 z) := by
          rw [getNumber, htrue, if_neg (by decide), found_object, if_pos rfl, cast]
        rw [htrue, if_neg (by decide), hnumber]
        exact follows_write hp h hstored.1 (.inr ⟨_, rfl⟩) contextId addr
    · rw [if_pos (Bool.eq_false_iff.mpr fun hg => hname (hgiven.mp hg).1), if_pos hname]
      exact follows_ended (by decide)

/-- The run of a command. -/
def body (e : Setting N) (contextId memory : Bytes) (c : Command) : Program :=
  match c.verb with
  | .set => setAt e contextId memory c.name c.value c.addr
  | .change op => changeAt e op contextId memory c.name c.value c.addr

/-- **One of the functions** is a command, or ends with an exception. -/
theorem run_withArguments (contextId memory : Bytes) (v : Verb) (obj : Json N) :
    (withArguments e obj fun name value addr =>
        body e contextId memory ⟨v, name, value, addr⟩).run answer s =
      match commandOf e v obj with
      | .error t => (t.applied, s)
      | .ok c => (body e contextId memory c).run answer s := by
  rw [withArguments, commandOf]
  cases getString keyName obj with
  | error t => rfl
  | ok name =>
    cases getNumber e keyValue obj with
    | error t => rfl
    | ok value =>
      rw [orThrow, orThrow]
      simp only [Except.bind]
      cases makeAddress e name <;> rfl

/-- The function for a verb. -/
theorem find_handler (verb : Bytes) : (sHandlers e).find? (fun h => strEq h.1 verb) =
    if verb = ascii "set" then some (ascii "set", setKey e)
    else if verb = ascii "dec" then some (ascii "dec", decrementKey e)
    else if verb = ascii "inc" then some (ascii "inc", incrementKey e)
    else none := by
  have hverb : ∀ name : Bytes, 0 ∉ name → name ≠ [] →
      strEq name verb = decide (verb = name) := by
    intro name hzero hne
    rw [Bool.eq_iff_iff, strEq_eq_true_iff hzero hne, decide_eq_true_eq]
  simp only [sHandlers, List.find?_cons, List.find?_nil,
    hverb (ascii "set") (by decide) (by decide), hverb (ascii "dec") (by decide) (by decide),
    hverb (ascii "inc") (by decide) (by decide)]
  by_cases hset : verb = ascii "set"
  · rw [decide_eq_true hset, if_pos hset]
  rw [decide_eq_false hset, if_neg hset]
  by_cases hdec : verb = ascii "dec"
  · rw [decide_eq_true hdec, if_pos hdec]
  rw [decide_eq_false hdec, if_neg hdec]
  by_cases hinc : verb = ascii "inc"
  · rw [decide_eq_true hinc, if_pos hinc]
  · rw [decide_eq_false hinc, if_neg hinc]

/-- **A transaction is its command**, or ends with an exception. -/
theorem run_apply (contextId payload memory : Bytes) :
    (apply e contextId payload memory).run answer s =
      match command e payload with
      | .error t => (t.applied, s)
      | .ok c => (body e contextId memory c).run answer s := by
  rw [apply, command]
  cases decode e payload [0] with
  | error t => rfl
  | ok obj =>
    rw [orThrow]
    simp only [Except.bind]
    cases getString keyVerb obj with
    | error t => rfl
    | ok verb =>
      rw [orThrow]
      dsimp only
      rw [find_handler, verbOf]
      split_ifs
      · exact run_withArguments contextId memory .set obj
      · exact run_withArguments contextId memory (.change (· - ·)) obj
      · exact run_withArguments contextId memory (.change (· + ·)) obj
      · rfl

/-- The strings of what was decoded are UTF-8. -/
theorem isUtf8_getString (hlocal : StopsBehind e.strtod) {data : Bytes} {obj : Json N}
    {key str : CString} (hobj : decode e data memory = .ok obj)
    (hstr : getString key obj = .ok str) : IsUtf8 str := by
  have hfound : found obj key = some (.string str) := by
    rw [getString] at hstr
    split at hstr
    · rename_i str' hfound
      split_ifs at hstr
      rw [hfound, Except.ok.inj hstr]
    · cases hstr
  rw [decode] at hobj
  split at hobj
  · cases hobj
  rename_i q hq
  obtain ⟨v, k⟩ := q
  obtain rfl := Except.ok.inj hobj
  obtain ⟨b, w, b', t, -, hread, -⟩ := (decodeStr_iff hlocal).mp hq
  cases hread with
  | number _ _ => cases hfound
  | other _ hw =>
    cases v with
    | object ms =>
      rw [found, JsonObjects.get_object, ← JsonObjects.member_eq_lookup] at hfound
      obtain ⟨m, hm, hval⟩ := Option.map_eq_some_iff.mp hfound
      cases isUtf8_of_denotes hw with
      | object _ h =>
        have hall := h m (List.mem_of_find?_eq_some hm)
        rw [hval] at hall
        cases hall
        assumption
    | _ => cases hfound

/-- A call behind another one, when both have returned. -/
theorem exists_of_bind {α β : Type} {r : Except Thrown α} {f : α → Except Thrown β} {b : β}
    (h : r.bind f = .ok b) : ∃ a, r = .ok a ∧ f a = .ok b := by
  cases r with
  | error t => cases h
  | ok a => exact ⟨a, rfl, h⟩

/-- The name and the address of a command. -/
theorem command_spec {payload : Bytes} (h : command e payload = .ok c) :
    (∃ obj, decode e payload [0] = .ok obj ∧ getString keyName obj = .ok c.name) ∧
      makeAddress e c.name = .ok c.addr := by
  obtain ⟨obj, hobj, h⟩ := exists_of_bind h
  obtain ⟨verb, -, h⟩ := exists_of_bind h
  split at h
  · cases h
  obtain ⟨name, hname, h⟩ := exists_of_bind h
  obtain ⟨value, -, h⟩ := exists_of_bind h
  cases haddr : makeAddress e name with
  | error t =>
    rw [haddr] at h
    cases h
  | ok addr =>
    rw [haddr] at h
    rw [← Except.ok.inj h]
    exact ⟨⟨obj, hobj, hname⟩, haddr⟩

theorem body_follows (hlocal : StopsBehind e.strtod) (hp : e.printing.Numerals) (h : Holds e s L)
    (hname : IsUtf8 c.name) (contextId memory : Bytes) :
    Follows e L ((body e contextId memory c).run answer s) (L.perform e c) := by
  obtain ⟨verb, name, value, addr⟩ := c
  cases verb with
  | set => exact setAt_follows hlocal hp h hname value addr contextId memory
  | change op => exact changeAt_follows hlocal hp h op value addr contextId memory

/-- **A transaction**: it is answered as the ledger says, and what is stored is in the ledger. -/
theorem serve_holds (hlocal : StopsBehind e.strtod) (hp : e.printing.Numerals) (h : Holds e s L)
    (txn : Transaction) :
    (serve e s txn).1 = (L.serve e txn).1 ∧ Holds e (serve e s txn).2 (L.serve e txn).2 := by
  rw [serve, Program.serve, Ledger.serve, run_apply]
  cases hc : command e txn.payload with
  | error t =>
    refine ⟨rfl, ?_⟩
    dsimp only
    rw [if_neg (applied_ne_returned t)]
    exact h
  | ok c =>
    obtain ⟨⟨obj, hobj, hname⟩, -⟩ := command_spec hc
    obtain ⟨hhow, hstate⟩ := body_follows hlocal hp h (isUtf8_getString hlocal hobj hname)
      txn.contextId txn.memory
    dsimp only
    rw [hhow] at hstate ⊢
    refine ⟨rfl, ?_⟩
    split_ifs at hstate ⊢ with hreturned
    · exact hstate
    · rw [hstate]
      exact h

/-- **Any number of transactions** are answered as the ledger says, whatever their payloads are and
whatever is behind the data in memory, and in the end what is stored is in the ledger. -/
theorem serveAll_holds (hlocal : StopsBehind e.strtod) (hp : e.printing.Numerals)
    (h : Holds e s L) (txns : List Transaction) :
    (inTurn (serve e) s txns).1 = (inTurn (Ledger.serve e) L txns).1 ∧
      Holds e (inTurn (serve e) s txns).2 (inTurn (Ledger.serve e) L txns).2 :=
  inTurn_simulates (fun txn _ _ _ h => serve_holds hlocal hp h txn) h

/-! ### The transaction processor -/

section Processor

variable (e) (family : Bytes) (memory : ProcessRequest → Bytes) (parse : Bytes → Proto)
  (parseRequest : Bytes → ProcessRequest) (codec : Codec)

/-- `IntKeyHandler`, with what is behind the copies of the state when a request is served. -/
def handler : Handler where
  family := family
  program req := some (apply e req.context_id req.payload (memory req))

/-- The transaction of a request that is for the handler. -/
def transaction (v : Service) : Option Transaction :=
  let req := parseRequest v.request.content
  req.header.bind fun txnHeader =>
    if strEq family txnHeader.family_name then some ⟨req.context_id, req.payload, memory req⟩
    else none

/-- The requests that are for the handler. -/
def own (services : List Service) : List Service :=
  services.filter fun v => (transaction family memory parseRequest v).isSome

/-- Their transactions. -/
def transactions (services : List Service) : List Transaction :=
  services.filterMap (transaction family memory parseRequest)

variable {e family memory parse parseRequest codec} {services : List Service}

/-- The program for a request. -/
theorem programFor_handler {req : ProcessRequest} {p : Program}
    (h : programFor [handler e family memory] req = some p) :
    (∃ txnHeader, req.header = some txnHeader ∧ strEq family txnHeader.family_name = true ∧
      p = apply e req.context_id req.payload (memory req)) ∨
    ∃ txnHeader, req.header = some txnHeader ∧ strEq family txnHeader.family_name = false ∧
      p = .ended .invalid := by
  obtain ⟨txnHeader, hheader, hp⟩ := Option.map_eq_some_iff.mp h
  rw [List.find?_cons, List.find?_nil] at hp
  cases hname : strEq family txnHeader.family_name with
  | true =>
    have hfind : strEq (handler e family memory).family txnHeader.family_name = true := hname
    rw [hfind] at hp
    exact .inl ⟨txnHeader, hheader, hname, hp.symm⟩
  | false =>
    have hfind : strEq (handler e family memory).family txnHeader.family_name = false := hname
    rw [hfind] at hp
    exact .inr ⟨txnHeader, hheader, hname, hp.symm⟩

/-- The programs for the requests serve the transactions among them; the others are invalid. -/
theorem inTurn_programs {t : Store} (hheader : ∀ v ∈ services,
      ∃ p, programFor [handler e family memory] (parseRequest v.request.content) = some p)
    (h : (services.map Service.status, t) =
      inTurn (Program.serve answer) s (programs parseRequest [handler e family memory] services)) :
    ((own family memory parseRequest services).map Service.status, t) =
        inTurn (serve e) s (transactions family memory parseRequest services) ∧
      ∀ v ∈ services, transaction family memory parseRequest v = none →
        v.status = .invalidTransaction := by
  induction services generalizing s with
  | nil => exact ⟨h, List.forall_mem_nil _⟩
  | cons v services ih =>
    obtain ⟨p, hp⟩ := hheader v (List.mem_cons_self ..)
    have hprograms : programs parseRequest [handler e family memory] (v :: services) =
        p :: programs parseRequest [handler e family memory] services :=
      List.filterMap_cons_some hp
    rw [hprograms, inTurn] at h
    obtain ⟨hstatuses, hlast⟩ := Prod.mk.inj h
    obtain ⟨hstatus, hstatuses⟩ := List.cons.inj hstatuses
    obtain ⟨hown, hothers⟩ := ih (fun w hw => hheader w (List.mem_cons_of_mem _ hw))
      (Prod.ext hstatuses hlast)
    rcases programFor_handler hp with ⟨txnHeader, heq, hname, rfl⟩ | ⟨txnHeader, heq, hname, rfl⟩
    · have htxn : transaction family memory parseRequest v =
          some ⟨(parseRequest v.request.content).context_id,
            (parseRequest v.request.content).payload, memory (parseRequest v.request.content)⟩ := by
        rw [transaction, heq]
        exact if_pos hname
      refine ⟨?_, fun w hw hnone => ?_⟩
      · have hcons : own family memory parseRequest (v :: services) =
            v :: own family memory parseRequest services :=
          List.filter_cons_of_pos (by rw [htxn]; rfl)
        rw [transactions, List.filterMap_cons_some htxn, inTurn, hcons, List.map_cons, hstatus]
        rw [Prod.mk.injEq] at hown ⊢
        exact ⟨congrArg (_ :: ·) hown.1, hown.2⟩
      · rcases List.mem_cons.mp hw with rfl | hw
        · rw [htxn] at hnone
          cases hnone
        · exact hothers w hw hnone
    · have htxn : transaction family memory parseRequest v = none := by
        rw [transaction, heq]
        exact if_neg (Bool.eq_false_iff.mp hname)
      refine ⟨?_, fun w hw hnone => ?_⟩
      · have hcons : own family memory parseRequest (v :: services) =
            own family memory parseRequest services :=
          List.filter_cons_of_neg (by rw [htxn]; decide)
        rw [transactions, List.filterMap_cons_none htxn, hcons]
        exact hown
      · rcases List.mem_cons.mp hw with rfl | hw
        · exact hstatus
        · exact hothers w hw hnone

/-- Requests are served, each once, and when they were answered from the stored text of a ledger,
they have the responses that the ledger gives, one after the other, and what is stored in the end is
the text of the ledger. -/
def FollowsLedger (e : Setting N) (family : Bytes) (memory : ProcessRequest → Bytes)
    (parse : Bytes → Proto) (parseRequest : Bytes → ProcessRequest) (codec : Codec)
    (ms : List (Move State Op Out)) (u : State) : Prop :=
  ∃ services, Served (setup parse parseRequest codec [handler e family memory]) ms u services ∧
    ∀ s L t, Holds e s L →
      Consults parseRequest codec [handler e family memory] answer s services t →
      (own family memory parseRequest services).map Service.status =
          (inTurn (Ledger.serve e) L (transactions family memory parseRequest services)).1 ∧
        Holds e t (inTurn (Ledger.serve e) L (transactions family memory parseRequest services)).2 ∧
        ∀ v ∈ services, transaction family memory parseRequest v = none →
          v.status = .invalidTransaction

/-- **The transaction processor of `intkey` follows the ledger**, whatever the validator sends and
however the coroutines take turns. -/
theorem run_ledger (hlocal : StopsBehind e.strtod) (hp : e.printing.Numerals)
    {ms : List (Move State Op Out)} {u : State}
    (h : Run (step (setup parse parseRequest codec [handler e family memory])) {} ms u) :
    FollowsLedger e family memory parse parseRequest codec ms u := by
  obtain ⟨services, hserved⟩ := served_run h
  refine ⟨services, hserved, fun s L t hL hconsults => ?_⟩
  have hheader : ∀ v ∈ services,
      ∃ p, programFor [handler e family memory] (parseRequest v.request.content) = some p := by
    intro v hv
    obtain ⟨⟨q, how, hq, -⟩, -⟩ := hserved.right v hv
    rw [processor_setup] at hq
    obtain ⟨p, hp, -⟩ := Option.map_eq_some_iff.mp hq
    exact ⟨p, hp⟩
  obtain ⟨hown, hothers⟩ := inTurn_programs hheader (served_consults hserved.right hconsults)
  obtain ⟨hstatuses, hholds⟩ :=
    serveAll_holds hlocal hp hL (transactions family memory parseRequest services)
  rw [← hown] at hstatuses hholds
  exact ⟨hstatuses, hholds, hothers⟩

end Processor

/-! ### Names with numbers -/

/-- The numbers of the names. -/
abbrev Balance := CString → Option UInt32

/-- What a command should do: a name is set once, and changed when it was set. -/
def Balance.perform (B : Balance) (c : Command) : Applied × Balance :=
  match c.verb, B c.name with
  | .set, none => (.returned, Function.update B c.name (some c.value))
  | .set, some _ => (.invalid, B)
  | .change _, none => (.invalid, B)
  | .change op, some value => (.returned, Function.update B c.name (some (op value c.value)))

def Balance.serve (e : Setting N) (B : Balance) (txn : Transaction) : Status × Balance :=
  match command e txn.payload with
  | .error t => (t.applied.status, B)
  | .ok c => ((B.perform c).1.status, (B.perform c).2)

/-- Numbers are printed and read as they are, and casting to a `double` and back changes nothing. -/
structure Exact (e : Setting N) : Prop where
  reread : ∀ u, reread e (.number (e.double u)) = .number (e.double u)
  cast : ∀ u, e.uint32 (e.double u) = u

/-- These names can be read, and have addresses of their own. -/
structure Apart (e : Setting N) (names : Set CString) : Prop where
  readable : ∀ n ∈ names, 0x1F ∉ n.bytes
  distinct : ∀ n ∈ names, ∀ n' ∈ names, ∀ a, makeAddress e n = .ok a → makeAddress e n' = .ok a →
    n = n'

/-- All names in the transactions are among these. -/
def NamedIn (e : Setting N) (names : Set CString) (txns : List Transaction) : Prop :=
  ∀ txn ∈ txns, ∀ c, command e txn.payload = .ok c → c.name ∈ names

/-- The ledger has the numbers of the names, at their addresses. -/
structure Represents (e : Setting N) (names : Set CString) (L : Ledger N) (B : Balance) : Prop where
  named : ∀ n v, B n = some v → n ∈ names
  entries : ∀ a n x, L a = some (n, x) ↔
    ∃ v, B n = some v ∧ makeAddress e n = .ok a ∧ x = .number (e.double v)

variable {names : Set CString} {B : Balance}

/-- What is at the address of a name is its number. -/
theorem Represents.at_address (h : Represents e names L B) (hapart : Apart e names)
    (hn : n ∈ names) {a : Bytes} (ha : makeAddress e n = .ok a) :
    L a = (B n).map fun v => (n, .number (e.double v)) := by
  cases hB : B n with
  | some v => exact (h.entries a n _).mpr ⟨v, hB, ha, rfl⟩
  | none =>
    cases hL : L a with
    | none => rfl
    | some m =>
      obtain ⟨v, hv, ha', -⟩ := (h.entries a m.1 m.2).mp hL
      rw [hapart.distinct n hn m.1 (h.named m.1 v hv) a ha ha', hv] at hB
      cases hB

/-- A number is written at the address of its name. -/
theorem Represents.update (h : Represents e names L B) (hapart : Apart e names) (hn : n ∈ names)
    {a : Bytes} (ha : makeAddress e n = .ok a) (v : UInt32) :
    Represents e names (Function.update L a (some (n, .number (e.double v))))
      (Function.update B n (some v)) := by
  constructor
  · intro n' v' hv'
    by_cases hn' : n' = n
    · rw [hn']
      exact hn
    · rw [Function.update_of_ne hn'] at hv'
      exact h.named n' v' hv'
  · intro a' n' x
    by_cases hn' : n' = n
    · subst hn'
      rw [Function.update_self]
      by_cases ha' : a' = a
      · rw [ha', Function.update_self]
        constructor
        · intro heq
          obtain ⟨-, rfl⟩ := Prod.mk.inj (Option.some.inj heq)
          exact ⟨v, rfl, ha, rfl⟩
        · rintro ⟨v', hv', -, rfl⟩
          rw [Option.some.inj hv']
      · rw [Function.update_of_ne ha', h.entries]
        -- the name has one address
        constructor <;>
        · rintro ⟨v', -, hother, -⟩
          exact absurd (Except.ok.inj (hother.symm.trans ha)) ha'
    · rw [Function.update_of_ne hn', ← h.entries]
      by_cases ha' : a' = a
      · rw [ha', Function.update_self]
        constructor
        · intro heq
          exact absurd (Prod.mk.inj (Option.some.inj heq)).1.symm hn'
        · intro heq
          obtain ⟨v', hv', hother, -⟩ := (h.entries a n' x).mp heq
          exact absurd (hapart.distinct n' (h.named n' v' hv') n hn a hother ha) hn'
      · rw [Function.update_of_ne ha']

/-- **A command** does to the ledger what it should. -/
theorem perform_represents (hexact : Exact e) (hapart : Apart e names)
    (h : Represents e names L B) (hn : c.name ∈ names) (ha : makeAddress e c.name = .ok c.addr) :
    (L.perform e c).1 = (B.perform c).1 ∧ Represents e names (L.perform e c).2 (B.perform c).2 := by
  obtain ⟨verb, name, value, addr⟩ := c
  have hL := h.at_address hapart hn ha
  rw [Ledger.perform, Balance.perform]
  dsimp only at hn ha hL ⊢
  rw [hL]
  cases hB : B name with
  | none =>
    cases verb with
    | set =>
      refine ⟨rfl, ?_⟩
      dsimp only [Option.map_none]
      rw [hexact.reread]
      exact h.update hapart hn ha value
    | change op => exact ⟨rfl, h⟩
  | some v =>
    cases verb with
    | set =>
      dsimp only [Option.map_some]
      rw [if_neg (hapart.readable name hn), if_pos ⟨rfl, rfl⟩]
      exact ⟨rfl, h⟩
    | change op =>
      dsimp only [Option.map_some, changed]
      rw [if_neg (hapart.readable name hn), if_neg (not_not.mpr rfl)]
      dsimp only
      rw [hexact.cast, hexact.reread]
      exact ⟨rfl, h.update hapart hn ha (op v value)⟩

theorem serve_represents (hexact : Exact e) (hapart : Apart e names) (h : Represents e names L B)
    {txn : Transaction} (hname : ∀ c, command e txn.payload = .ok c → c.name ∈ names) :
    (L.serve e txn).1 = (B.serve e txn).1 ∧
      Represents e names (L.serve e txn).2 (B.serve e txn).2 := by
  rw [Ledger.serve, Balance.serve]
  cases hc : command e txn.payload with
  | error t => exact ⟨rfl, h⟩
  | ok c =>
    obtain ⟨hhow, hnext⟩ := perform_represents hexact hapart h (hname c hc) (command_spec hc).2
    exact ⟨congrArg Applied.status hhow, hnext⟩

/-- Nothing is stored. -/
theorem holds_nothing : Holds e (fun _ => []) fun _ => none := fun _ => rfl

theorem represents_nothing : Represents e names (fun _ => none) fun _ => none where
  named := fun n v h => by cases h
  entries := by
    refine fun a n x => iff_of_false (fun h => by cases h) ?_
    rintro ⟨v, hv, -⟩
    cases hv

/-- **The processor keeps the numbers of names**: when numbers are printed as they are, and the
names can be read and have addresses of their own, the transactions are answered as a map of names
to numbers would answer them, and in the end the text of its number is stored for every name in the
map, and nothing for the others. -/
theorem serveAll_plain (hlocal : StopsBehind e.strtod) (hp : e.printing.Numerals)
    (hexact : Exact e) (hapart : Apart e names) (txns : List Transaction)
    (hnames : NamedIn e names txns) :
    (inTurn (serve e) (fun _ => []) txns).1 =
        (inTurn (Balance.serve e) (fun _ => none) txns).1 ∧
      ∀ n ∈ names, ∀ a, makeAddress e n = .ok a →
        ((inTurn (Balance.serve e) (fun _ => none) txns).2 n = none →
          (inTurn (serve e) (fun _ => []) txns).2 a = []) ∧
        ∀ v, (inTurn (Balance.serve e) (fun _ => none) txns).2 n = some v → ∀ memory,
          decode e ((inTurn (serve e) (fun _ => []) txns).2 a) memory = .ok (entry e n v) := by
  obtain ⟨hstatus, hholds⟩ := serveAll_holds hlocal hp holds_nothing txns
  obtain ⟨hstatus', hrepresents⟩ := inTurn_simulates (f := Ledger.serve e) (g := Balance.serve e)
    (fun txn htxn _ _ h => serve_represents hexact hapart h (hnames txn htxn)) represents_nothing
  refine ⟨hstatus.trans hstatus', fun n hn a ha => ?_⟩
  have hL := hrepresents.at_address hapart hn ha
  have hstored := hholds a
  rw [hL] at hstored
  refine ⟨fun hB => ?_, fun v hB memory => ?_⟩
  · rw [hB] at hstored
    exact hstored
  · rw [hB] at hstored
    exact (decode_stored hlocal hp hstored memory).1 (hapart.readable n hn)

/-! ### A sample -/

theorem zero_not_mem_nameA : (0 : UInt8) ∉ ascii "a" := by decide

def nameA : CString := ⟨ascii "a", zero_not_mem_nameA⟩

/-- The digits of a number, as a hash is printed. -/
def hexText (n : ℕ) : Bytes := (Nat.toDigits 16 n).map fun c => UInt8.ofNat c.toNat

/-- Whole numbers, and the hashes of the namespace and of a name. -/
def sample : Setting ℕ where
  printing := wholePrinting
  strtod := wholeValue
  double := UInt32.toNat
  uint32 := UInt32.ofNat
  SHA512 text :=
    if text = ascii "intkey" then
      hexText 0x1cf126a27a1fd9ba83e819ebff8c9f98ec8976f39cce35e984242a2ee40368 ++
        hexText 0xfd8704c8f6147d653fb02c17e666cfc89c0ddc54d5b48d1cabdfed4ec124f99bdb
    else if text = ascii "a" then
      hexText 0x1f40fc92da241694750979ee6cf582f2d5d7d28e18335de05abc54d0560e0f ++
        hexText 0x5302860c652bf08d560252aa5e74210546f369fbbbce8c12cfc7957b2652fe9a75
    else []
  ns := ascii "intkey"

def sampleAddr : Bytes :=
  hexText 0x1cf12692da241694750979ee6cf582f2d5d7d28e18335de05abc54d0560e0f5302860c

/-- A name is set to the last number, and counted up: the bytes of
`{"Verb":"set","Name":"a","Value":4294967295}` and `{"Verb":"inc","Name":"a","Value":2}`. -/
def samplePayloads : List Bytes := [
  [123, 34, 86, 101, 114, 98, 34, 58, 34, 115, 101, 116, 34, 44, 34, 78, 97, 109, 101, 34, 58,
    34, 97, 34, 44, 34, 86, 97, 108, 117, 101, 34, 58, 52, 50, 57, 52, 57, 54, 55, 50, 57, 53,
    125],
  [123, 34, 86, 101, 114, 98, 34, 58, 34, 105, 110, 99, 34, 44, 34, 78, 97, 109, 101, 34, 58,
    34, 97, 34, 44, 34, 86, 97, 108, 117, 101, 34, 58, 50, 125]]

def sampleTxns : List Transaction := samplePayloads.map fun payload => ⟨[], payload, [0]⟩

theorem sample_spec : makeAddress sample nameA = .ok sampleAddr ∧
    (∀ txn ∈ sampleTxns, (command sample txn.payload).map Command.name = .ok nameA) ∧
    (inTurn (Balance.serve sample) (fun _ => none) sampleTxns).1 = [.ok, .ok] ∧
    (inTurn (Balance.serve sample) (fun _ => none) sampleTxns).2 nameA = some 1 := by
  decide +kernel

theorem exact_sample : Exact sample where
  reread u := readBack_wholePrinting u.toNat
  cast _ := UInt32.ofNat_toNat

theorem apart_sample : Apart sample {nameA} where
  readable := by
    rintro n rfl
    decide
  distinct := by
    rintro n rfl n' rfl a - -
    rfl

theorem namedIn_sample : NamedIn sample {nameA} sampleTxns := by
  intro txn htxn c hc
  have hname := sample_spec.2.1 txn htxn
  rw [hc] at hname
  exact Except.ok.inj hname

theorem serveAll_plain_sample : (inTurn (serve sample) (fun _ => []) sampleTxns).1 = [.ok, .ok] ∧
    ∀ memory, decode sample ((inTurn (serve sample) (fun _ => []) sampleTxns).2 sampleAddr)
      memory = .ok (entry sample nameA 1) := by
  obtain ⟨haddr, -, hstatuses, hvalue⟩ := sample_spec
  have hplain := serveAll_plain wholeValue_stopsBehind wholePrinting_numerals exact_sample
    apart_sample sampleTxns namedIn_sample
  exact ⟨hplain.1.trans hstatuses, (hplain.2 nameA rfl sampleAddr haddr).2 1 hvalue⟩

/-- The first of them, as it comes in a message, and what the validator answers. -/
def sampleParse (frame : Bytes) : Proto :=
  if frame = [1] then ⟨5, ascii "a", ascii "txn"⟩
  else if frame = [2] then ⟨8, ascii "1", ascii "empty"⟩
  else if frame = [3] then ⟨10, ascii "2", ascii "done"⟩
  else {}

def sampleRequest (_ : Bytes) : ProcessRequest where
  header := some { family_name := ascii "intkey" }
  payload := samplePayloads.headD []
  signature := []
  context_id := ascii "context"

def sampleCodec : Codec where
  writeRequest q := [UInt8.ofNat q.type]
  readResponse data := if data = ascii "empty" then ⟨1, [⟨sampleAddr, []⟩]⟩ else ⟨1, []⟩

def sampleSetup : TransactionProcessor.Setup :=
  setup sampleParse sampleRequest sampleCodec [handler sample (ascii "intkey") fun _ => [0]]

def sampleOps : List Op :=
  [.receive [[1]], .takes, .asks true, .sends 0 true, .receive [[2]], .gets, .asks true,
    .sends 1 true, .gets, .receive [[3]], .wakes, .responds true]

theorem run_ledger_sample :
    FollowsLedger sample (ascii "intkey") (fun _ => [0]) sampleParse sampleRequest sampleCodec
      (moves (step sampleSetup) {} sampleOps) (final (step sampleSetup) {} sampleOps) :=
  run_ledger wholeValue_stopsBehind wholePrinting_numerals
    (run_final (step sampleSetup) {} sampleOps)

end Suil.IntKey
