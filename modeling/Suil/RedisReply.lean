/-
Replies of a Redis server (`RedisClient::receiveResponse`).

The lines and the strings of a reply are read into one buffer, and the entries that are staged
refer into it.  A growth of the buffer moves it: what was staged before is then lost.

* `receive_spec` — a reply is read as its elements, into the room the buffer has for them;
* `readable`, `not_readable` — the entries can be read in a buffer that stays where it is from
  the first text on, and an entry is lost otherwise;
* `replies_iff` — what comes back is what was sent when that is so and no string is empty.
-/
import Suil.RedisCommand

namespace Suil

namespace Redis

/-! ### The socket -/

/-- How `receiveUntil` ends: with the delimiter, with `ENOBUFS` when the memory is full before
it, or otherwise. -/
inductive Until (σ : Type) where
  | found (d : Bytes) (s : σ)
  | full (d : Bytes) (s : σ)
  | failed

/-- `adaptor`: the calls of the socket. -/
structure Adaptor (σ : Type) where
  read : ℕ → σ → Option (Bytes × σ)
  receiveUntil : ℕ → UInt8 → σ → Until σ

/-- A socket on which everything of a stream arrives in time. -/
structure Adaptor.Lawful {σ : Type} (a : Adaptor σ) (stream : σ → Bytes) : Prop where
  read : ∀ s n, n ≤ (stream s).length → ∃ s', a.read n s = some ((stream s).take n, s') ∧
    stream s' = (stream s).drop n
  found : ∀ s cap c u v, stream s = u ++ c :: v → c ∉ u → u.length < cap →
    ∃ s', a.receiveUntil cap c s = .found (u ++ [c]) s' ∧ stream s' = v
  full : ∀ s cap c, 0 < cap → cap ≤ (stream s).length → c ∉ (stream s).take cap →
    ∃ s', a.receiveUntil cap c s = .full ((stream s).take cap) s' ∧ stream s' = (stream s).drop cap

/-! ### The buffer -/

/-- The buffer that entries refer into, and the number of times it was moved. -/
structure Out where
  buffer : Buffer
  block : ℕ

namespace Out

/-- A call that grows the buffer when `n` bytes do not fit. -/
def grows (o : Out) (n : ℕ) (call : Buffer → Option Buffer) : Option Out :=
  (call o.buffer).map fun b => ⟨b, if o.buffer.capacity < n then o.block + 1 else o.block⟩

def reserve (o : Out) (n : ℕ) : Option Out := o.grows n (·.reserve n)

/-- `out << c` -/
def put (o : Out) (c : UInt8) : Option Out := o.grows 1 (·.append [c])

/-- The socket writes behind the offset, and `seek(n)` takes in the first of it. -/
def receive (o : Out) (d : Bytes) (n : ℕ) : Option Out :=
  if o.buffer.bytes.length + d.length ≤ o.buffer.memory ∧
      o.buffer.bytes.length + n ≤ o.buffer.size then
    (o.buffer.copyIn (d.take n)).map fun b => ⟨b, o.block⟩
  else none

end Out

/-! ### The reader -/

/-- A `String` of an entry: none at all, a literal, or one that refers into the buffer. -/
inductive Text where
  | null
  | literal (s : Bytes)
  | view (block start len : ℕ)
deriving DecidableEq

/-- `RedisClient::Reply`; `kind` is its `prefix`. -/
structure Reply where
  kind : UInt8
  data : Text
deriving DecidableEq

/-- The buffer of a response, the entries staged, and the socket. -/
structure Rx (σ : Type) where
  out : Out
  staging : List Reply
  sock : σ

variable {σ : Type} (a : Adaptor σ)

/-- `strtonum`, as `suil::cast` calls it. -/
def strtonum (s : Bytes) : Option ℤ :=
  if s = [] ∨ 19 < s.length then none
  else match scanInteger s with
    | none => if s.headD 0 = 46 ∨ s.headD 0 = 0 then some 0 else none
    | some (_, _, n) =>
      match strtoll s with
      | none => none
      | some (v, _) => if (s.drop n).headD 0 = 46 ∨ (s.drop n).headD 0 = 0 then some v else none

/-- The loop of `readLine`, from the capacity it asked for first.  Like the calls below it is
`none` when the call returns false or throws, and when the first argument, the number of turns
left, is used up. -/
def readChunks : ℕ → ℕ → Out → σ → Option (Out × σ)
  | 0, _, _, _ => none
  | fuel + 1, cap, o, s =>
    match a.receiveUntil cap 13 s with
    | .failed => none
    | .full d s => do
      let o ← o.receive d d.length
      let o ← o.reserve 512
      -- the capacity is the one of before, not the new one
      readChunks fuel d.length o s
    | .found d s => do
      let o ← o.receive d (d.length - 1)
      match a.receiveUntil 2 10 s with
      | .found _ s => some (o, s)
      | _ => none

def readLine (fuel : ℕ) (o : Out) (s : σ) : Option (Out × σ) := do
  let o ← o.reserve 255
  readChunks a fuel o.buffer.capacity o s

def readLen (fuel : ℕ) (s : σ) : Option (ℤ × σ) := do
  let b ← Buffer.new 16
  let (o, s) ← readLine a fuel ⟨b, 0⟩ s
  let len ← strtonum o.buffer.bytes
  return (len, s)

/-- The loop over the elements of an array; its counter is an `int`. -/
def elements (receive : Rx σ → Option (Rx σ)) : ℕ → ℕ → Rx σ → Option (Rx σ)
  | _, 0, x => some x
  | i, n + 1, x => (receive x).bind fun x =>
    if i + 1 = 2 ^ 31 then none else elements receive (i + 1) n x

def receiveResponse : ℕ → Rx σ → Option (Rx σ)
  | 0, _ => none
  | fuel + 1, x => do
    let (c, s) ← a.read 1 x.sock
    let offset := x.out.buffer.bytes.length
    if c = [45] ∨ c = [58] ∨ c = [43] then
      let (o, s) ← readLine a fuel x.out s
      let tmp := Text.view o.block offset (o.buffer.bytes.length - offset)
      let o ← o.put 0
      return ⟨o, x.staging ++ [⟨c.headD 0, tmp⟩], s⟩
    else if c = [36] then
      let (len, s) ← readLen a fuel s
      if 0 ≤ len then
        let size := len.toNat + 2
        let o ← x.out.reserve (size + 2)
        let (d, s) ← a.read size s
        let o ← o.receive d len.toNat
        if len ≠ 0 then
          let tmp := Text.view o.block offset len.toNat
          let o ← o.put 0
          return ⟨o, x.staging ++ [⟨36, tmp⟩], s⟩
        else return ⟨o, x.staging ++ [⟨36, .null⟩], s⟩
      else return ⟨x.out, x.staging ++ [⟨36, .null⟩], s⟩
    else if c = [42] then
      let (len, s) ← readLen a fuel s
      elements (receiveResponse fuel) 0 len.toNat ⟨x.out, x.staging ++ [⟨42, .literal []⟩], s⟩
    else none

/-- `RedisClient::Response` -/
structure Response where
  out : Out
  entries : List Reply

/-- The loop of `dosend` over the replies it waits for. -/
def receiveAll (fuel : ℕ) : ℕ → Rx σ → Option (Rx σ)
  | 0, x => some x
  | nrps + 1, x => (receiveResponse a fuel x).bind (receiveAll fuel nrps)

/-- `dosend`, behind the request: the response, and the socket. -/
def dosend (fuel nrps : ℕ) (s : σ) : Option (Response × σ) := do
  let b ← Buffer.new 128
  let x ← receiveAll a fuel nrps ⟨⟨b, 0⟩, [], s⟩
  return (⟨x.out, x.staging⟩, x.sock)

def Text.len : Text → ℕ
  | .null => 0
  | .literal s => s.length
  | .view _ _ len => len

/-- The bytes of a string; none when it refers into memory that was given back.  That is so of an
empty one too: `Reply::error` hands its pointer out. -/
def Text.read (o : Out) : Text → Option Bytes
  | .null => some []
  | .literal s => some s
  | .view block start len =>
    if block = o.block then some ((o.buffer.bytes.drop start).take len) else none

/-- `Reply::operator bool` -/
def Reply.ok (p : Reply) : Bool := p.kind ≠ 45 && (p.kind = 42 || p.data.len ≠ 0)

/-- `Response::operator bool` -/
def Response.ok (r : Response) : Bool :=
  match r.entries with
  | [] => false
  | [p] => p.ok
  | _ => true

/-- `RedisClient::get<String>` of the response to its `GET`; none when it throws. -/
def get (r : Response) : Option Bytes :=
  if r.ok then r.entries.head?.bind fun p => p.data.read r.out else none

/-! ### Replies on the wire -/

inductive Resp where
  | status (s : Bytes)
  | error (s : Bytes)
  | integer (i : ℤ)
  | bulk (s : Bytes)
  | null
  | array (rs : List Resp)

/-- What an entry stands for. -/
inductive Element where
  | line (kind : UInt8) (s : Bytes)
  | bulk (s : Bytes)
  | null
  | array
deriving DecidableEq

namespace Resp

mutual

def encode : Resp → Bytes
  | status s => 43 :: (s ++ crlf)
  | error s => 45 :: (s ++ crlf)
  | integer i => 58 :: (integerText i ++ crlf)
  | bulk s => Redis.bulk s
  | null => ascii "$-1\r\n"
  | array rs => 42 :: (decimalText rs.length ++ (crlf ++ encodeAll rs))

def encodeAll : List Resp → Bytes
  | [] => []
  | r :: rs => encode r ++ encodeAll rs

end

mutual

/-- The elements of a reply, in their order. -/
def flatten : Resp → List Element
  | status s => [.line 43 s]
  | error s => [.line 45 s]
  | integer i => [.line 58 (integerText i)]
  | bulk s => [.bulk s]
  | null => [.null]
  | array rs => .array :: flattenAll rs

def flattenAll : List Resp → List Element
  | [] => []
  | r :: rs => flatten r ++ flattenAll rs

end

mutual

/-- A line has no end of a line in it, texts have the 512 megabytes of a bulk string at most,
and integers and counts have 64 bits. -/
def WellFormed : Resp → Prop
  | status s => 13 ∉ s ∧ s.length ≤ 2 ^ 29
  | error s => 13 ∉ s ∧ s.length ≤ 2 ^ 29
  | integer i => -2 ^ 63 ≤ i ∧ i < 2 ^ 63
  | bulk s => s.length ≤ 2 ^ 29
  | null => True
  | array rs => rs.length < 2 ^ 63 ∧ AllWellFormed rs

def AllWellFormed : List Resp → Prop
  | [] => True
  | r :: rs => WellFormed r ∧ AllWellFormed rs

end

mutual

/-- The number of elements of an array is an `int`. -/
def Counted : Resp → Prop
  | array rs => rs.length < 2 ^ 31 ∧ AllCounted rs
  | _ => True

def AllCounted : List Resp → Prop
  | [] => True
  | r :: rs => Counted r ∧ AllCounted rs

end

end Resp

/-! ### Room -/

/-- What an element is in the buffer. -/
def Element.stored : Element → Bytes
  | .line _ s => s ++ [0]
  | .bulk s => if s = [] then [] else s ++ [0]
  | .null => []
  | .array => []

/-- The size of the buffer, how much of it is in use, and how many times it was moved. -/
structure Room where
  size : ℕ
  used : ℕ
  block : ℕ

namespace Room

def reserve (r : Room) (n : ℕ) : Room :=
  if r.size < r.used + n then
    { r with size := Buffer.grown r.size (r.used + n - r.size), block := r.block + 1 }
  else r

/-- A line is read by the capacity there was for it first. -/
def chunks (cap : ℕ) : ℕ → ℕ → Room → Room
  | 0, _, r => r
  | fuel + 1, n, r =>
    if n < cap then { r with used := r.used + n }
    else chunks cap fuel (n - cap) (reserve { r with used := r.used + cap } 512)

def line (r : Room) (n : ℕ) : Room := chunks ((r.reserve 255).size - r.used) (n + 1) n (r.reserve 255)

/-- The room behind an element, and the entry for it. -/
def place (r : Room) : Element → Room × Reply
  | .line kind s =>
    ({ r.line s.length with used := r.used + s.length + 1 },
      ⟨kind, .view (r.line s.length).block r.used s.length⟩)
  | .bulk s =>
    let r' := r.reserve (s.length + 4)
    if s = [] then (r', ⟨36, .null⟩)
    else ({ r' with used := r.used + s.length + 1 }, ⟨36, .view r'.block r.used s.length⟩)
  | .null => (r, ⟨36, .null⟩)
  | .array => (r, ⟨42, .literal []⟩)

def stage (r : Room) : List Element → Room × List Reply
  | [] => (r, [])
  | e :: es => ((stage (r.place e).1 es).1, (r.place e).2 :: (stage (r.place e).1 es).2)

/-- There is no room for an element where the buffer is. -/
def Grows (r : Room) : Element → Prop
  | .line _ s => r.size < r.used + 255 ∨ r.size ≤ r.used + s.length
  | .bulk s => r.size < r.used + s.length + 4
  | .null => False
  | .array => False

/-- The buffer stays where it is from the first text on; the flag tells whether there was one. -/
def Keeps : Bool → Room → List Element → Prop
  | _, _, [] => True
  | staged, r, e :: es =>
    (staged = true → ¬r.Grows e) ∧ Keeps (staged || e.stored ≠ []) (r.place e).1 es

end Room

def Out.room (o : Out) : Room := ⟨o.buffer.size, o.buffer.bytes.length, o.block⟩

/-- The element that an entry stands for; none when it cannot be read. -/
def Reply.element (o : Out) (p : Reply) : Option Element :=
  match p.data with
  | .null => some .null
  | .literal _ => some .array
  | .view _ _ _ => (p.data.read o).map fun s => if p.kind = 36 then .bulk s else .line p.kind s

/-- The replies come back: the socket is behind them, every entry can be read and stands for
its element, and `get` tells a value from none. -/
def Answers (a : Adaptor σ) (stream : σ → Bytes) (rs : List Resp) (s : σ) (rest : Bytes) : Prop :=
  ∃ n, ∀ fuel, n ≤ fuel → ∃ resp s', dosend a fuel rs.length s = some (resp, s') ∧
    stream s' = rest ∧
    resp.entries.map (Reply.element resp.out) = (Resp.flattenAll rs).map some ∧
    (∀ v, rs = [.bulk v] → get resp = some v) ∧ (rs = [.null] → get resp = none)

/-- No string is empty. -/
def NonEmpty (rs : List Resp) : Prop := .bulk [] ∉ Resp.flattenAll rs

variable {a : Adaptor σ} {stream : σ → Bytes}

/-! ### Numbers -/

theorem strtonum_decimalText {n : ℕ} (h : n < 2 ^ 63) : strtonum (decimalText n) = some (n : ℤ) := by
  have hscan : scanInteger (decimalText n ++ []) = _ :=
    scanInteger_of_digits (decimalText_ne_nil n) (fun d hd => isDigit_decimalText hd) (by simp)
  rw [List.append_nil] at hscan
  have hlen : (decimalText n).length ≤ 19 := by
    refine (decimalText_mono h.le).trans ?_
    decide +kernel
  have hvalue : strtoll (decimalText n) = some ((n : ℤ), (decimalText n).length) := by
    rw [strtoll, hscan]
    simp only [decimal_decimalText, Bool.false_eq_true, if_false]
    rw [if_pos (by omega)]
  rw [strtonum, if_neg (by simp [decimalText_ne_nil]; omega), hscan]
  simp only [hvalue, List.drop_length]
  rw [if_pos (.inr rfl)]

theorem decimalText_no_return (n : ℕ) : 13 ∉ decimalText n := by
  intro h
  have := isDigit_decimalText h
  revert this
  decide

/-! ### The buffer's calls -/

section Calls

variable {o o' : Out} {n : ℕ}

theorem Room.reserve_used (r : Room) (n : ℕ) : (r.reserve n).used = r.used := by
  rw [Room.reserve]
  split_ifs <;> rfl

theorem Room.reserve_size (r : Room) (n : ℕ) : r.used + n ≤ (r.reserve n).size := by
  rw [Room.reserve]
  split_ifs with hgrow
  · have hle := le_aligned (max r.size (r.used + n - r.size))
    simp only [Buffer.grown]
    omega
  · omega

theorem grown_le {size used n : ℕ} (h : size < used + n) (hn : 4 ≤ n) :
    Buffer.grown size (used + n - size) ≤ 2 * (used + n) + 5 := by
  rw [Buffer.grown, Suil.aligned]
  omega

/-- A reservation below 2^32. -/
theorem Out.reserve_spec (hs : o.buffer.Sound) (hn : 4 ≤ n)
    (hlt : o.buffer.size < o.buffer.bytes.length + n → o.buffer.bytes.length + n < 2 ^ 30) :
    ∃ o', o.reserve n = some o' ∧ o'.buffer.bytes = o.buffer.bytes ∧
      o'.room = o.room.reserve n ∧ o'.buffer.Sound := by
  have hwithin := hs.within
  have hcap := hs.capacity
  by_cases hgrow : o.buffer.size < o.buffer.bytes.length + n
  · have hless := hlt hgrow
    have hwant : (n - o.buffer.capacity) % 2 ^ 32 =
        o.buffer.bytes.length + n - o.buffer.size := by
      rw [hcap, Nat.mod_eq_of_lt (by omega)]
      omega
    have hle := grown_le hgrow hn
    obtain ⟨b, hb, hbytes, hsize, hsound⟩ :=
      hs.grow_ok (n := max o.buffer.size (o.buffer.bytes.length + n - o.buffer.size)) (by omega)
        (by rw [Buffer.grown] at hle; omega)
    refine ⟨⟨b, o.block + 1⟩, ?_, hbytes, ?_, hsound⟩
    · rw [Out.reserve, Out.grows, Buffer.reserve, if_pos (by omega), hwant, hb, if_pos (by omega)]
      rfl
    · have hroom : o.room.size < o.room.used + n := hgrow
      rw [Room.reserve, if_pos hroom]
      simp only [Out.room, hbytes, hsize, Buffer.grown]
  · refine ⟨o, ?_, rfl, ?_, hs⟩
    · rw [Out.reserve, Out.grows, Buffer.reserve, if_neg (by omega), if_neg (by omega)]
      rfl
    · have hroom : ¬o.room.size < o.room.used + n := hgrow
      rw [Room.reserve, if_neg hroom]

/-- What the socket wrote behind the offset. -/
theorem Out.receive_spec {d : Bytes} (hs : o.buffer.Sound) (hd : n ≤ d.length)
    (hfits : o.buffer.bytes.length + d.length ≤ o.buffer.size) :
    ∃ o', o.receive d n = some o' ∧ o'.buffer.bytes = o.buffer.bytes ++ d.take n ∧
      o'.room = { o.room with used := o.room.used + n } ∧ o'.buffer.Sound := by
  have hlen : (d.take n).length = n := List.length_take_of_le hd
  have hmem : o.buffer.bytes.length + d.length ≤ o.buffer.memory := by
    rcases hs.spare with hspare | hspare <;> omega
  obtain ⟨b, hb, hbytes, hsize, hsound⟩ := hs.copyIn (d := d.take n) (by omega)
  refine ⟨⟨b, o.block⟩, ?_, hbytes, ?_, hsound⟩
  · rw [Out.receive, if_pos ⟨hmem, by omega⟩, hb]
    rfl
  · simp only [Out.room, hbytes, hsize, List.length_append, hlen]

theorem Out.put_spec (hs : o.buffer.Sound) (hfits : o.buffer.bytes.length < o.buffer.size)
    (c : UInt8) :
    ∃ o', o.put c = some o' ∧ o'.buffer.bytes = o.buffer.bytes ++ [c] ∧
      o'.room = { o.room with used := o.room.used + 1 } ∧ o'.buffer.Sound := by
  obtain ⟨b, hb, hbytes, hsize, hsound⟩ := Buffer.append_of_fits hs (d := [c]) hfits
  have hcap := hs.capacity
  refine ⟨⟨b, o.block⟩, ?_, hbytes, ?_, hsound⟩
  · rw [Out.put, Out.grows, hb, if_neg (by omega)]
    rfl
  · simp only [Out.room, hbytes, hsize, List.length_append, List.length_singleton]

theorem Out.grows_block {call : Buffer → Option Buffer} (h : o.grows n call = some o') :
    o.block ≤ o'.block ∧ (o.buffer.capacity < n → o.block < o'.block) := by
  obtain ⟨b, _, rfl⟩ := Option.map_eq_some_iff.mp h
  split_ifs with hcap
  · exact ⟨Nat.le_succ _, fun _ => Nat.lt_succ_self _⟩
  · exact ⟨le_rfl, fun h => absurd h hcap⟩

theorem Out.receive_block {d : Bytes} (h : o.receive d n = some o') : o'.block = o.block := by
  rw [Out.receive] at h
  split_ifs at h
  obtain ⟨b, _, rfl⟩ := Option.map_eq_some_iff.mp h
  rfl

end Calls

/-! ### Lines -/

section Lines

variable {o o' : Out} {s s' : σ} {fuel cap : ℕ}

/-- The last chunk of a line. -/
theorem readChunks_last (h : a.Lawful stream) (hs : o.buffer.Sound) {text rest : Bytes}
    (h13 : 13 ∉ text) (hcap : text.length < cap)
    (hfits : o.buffer.bytes.length + text.length < o.buffer.size)
    (hstream : stream s = text ++ 13 :: 10 :: rest) :
    ∃ o' s', readChunks a (fuel + 1) cap o s = some (o', s') ∧ stream s' = rest ∧
      o'.buffer.bytes = o.buffer.bytes ++ text ∧
      o'.room = { o.room with used := o.room.used + text.length } ∧ o'.buffer.Sound := by
  obtain ⟨s₁, hfound, hs₁⟩ := h.found s cap 13 text (10 :: rest) hstream h13 hcap
  obtain ⟨s₂, hlast, hs₂⟩ := h.found s₁ 2 10 [] rest hs₁ List.not_mem_nil Nat.two_pos
  have hlen : (text ++ [13]).length - 1 = text.length := by simp
  obtain ⟨o', ho', hbytes, hroom, hsound⟩ := Out.receive_spec (n := text.length)
    (d := text ++ [13]) hs (by simp) (by simp; omega)
  rw [List.take_left] at hbytes
  refine ⟨o', s₂, ?_, hs₂, hbytes, hroom, hsound⟩
  simp only [readChunks, hfound, hlen, ho', hlast, Option.bind_eq_bind, Option.bind_some]

/-- A line is read in chunks of the capacity that the first call found, which are not larger
than what is reserved for the next one. -/
theorem readChunks_spec (h : a.Lawful stream) (hcap : 0 < cap) (hcap512 : cap ≤ 512) {k : ℕ}
    {text rest : Bytes} (hk : text.length < k) (hfuel : k ≤ fuel) (hs : o.buffer.Sound)
    (hlt : o.buffer.bytes.length + text.length + 512 < 2 ^ 30) (h13 : 13 ∉ text)
    (hfits : o.buffer.bytes.length + cap ≤ o.buffer.size)
    (hstream : stream s = text ++ 13 :: 10 :: rest) :
    ∃ o' s', readChunks a fuel cap o s = some (o', s') ∧ stream s' = rest ∧
      o'.buffer.bytes = o.buffer.bytes ++ text ∧
      o'.room = Room.chunks cap k text.length o.room ∧ o'.buffer.Sound ∧
      o'.buffer.bytes.length < o'.buffer.size := by
  induction k generalizing o s text fuel with
  | zero => exact absurd hk (Nat.not_lt_zero _)
  | succ k ih =>
    obtain ⟨fuel, rfl⟩ := Nat.exists_eq_add_of_le' (Nat.le_of_add_left_le hfuel)
    by_cases hlast : text.length < cap
    · obtain ⟨o', s', hrun, hs', hbytes, hroom, hsound⟩ :=
        readChunks_last h hs h13 hlast (by omega) hstream
      have hsize : o'.buffer.size = o.buffer.size := congrArg Room.size hroom
      refine ⟨o', s', hrun, hs', hbytes, ?_, hsound, ?_⟩
      · rw [Room.chunks, if_pos hlast, hroom]
      · rw [hbytes, hsize, List.length_append]
        omega
    · -- the memory is full before the end of the line
      rw [not_lt] at hlast
      have htake : (stream s).take cap = text.take cap := by
        rw [hstream, List.take_append_of_le_length hlast]
      obtain ⟨s₁, hfull, hs₁⟩ := h.full s cap 13 hcap (by rw [hstream, List.length_append]; omega)
        (by rw [htake]; exact fun hmem => h13 (List.mem_of_mem_take hmem))
      rw [htake] at hfull
      rw [hstream, List.drop_append_of_le_length hlast] at hs₁
      have hlen : (text.take cap).length = cap := List.length_take_of_le hlast
      obtain ⟨o₁, ho₁, hbytes₁, hroom₁, hsound₁⟩ := Out.receive_spec (n := cap)
        (d := text.take cap) hs hlen.ge (by omega)
      rw [List.take_take, Nat.min_self] at hbytes₁
      have hused₁ : o₁.buffer.bytes.length = o.buffer.bytes.length + cap := by
        rw [hbytes₁, List.length_append, hlen]
      have hlt₁ : o₁.buffer.bytes.length + 512 < 2 ^ 30 := by
        rw [hused₁]
        omega
      obtain ⟨o₂, ho₂, hbytes₂, hroom₂, hsound₂⟩ := Out.reserve_spec (n := 512) hsound₁ (by decide)
        fun _ => hlt₁
      have hsize₂ : o₁.buffer.bytes.length + 512 ≤ o₂.buffer.size := by
        have := Room.reserve_size o₁.room 512
        rw [← hroom₂] at this
        exact this
      have hdrop : (text.drop cap).length = text.length - cap := List.length_drop
      have hlt₂ : o₂.buffer.bytes.length + (text.drop cap).length + 512 < 2 ^ 30 := by
        rw [hbytes₂, hused₁, hdrop]
        omega
      have hfits₂ : o₂.buffer.bytes.length + cap ≤ o₂.buffer.size := by
        rw [hbytes₂]
        omega
      have h13' : 13 ∉ text.drop cap := fun hmem => h13 (List.mem_of_mem_drop hmem)
      obtain ⟨o', s', hrun, hs', hbytes, hroom, hsound, hroomy⟩ :=
        ih (by omega) (Nat.le_of_succ_le_succ hfuel) hsound₂ hlt₂ h13' hfits₂ hs₁
      refine ⟨o', s', ?_, hs', ?_, ?_, hsound, hroomy⟩
      · simp only [readChunks, hfull, hlen, ho₁, ho₂, Option.bind_eq_bind, Option.bind_some]
        exact hrun
      · rw [hbytes, hbytes₂, hbytes₁, List.append_assoc, List.take_append_drop]
      · rw [hroom, Room.chunks, if_neg (by omega), hroom₂, hroom₁, hdrop]

theorem Out.capacity_eq (hs : o.buffer.Sound) : o.buffer.capacity = o.room.size - o.room.used :=
  hs.capacity

/-- A buffer as it is made for one number or one response. -/
structure Out.New (o : Out) : Prop where
  bytes : o.buffer.bytes = []
  size : o.buffer.size = 16 ∨ o.buffer.size = 128

theorem Out.New.room (hnew : o.New) : (o.room.reserve 255).size = 256 ∧ o.room.used = 0 := by
  have hused : o.room.used = 0 := by rw [Out.room, hnew.bytes, List.length_nil]
  refine ⟨?_, hused⟩
  rcases hnew.size with hsize | hsize
  · have hroom : o.room.size = 16 := hsize
    simp [Room.reserve, hused, hroom, Buffer.grown, Suil.aligned]
  · have hroom : o.room.size = 128 := hsize
    simp [Room.reserve, hused, hroom, Buffer.grown, Suil.aligned]

/-- **A line** is read into the room for it, when that is free or the buffer is new. -/
theorem readLine_spec (h : a.Lawful stream) (hs : o.buffer.Sound) {kind : UInt8}
    {text rest : Bytes} (hfuel : text.length < fuel) (h13 : 13 ∉ text)
    (hroomy : ¬o.room.Grows (.line kind text) ∨ o.New ∧ text.length + 512 < 2 ^ 30)
    (hstream : stream s = text ++ 13 :: 10 :: rest) :
    ∃ o' s', readLine a fuel o s = some (o', s') ∧ stream s' = rest ∧
      o'.buffer.bytes = o.buffer.bytes ++ text ∧ o'.room = o.room.line text.length ∧
      o'.buffer.Sound ∧ o'.buffer.bytes.length < o'.buffer.size := by
  have hlt₁ : o.buffer.size < o.buffer.bytes.length + 255 →
      o.buffer.bytes.length + 255 < 2 ^ 30 := by
    intro hgrows
    rcases hroomy with hfree | ⟨hnew, _⟩
    · exact absurd (.inl hgrows) hfree
    · rw [hnew.bytes]
      decide
  obtain ⟨o₁, ho₁, hbytes₁, hroom₁, hsound₁⟩ := Out.reserve_spec hs (by decide) hlt₁
  have hused₁ : o₁.room.used = o.room.used := by rw [hroom₁, Room.reserve_used]
  have hcap : o₁.buffer.capacity = (o.room.reserve 255).size - o.room.used := by
    rw [Out.capacity_eq hsound₁, hused₁, hroom₁]
  have hsize : o.room.used + 255 ≤ (o.room.reserve 255).size := Room.reserve_size _ _
  have hfits : o₁.buffer.bytes.length + o₁.buffer.capacity ≤ o₁.buffer.size := by
    have hwithin := hsound₁.within
    have hcapacity := hsound₁.capacity
    omega
  have hrun : ∃ o' s', readChunks a fuel o₁.buffer.capacity o₁ s = some (o', s') ∧
      stream s' = rest ∧ o'.buffer.bytes = o₁.buffer.bytes ++ text ∧
      o'.room = Room.chunks o₁.buffer.capacity (text.length + 1) text.length o₁.room ∧
      o'.buffer.Sound ∧ o'.buffer.bytes.length < o'.buffer.size := by
    rcases hroomy with hfree | ⟨hnew, hsmall⟩
    · have hshort : text.length < o₁.buffer.capacity := by
        have hfree₁ : ¬o.room.size < o.room.used + 255 := fun hgrows => hfree (.inl hgrows)
        have hfree₂ : ¬o.room.size ≤ o.room.used + text.length := fun hgrows => hfree (.inr hgrows)
        rw [hcap, Room.reserve, if_neg hfree₁]
        omega
      obtain ⟨fuel, rfl⟩ := Nat.exists_eq_add_of_le' (Nat.one_le_of_lt hfuel)
      obtain ⟨o', s', hrun, hs', hbytes, hroom, hsound⟩ :=
        readChunks_last h hsound₁ h13 hshort (by omega) hstream
      have hsize' : o'.buffer.size = o₁.buffer.size := congrArg Room.size hroom
      refine ⟨o', s', hrun, hs', hbytes, ?_, hsound, ?_⟩
      · rw [Room.chunks, if_pos hshort, hroom]
      · rw [hbytes, hsize', List.length_append]
        omega
    · have hcap256 : o₁.buffer.capacity = 256 := by rw [hcap, hnew.room.1, hnew.room.2]
      refine readChunks_spec h (by omega) (by omega) (Nat.lt_succ_self _) hfuel hsound₁ ?_ h13
        hfits hstream
      rw [hbytes₁, hnew.bytes, List.length_nil]
      omega
  obtain ⟨o', s', hrun, hs', hbytes, hroom, hsound, hless⟩ := hrun
  refine ⟨o', s', ?_, hs', by rw [hbytes, hbytes₁], ?_, hsound, hless⟩
  · rw [readLine, ho₁]
    exact hrun
  · rw [hroom, hcap, hroom₁, Room.line]

theorem readChunks_block : readChunks a fuel cap o s = some (o', s') → o.block ≤ o'.block := by
  intro h
  induction fuel generalizing cap o s with
  | zero => cases h
  | succ fuel ih =>
    rw [readChunks] at h
    split at h
    · cases h
    · obtain ⟨o₁, ho₁, h⟩ := Option.bind_eq_some_iff.mp h
      obtain ⟨o₂, ho₂, h⟩ := Option.bind_eq_some_iff.mp h
      calc o.block = o₁.block := (Out.receive_block ho₁).symm
        _ ≤ o₂.block := (Out.grows_block ho₂).1
        _ ≤ o'.block := ih h
    · obtain ⟨o₁, ho₁, h⟩ := Option.bind_eq_some_iff.mp h
      split at h
      · obtain ⟨rfl, _⟩ := Prod.mk.inj (Option.some.inj h)
        exact (Out.receive_block ho₁).ge
      · cases h

theorem readLine_block (h : readLine a fuel o s = some (o', s')) : o.block ≤ o'.block := by
  obtain ⟨o₁, ho₁, h⟩ := Option.bind_eq_some_iff.mp h
  exact (Out.grows_block ho₁).1.trans (readChunks_block h)

/-- A line for which there is no room moves the buffer. -/
theorem readLine_moves (h : a.Lawful stream) (hs : o.buffer.Sound) {kind : UInt8}
    {text rest : Bytes} (h13 : 13 ∉ text)
    (hgrows : o.room.Grows (.line kind text)) (hstream : stream s = text ++ 13 :: 10 :: rest)
    (hrun : readLine a fuel o s = some (o', s')) : o.block < o'.block := by
  have hcap := Out.capacity_eq hs
  obtain ⟨o₁, ho₁, hrun⟩ := Option.bind_eq_some_iff.mp hrun
  by_cases hshort : o.buffer.capacity < 255
  · exact ((Out.grows_block ho₁).2 hshort).trans_le (readChunks_block hrun)
  · have hwithin := hs.within
    have hcapacity := hs.capacity
    obtain ⟨o₁', ho₁', hbytes₁, hroom₁, hsound₁⟩ := Out.reserve_spec (n := 255) hs (by decide)
      (by omega)
    obtain rfl := Option.some.inj (ho₁.symm.trans ho₁')
    have hkept : o.room.reserve 255 = o.room := by
      rw [Room.reserve, if_neg (by omega)]
    rw [hkept] at hroom₁
    have hcap₁ : o₁.buffer.capacity = o.room.size - o.room.used := by
      rw [Out.capacity_eq hsound₁, hroom₁]
    have hlong : o₁.buffer.capacity ≤ text.length := by
      rcases hgrows with hgrows | hgrows
      · omega
      · omega
    have hpos : 0 < o₁.buffer.capacity := by omega
    cases fuel with
    | zero => cases hrun
    | succ fuel =>
      have htake : (stream s).take o₁.buffer.capacity = text.take o₁.buffer.capacity := by
        rw [hstream, List.take_append_of_le_length hlong]
      obtain ⟨s₁, hfull, _⟩ := h.full s o₁.buffer.capacity 13 hpos
        (by rw [hstream, List.length_append]; omega)
        (by rw [htake]; exact fun hmem => h13 (List.mem_of_mem_take hmem))
      rw [htake] at hfull
      rw [readChunks, hfull] at hrun
      obtain ⟨o₂, ho₂, hrun⟩ := Option.bind_eq_some_iff.mp hrun
      obtain ⟨o₃, ho₃, hrun⟩ := Option.bind_eq_some_iff.mp hrun
      have hlen : (text.take o₁.buffer.capacity).length = o₁.buffer.capacity :=
        List.length_take_of_le hlong
      have hfull₂ : o₂.buffer.capacity < 512 := by
        have hwithin := hsound₁.within
        have hcapacity := hsound₁.capacity
        obtain ⟨o₂', ho₂', _, hroom₂, hsound₂⟩ := Out.receive_spec (n := o₁.buffer.capacity)
          (d := text.take o₁.buffer.capacity) hsound₁ hlen.ge (by omega)
        rw [hlen, ho₂'] at ho₂
        obtain rfl := Option.some.inj ho₂
        rw [Out.capacity_eq hsound₂, hroom₂]
        show o₁.buffer.size - (o₁.buffer.bytes.length + o₁.buffer.capacity) < 512
        omega
      calc o.block = o₁.block := (congrArg Room.block hroom₁).symm
        _ = o₂.block := (Out.receive_block ho₂).symm
        _ < o₃.block := (Out.grows_block ho₃).2 hfull₂
        _ ≤ o'.block := readChunks_block hrun

theorem exists_new {size : ℕ} (hsize : size = 16 ∨ size = 128) :
    ∃ b, Buffer.new size = some b ∧ b.size = size ∧ b.Sound ∧ (⟨b, 0⟩ : Out).New := by
  obtain ⟨b, hb, hbytes, hbsize, hsound⟩ := Buffer.new_eq_some size
  have hkept : b.size = size := by
    rw [hbsize]
    rcases hsize with rfl | rfl <;> rfl
  refine ⟨b, hb, hkept, hsound, hbytes, ?_⟩
  rwa [← hkept] at hsize

theorem readLen_spec (h : a.Lawful stream) {text rest : Bytes} {v : ℤ} (hlen : text.length ≤ 19)
    (h13 : 13 ∉ text) (hv : strtonum text = some v) (hfuel : text.length < fuel)
    (hstream : stream s = text ++ 13 :: 10 :: rest) :
    ∃ s', readLen a fuel s = some (v, s') ∧ stream s' = rest := by
  obtain ⟨b, hb, _, hsound, hnew⟩ := exists_new (.inl rfl)
  have hroomy : ¬(⟨b, 0⟩ : Out).room.Grows (.line 0 text) ∨
      (⟨b, 0⟩ : Out).New ∧ text.length + 512 < 2 ^ 30 := .inr ⟨hnew, by omega⟩
  obtain ⟨o', s', hrun, hs', hbytes', _⟩ := readLine_spec h hsound hfuel h13 hroomy hstream
  rw [hnew.bytes, List.nil_append] at hbytes'
  refine ⟨s', ?_, hs'⟩
  simp only [readLen, hb, hrun, hbytes', hv, Option.bind_eq_bind, Option.bind_some]
  rfl

end Lines

/-! ### Replies -/

section Replies

variable {x y z : Rx σ} {es es' : List Element} {rest mid : Bytes} {t : Bool}

/-- A later state of a reader: more entries, and a buffer that moved no more than forward. -/
structure Extends (x y : Rx σ) : Prop where
  staging : x.staging <+: y.staging
  block : x.out.block ≤ y.out.block

/-- An entry refers into memory that was given back. -/
def Lost (x : Rx σ) : Prop :=
  ∃ kind block start len, ⟨kind, .view block start len⟩ ∈ x.staging ∧ block < x.out.block

theorem Extends.rfl : Extends x x := ⟨List.prefix_rfl, le_rfl⟩

theorem Extends.trans (h : Extends x y) (h' : Extends y z) : Extends x z :=
  ⟨h.staging.trans h'.staging, h.block.trans h'.block⟩

theorem Lost.extends (h : Lost x) (hl : Extends x y) : Lost y := by
  obtain ⟨kind, block, start, len, hmem, hlt⟩ := h
  exact ⟨kind, block, start, len, hl.staging.subset hmem, hlt.trans_le hl.block⟩

theorem extends_elements {receive : Rx σ → Option (Rx σ)}
    (hr : ∀ x y, receive x = some y → Extends x y) {i n : ℕ}
    (h : elements receive i n x = some y) : Extends x y := by
  induction n generalizing i x with
  | zero => exact Option.some.inj h ▸ Extends.rfl
  | succ n ih =>
    obtain ⟨x₁, hx₁, h⟩ := Option.bind_eq_some_iff.mp h
    split_ifs at h
    exact (hr x x₁ hx₁).trans (ih h)

theorem extends_receiveResponse {fuel : ℕ} (h : receiveResponse a fuel x = some y) : Extends x y := by
  induction fuel generalizing x y with
  | zero => cases h
  | succ fuel ih =>
    rw [receiveResponse] at h
    obtain ⟨⟨c, s⟩, _, h⟩ := Option.bind_eq_some_iff.mp h
    simp only at h
    split_ifs at h with hline hbulk harray
    · obtain ⟨⟨o, s⟩, ho, h⟩ := Option.bind_eq_some_iff.mp h
      obtain ⟨o', ho', h⟩ := Option.bind_eq_some_iff.mp h
      rw [← Option.some.inj h]
      exact ⟨List.prefix_append _ _, (readLine_block ho).trans (Out.grows_block ho').1⟩
    · obtain ⟨⟨len, s⟩, _, h⟩ := Option.bind_eq_some_iff.mp h
      simp only at h
      split_ifs at h with hlen hzero
      · obtain ⟨o, ho, h⟩ := Option.bind_eq_some_iff.mp h
        obtain ⟨⟨d, s⟩, _, h⟩ := Option.bind_eq_some_iff.mp h
        obtain ⟨o₁, ho₁, h⟩ := Option.bind_eq_some_iff.mp h
        obtain ⟨o₂, ho₂, h⟩ := Option.bind_eq_some_iff.mp h
        rw [← Option.some.inj h]
        refine ⟨List.prefix_append _ _, ?_⟩
        calc x.out.block ≤ o.block := (Out.grows_block ho).1
          _ = o₁.block := (Out.receive_block ho₁).symm
          _ ≤ o₂.block := (Out.grows_block ho₂).1
      · obtain ⟨o, ho, h⟩ := Option.bind_eq_some_iff.mp h
        obtain ⟨⟨d, s⟩, _, h⟩ := Option.bind_eq_some_iff.mp h
        obtain ⟨o₁, ho₁, h⟩ := Option.bind_eq_some_iff.mp h
        rw [← Option.some.inj h]
        exact ⟨List.prefix_append _ _, (Out.grows_block ho).1.trans (Out.receive_block ho₁).ge⟩
      · rw [← Option.some.inj h]
        exact ⟨List.prefix_append _ _, le_rfl⟩
    · obtain ⟨⟨len, s⟩, _, h⟩ := Option.bind_eq_some_iff.mp h
      have hext := extends_elements (fun x y h => ih h) h
      exact ⟨(List.prefix_append _ _).trans hext.staging, hext.block⟩

/-! A run is told by the elements it is over. -/

theorem Room.stage_append (r : Room) (es es' : List Element) :
    r.stage (es ++ es') = (((r.stage es).1.stage es').1,
      (r.stage es).2 ++ ((r.stage es).1.stage es').2) := by
  induction es generalizing r with
  | nil => rfl
  | cons e es ih =>
    rw [List.cons_append, Room.stage, Room.stage, ih]
    rfl

theorem Room.keeps_append (t : Bool) (r : Room) (es es' : List Element) :
    r.Keeps t (es ++ es') ↔
      r.Keeps t es ∧ (r.stage es).1.Keeps (t || es.any (·.stored ≠ [])) es' := by
  induction es generalizing t r with
  | nil => simp [Room.Keeps, Room.stage]
  | cons e es ih =>
    rw [List.cons_append, Room.Keeps, Room.Keeps, ih, and_assoc, List.any_cons, Bool.or_assoc,
      Room.stage]

theorem Room.reserve_block (r : Room) (n : ℕ) : r.block ≤ (r.reserve n).block := by
  rw [Room.reserve]
  split_ifs
  · exact Nat.le_succ _
  · exact le_rfl

theorem Room.chunks_block (cap : ℕ) (fuel n : ℕ) (r : Room) :
    r.block ≤ (Room.chunks cap fuel n r).block := by
  induction fuel generalizing n r with
  | zero => exact le_rfl
  | succ fuel ih =>
    rw [Room.chunks]
    split_ifs
    · exact le_rfl
    · exact (Room.reserve_block { r with used := r.used + cap } 512).trans (ih _ _)

theorem Room.line_block (r : Room) (n : ℕ) : r.block ≤ (r.line n).block :=
  (r.reserve_block 255).trans (Room.chunks_block _ _ _ _)

theorem Room.place_block (r : Room) (e : Element) : r.block ≤ (r.place e).1.block := by
  cases e with
  | line kind s => exact r.line_block s.length
  | bulk s =>
    simp only [Room.place]
    split_ifs
    · exact r.reserve_block _
    · exact r.reserve_block _
  | null => exact le_rfl
  | array => exact le_rfl

theorem Room.stage_block (r : Room) (es : List Element) : r.block ≤ (r.stage es).1.block := by
  induction es generalizing r with
  | nil => exact le_rfl
  | cons e es ih => exact (r.place_block e).trans (ih _)

/-- A text is staged as a view of the buffer where it is then. -/
theorem Room.place_view (r : Room) {e : Element} (h : e.stored ≠ []) :
    ∃ kind start len, (r.place e).2 = ⟨kind, .view (r.place e).1.block start len⟩ := by
  cases e with
  | line kind s => exact ⟨kind, r.used, s.length, rfl⟩
  | bulk s =>
    have hs : s ≠ [] := by
      rintro rfl
      exact h rfl
    refine ⟨36, r.used, s.length, ?_⟩
    simp only [Room.place, if_neg hs]
  | null => exact absurd rfl h
  | array => exact absurd rfl h

theorem Room.stage_view (r : Room) {es : List Element} (h : ∃ e ∈ es, e.stored ≠ []) :
    ∃ kind block start len, ⟨kind, .view block start len⟩ ∈ (r.stage es).2 ∧
      block ≤ (r.stage es).1.block := by
  induction es generalizing r with
  | nil =>
    obtain ⟨e, he, _⟩ := h
    cases he
  | cons e es ih =>
    by_cases hstored : e.stored = []
    · have hrest : ∃ e ∈ es, e.stored ≠ [] := by
        obtain ⟨e', he', hne⟩ := h
        rcases List.mem_cons.mp he' with rfl | hmem
        · exact absurd hstored hne
        · exact ⟨e', hmem, hne⟩
      obtain ⟨kind, block, start, len, hmem, hle⟩ := ih (r.place e).1 hrest
      exact ⟨kind, block, start, len, List.mem_cons_of_mem _ hmem, hle⟩
    · obtain ⟨kind, start, len, hview⟩ := r.place_view hstored
      refine ⟨kind, (r.place e).1.block, start, len, ?_, Room.stage_block _ _⟩
      rw [← hview]
      exact List.mem_cons_self

/-- Elements without a text leave the room as it is. -/
theorem Room.stage_of_not_stored {r : Room} {es : List Element} (hroom : r.used + 4 ≤ r.size)
    (h : ∀ e ∈ es, e.stored = []) : (r.stage es).1 = r := by
  induction es with
  | nil => rfl
  | cons e es ih =>
    have hplace : (r.place e).1 = r := by
      have hstored := h e List.mem_cons_self
      cases e with
      | line kind s => exact absurd hstored (by simp [Element.stored])
      | bulk s =>
        have hs : s = [] := by
          by_contra hne
          rw [Element.stored, if_neg hne] at hstored
          exact absurd hstored (by simp)
        simp only [Room.place, hs, if_true, Room.reserve, List.length_nil]
        rw [if_neg (by omega)]
      | null => rfl
      | array => rfl
    rw [Room.stage, hplace]
    exact ih fun e' he' => h e' (List.mem_cons_of_mem e he')

/-- What holds between two elements, and whether a text was staged. -/
structure Phase (t : Bool) (x : Rx σ) : Prop where
  sound : x.out.buffer.Sound
  staged : t = true → ∃ kind block start len, ⟨kind, .view block start len⟩ ∈ x.staging ∧
    block ≤ x.out.block
  fresh : t = false → x.out.buffer.size = 128 ∧ x.out.buffer.bytes = []

/-- A run over elements that leaves the buffer where the entries need it. -/
structure Exact (stream : σ → Bytes) (x : Rx σ) (es : List Element) (rest : Bytes) (y : Rx σ) :
    Prop where
  staging : y.staging = x.staging ++ (x.out.room.stage es).2
  room : y.out.room = (x.out.room.stage es).1
  bytes : y.out.buffer.bytes = x.out.buffer.bytes ++ es.flatMap Element.stored
  sound : y.out.buffer.Sound
  stream : stream y.sock = rest

theorem Exact.trans (h : Exact stream x es mid y) (h' : Exact stream y es' rest z) :
    Exact stream x (es ++ es') rest z where
  staging := by rw [h'.staging, h.staging, h.room, List.append_assoc, Room.stage_append]
  room := by rw [h'.room, h.room, Room.stage_append]
  bytes := by rw [h'.bytes, h.bytes, List.flatMap_append, List.append_assoc]
  sound := h'.sound
  stream := h'.stream

theorem Exact.phase (h : Exact stream x es mid y) (hp : Phase t x) :
    Phase (t || es.any (·.stored ≠ [])) y := by
  have hblock : y.out.block = (x.out.room.stage es).1.block := congrArg Room.block h.room
  refine ⟨h.sound, fun ht => ?_, fun ht => ?_⟩
  · rcases (Bool.or_eq_true _ _).mp ht with ht | ht
    · obtain ⟨kind, block, start, len, hmem, hle⟩ := hp.staged ht
      refine ⟨kind, block, start, len, ?_, hle.trans ?_⟩
      · rw [h.staging]
        exact List.mem_append_left _ hmem
      · rw [hblock]
        exact x.out.room.stage_block es
    · have hstored : ∃ e ∈ es, e.stored ≠ [] := by simpa using ht
      obtain ⟨kind, block, start, len, hmem, hle⟩ := x.out.room.stage_view hstored
      refine ⟨kind, block, start, len, ?_, hblock ▸ hle⟩
      rw [h.staging]
      exact List.mem_append_right _ hmem
  · obtain ⟨ht, hnone⟩ := (Bool.or_eq_false_iff).mp ht
    obtain ⟨hsize, hbytes⟩ := hp.fresh ht
    have hstored : ∀ e ∈ es, e.stored = [] := by simpa using hnone
    have hroom : x.out.room.used + 4 ≤ x.out.room.size := by
      simp only [Out.room, hsize, hbytes, List.length_nil]
      omega
    constructor
    · have := congrArg Room.size (h.room.trans (Room.stage_of_not_stored hroom hstored))
      exact this.trans hsize
    · rw [h.bytes, hbytes, List.nil_append, List.flatMap_eq_nil_iff]
      exact hstored

/-- What a reader does with elements: it reads them all as long as the buffer stays where it
has to, and loses an entry otherwise. -/
structure Reads (stream : σ → Bytes) (t : Bool) (x : Rx σ) (es : List Element) (ok : Prop)
    (rest : Bytes) (run : Option (Rx σ)) : Prop where
  keeps : ok → x.out.room.Keeps t es → ∃ y, run = some y ∧ Exact stream x es rest y
  loses : ¬(ok ∧ x.out.room.Keeps t es) → ∀ y, run = some y → Lost y

theorem Reads.append {ok ok' : Prop} {run : Option (Rx σ)} {g : Rx σ → Option (Rx σ)}
    (h : Reads stream t x es ok mid run) (hp : Phase t x)
    (hg : ∀ y, Phase (t || es.any (·.stored ≠ [])) y → stream y.sock = mid →
      Reads stream (t || es.any (·.stored ≠ [])) y es' ok' rest (g y))
    (hext : ∀ y z, g y = some z → Extends y z) :
    Reads stream t x (es ++ es') (ok ∧ ok') rest (run.bind g) := by
  by_cases hfirst : ok ∧ x.out.room.Keeps t es
  · obtain ⟨y, hy, hexact⟩ := h.keeps hfirst.1 hfirst.2
    have hnext := hg y (hexact.phase hp) hexact.stream
    rw [hy, Option.bind_some]
    constructor
    · intro hok hkeeps
      rw [Room.keeps_append, ← hexact.room] at hkeeps
      obtain ⟨z, hz, hexact'⟩ := hnext.keeps hok.2 hkeeps.2
      exact ⟨z, hz, hexact.trans hexact'⟩
    · intro hnot
      refine hnext.loses fun hrest => hnot ⟨⟨hfirst.1, hrest.1⟩, ?_⟩
      rw [Room.keeps_append, ← hexact.room]
      exact ⟨hfirst.2, hrest.2⟩
  · constructor
    · intro hok hkeeps
      rw [Room.keeps_append] at hkeeps
      exact absurd ⟨hok.1, hkeeps.1⟩ hfirst
    · intro _ z hz
      obtain ⟨y, hy, hgz⟩ := Option.bind_eq_some_iff.mp hz
      exact (h.loses hfirst y hy).extends (hext y z hgz)

theorem read_head (h : a.Lawful stream) {s : σ} {c : UInt8} (hs : stream s = c :: rest) :
    ∃ s', a.read 1 s = some ([c], s') ∧ stream s' = rest := by
  obtain ⟨s', hread, hs'⟩ := h.read s 1 (by rw [hs]; exact Nat.succ_pos _)
  rw [hs] at hread hs'
  exact ⟨s', hread, hs'⟩

/-- A text behind one that the buffer moves away from. -/
theorem Phase.lost (hp : Phase true x) (hext : Extends x y) (hblock : x.out.block < y.out.block) :
    Lost y := by
  obtain ⟨kind, block, start, len, hmem, hle⟩ := hp.staged rfl
  exact ⟨kind, block, start, len, hext.staging.subset hmem, hle.trans_lt hblock⟩

theorem Phase.new (hp : Phase false x) : x.out.New :=
  ⟨(hp.fresh rfl).2, .inr (hp.fresh rfl).1⟩

/-- Reading one element, by what is read without a growth or at the start, and where a growth
goes. -/
theorem reads_element (hp : Phase t x) {e : Element} {fuel : ℕ}
    (hexact : ¬x.out.room.Grows e ∨ x.out.New →
      ∃ y, receiveResponse a fuel x = some y ∧ Exact stream x [e] rest y)
    (hmoved : x.out.room.Grows e → ∀ y, receiveResponse a fuel x = some y →
      x.out.block < y.out.block) :
    Reads stream t x [e] True rest (receiveResponse a fuel x) := by
  constructor
  · intro _ hkeeps
    refine hexact ?_
    cases t with
    | false => exact .inr hp.new
    | true => exact .inl (hkeeps.1 rfl)
  · intro hnot y hy
    cases t with
    | false => exact absurd ⟨trivial, fun h => absurd h (by decide), trivial⟩ hnot
    | true =>
      have hgrows : x.out.room.Grows e := by
        by_contra hfree
        exact hnot ⟨trivial, fun _ => hfree, trivial⟩
      exact hp.lost (extends_receiveResponse hy) (hmoved hgrows y hy)

/-- **Reading a line** of a status, an error or an integer. -/
theorem reads_line (h : a.Lawful stream) (hp : Phase t x) {kind : UInt8} {text : Bytes}
    {fuel : ℕ} (hkind : kind = 45 ∨ kind = 58 ∨ kind = 43) (h13 : 13 ∉ text)
    (hlen : text.length ≤ 2 ^ 29) (hfuel : text.length < fuel)
    (hs : stream x.sock = kind :: (text ++ 13 :: 10 :: rest)) :
    Reads stream t x [.line kind text] True rest (receiveResponse a (fuel + 1) x) := by
  obtain ⟨s₁, hread, hs₁⟩ := read_head h hs
  have hkinds : [kind] = [45] ∨ [kind] = [58] ∨ [kind] = [43] := by
    simpa using hkind
  have hrun : receiveResponse a (fuel + 1) x = (readLine a fuel x.out s₁).bind fun o =>
      (o.1.put 0).bind fun o' => some ⟨o', x.staging ++ [⟨kind, .view o.1.block
        x.out.buffer.bytes.length (o.1.buffer.bytes.length - x.out.buffer.bytes.length)⟩],
        o.2⟩ := by
    simp only [receiveResponse, hread, Option.bind_eq_bind, Option.bind_some, if_pos hkinds]
    rfl
  have hexact : (¬x.out.room.Grows (.line kind text) ∨ x.out.New ∧ text.length + 512 < 2 ^ 30) →
      ∃ y, ((readLine a fuel x.out s₁).bind fun o =>
        (o.1.put 0).bind fun o' => some ⟨o', x.staging ++ [⟨kind, .view o.1.block
          x.out.buffer.bytes.length (o.1.buffer.bytes.length - x.out.buffer.bytes.length)⟩],
          o.2⟩) = some y ∧ Exact stream x [.line kind text] rest y := by
    intro hroomy
    obtain ⟨o, s, hline, hs', hbytes, hroom, hsound, hless⟩ :=
      readLine_spec h hp.sound hfuel h13 hroomy hs₁
    obtain ⟨o', hput, hbytes', hroom', hsound'⟩ := Out.put_spec hsound hless 0
    have hview : o.buffer.bytes.length - x.out.buffer.bytes.length = text.length := by
      rw [hbytes, List.length_append, Nat.add_sub_cancel_left]
    have hblock : o.block = (x.out.room.line text.length).block := congrArg Room.block hroom
    have hused : o.room.used = x.out.room.used + text.length := by
      simp only [Out.room, hbytes, List.length_append]
    refine ⟨_, by rw [hline, Option.bind_some, hput]; rfl, ?_, ?_, ?_, hsound', hs'⟩
    · rw [hview, hblock]
      rfl
    · show o'.room = { x.out.room.line text.length with
        used := x.out.room.used + text.length + 1 }
      rw [hroom', hused, hroom]
    · show o'.buffer.bytes = x.out.buffer.bytes ++ [Element.line kind text].flatMap Element.stored
      rw [hbytes', hbytes, List.append_assoc]
      simp [Element.stored]
  refine reads_element hp (fun hroomy => ?_) fun hgrows y hy => ?_
  · obtain ⟨y, hy, hright⟩ := hexact (hroomy.imp_right fun hnew => ⟨hnew, by omega⟩)
    exact ⟨y, hrun.trans hy, hright⟩
  · rw [hrun] at hy
    obtain ⟨⟨o, s⟩, hline, hy⟩ := Option.bind_eq_some_iff.mp hy
    obtain ⟨o', hput, hy⟩ := Option.bind_eq_some_iff.mp hy
    rw [← Option.some.inj hy]
    exact (readLine_moves h hp.sound h13 hgrows hs₁ hline).trans_le (Out.grows_block hput).1

/-- The number of a string or an array is read up to the end of its line. -/
theorem readLen_count (h : a.Lawful stream) {s : σ} {n fuel : ℕ} (hn : n < 2 ^ 63)
    (hfuel : (decimalText n).length < fuel) (hs : stream s = decimalText n ++ 13 :: 10 :: rest) :
    ∃ s', readLen a fuel s = some ((n : ℤ), s') ∧ stream s' = rest := by
  have hlen : (decimalText n).length ≤ 19 := by
    refine (decimalText_mono hn.le).trans ?_
    decide +kernel
  exact readLen_spec h hlen (decimalText_no_return n) (strtonum_decimalText hn) hfuel hs

/-- **Reading a string.** -/
theorem reads_bulk (h : a.Lawful stream) (hp : Phase t x) {text : Bytes} {fuel : ℕ}
    (hlen : text.length ≤ 2 ^ 29) (hfuel : (decimalText text.length).length < fuel)
    (hs : stream x.sock = 36 :: (decimalText text.length ++ 13 :: 10 ::
      (text ++ 13 :: 10 :: rest))) :
    Reads stream t x [.bulk text] True rest (receiveResponse a (fuel + 1) x) := by
  obtain ⟨s₁, hread, hs₁⟩ := read_head h hs
  obtain ⟨s₂, hcount, hs₂⟩ := readLen_count h (by omega) hfuel hs₁
  obtain ⟨s₃, hbody, hs₃⟩ := h.read s₂ (text.length + 2) (by rw [hs₂]; simp)
  have hbytes : text ++ 13 :: 10 :: rest = (text ++ [13, 10]) ++ rest := by simp
  have hsize : (text ++ [13, 10]).length = text.length + 2 := by simp
  rw [hs₂, hbytes, ← hsize, List.take_left] at hbody
  rw [hs₂, hbytes, ← hsize, List.drop_left] at hs₃
  rw [hsize] at hbody
  have hne : (text.length : ℤ) ≠ 0 ↔ text ≠ [] := by simp
  have hrun : receiveResponse a (fuel + 1) x = (x.out.reserve (text.length + 4)).bind fun o =>
      (o.receive (text ++ [13, 10]) text.length).bind fun o =>
        if text ≠ [] then (o.put 0).bind fun o' => some ⟨o', x.staging ++
          [⟨36, .view o.block x.out.buffer.bytes.length text.length⟩], s₃⟩
        else some ⟨o, x.staging ++ [⟨36, .null⟩], s₃⟩ := by
    simp only [receiveResponse, hread, hcount, Option.bind_eq_bind, Option.bind_some,
      Int.natCast_nonneg, if_true, Int.toNat_natCast, hbody, hne]
    rfl
  refine reads_element hp (fun hroomy => ?_) fun hgrows y hy => ?_
  · have hlt : x.out.buffer.size < x.out.buffer.bytes.length + (text.length + 4) →
        x.out.buffer.bytes.length + (text.length + 4) < 2 ^ 30 := by
      intro hgrows
      rcases hroomy with hfree | hnew
      · exact absurd hgrows hfree
      · rw [hnew.bytes, List.length_nil]
        omega
    obtain ⟨o, hreserve, hbytes₁, hroom₁, hsound₁⟩ := Out.reserve_spec hp.sound (by omega) hlt
    have hfits : o.buffer.bytes.length + (text.length + 4) ≤ o.buffer.size := by
      have := Room.reserve_size x.out.room (text.length + 4)
      rw [← hroom₁] at this
      rw [hbytes₁]
      exact this
    obtain ⟨o₂, hreceive, hbytes₂, hroom₂, hsound₂⟩ := Out.receive_spec (n := text.length)
      (d := text ++ [13, 10]) hsound₁ (by omega) (by omega)
    rw [List.take_left] at hbytes₂
    have hused₁ : o.room.used = x.out.room.used := congrArg List.length hbytes₁
    have hblock₂ : o₂.block = (x.out.room.reserve (text.length + 4)).block := by
      rw [← hroom₁]
      exact congrArg Room.block hroom₂
    rw [hrun, hreserve, Option.bind_some, hreceive, Option.bind_some]
    by_cases htext : text = []
    · rw [if_neg (not_not.mpr htext)]
      refine ⟨_, rfl, ?_, ?_, ?_, hsound₂, hs₃⟩
      · simp only [Room.stage, Room.place, if_pos htext]
      · simp only [Room.stage, Room.place, if_pos htext, hroom₂, ← hroom₁]
        simp [htext]
      · simp [hbytes₂, hbytes₁, htext, Element.stored]
    · have hless : o₂.buffer.bytes.length < o₂.buffer.size := by
        have hsize₂ : o₂.buffer.size = o.buffer.size := congrArg Room.size hroom₂
        rw [hbytes₂, hsize₂, List.length_append]
        omega
      obtain ⟨o₃, hput, hbytes₃, hroom₃, hsound₃⟩ := Out.put_spec hsound₂ hless 0
      rw [if_pos htext, hput, Option.bind_some]
      refine ⟨_, rfl, ?_, ?_, ?_, hsound₃, hs₃⟩
      · simp only [Room.stage, Room.place, if_neg htext, hblock₂]
        rfl
      · simp only [Room.stage, Room.place, if_neg htext, hroom₃, hroom₂, hused₁, ← hroom₁]
      · simp [hbytes₃, hbytes₂, hbytes₁, htext, Element.stored]
  · have hshort : x.out.buffer.capacity < text.length + 4 := by
      have hwithin := hp.sound.within
      have hcapacity := hp.sound.capacity
      have : x.out.buffer.size < x.out.buffer.bytes.length + text.length + 4 := hgrows
      omega
    rw [hrun] at hy
    obtain ⟨o, hreserve, hy⟩ := Option.bind_eq_some_iff.mp hy
    obtain ⟨o₂, hreceive, hy⟩ := Option.bind_eq_some_iff.mp hy
    have hmoved : x.out.block < o₂.block :=
      ((Out.grows_block hreserve).2 hshort).trans_le (Out.receive_block hreceive).ge
    split_ifs at hy
    · obtain ⟨o₃, hput, hy⟩ := Option.bind_eq_some_iff.mp hy
      rw [← Option.some.inj hy]
      exact hmoved.trans_le (Out.grows_block hput).1
    · rw [← Option.some.inj hy]
      exact hmoved

theorem reads_null (h : a.Lawful stream) (hp : Phase t x) {fuel : ℕ} (hfuel : 2 < fuel)
    (hs : stream x.sock = ascii "$-1\r\n" ++ rest) :
    Reads stream t x [.null] True rest (receiveResponse a (fuel + 1) x) := by
  have hhead : ascii "$-1\r\n" ++ rest = 36 :: ([45, 49] ++ 13 :: 10 :: rest) := rfl
  obtain ⟨s₁, hread, hs₁⟩ := read_head h (hs.trans hhead)
  obtain ⟨s₂, hcount, hs₂⟩ := readLen_spec (v := -1) h (by decide) (by decide) (by decide) hfuel hs₁
  have hrun : receiveResponse a (fuel + 1) x =
      some ⟨x.out, x.staging ++ [⟨36, .null⟩], s₂⟩ := by
    simp only [receiveResponse, hread, hcount, Option.bind_eq_bind, Option.bind_some]
    rfl
  constructor
  · intro _ _
    exact ⟨_, hrun, rfl, rfl, (List.append_nil _).symm, hp.sound, hs₂⟩
  · intro hnot
    exact absurd ⟨trivial, fun _ h => h, trivial⟩ hnot

theorem Reads.congr {ok ok' : Prop} {run : Option (Rx σ)} (h : Reads stream t x es ok rest run)
    (hok : ok ↔ ok') : Reads stream t x es ok' rest run :=
  ⟨fun hok' => h.keeps (hok.mpr hok'), fun hnot => h.loses fun hk => hnot ⟨hok.mp hk.1, hk.2⟩⟩

theorem reads_nil (hp : Phase t x) (hs : stream x.sock = rest) :
    Reads stream t x [] True rest (some x) := by
  constructor
  · intro _ _
    exact ⟨x, rfl, (List.append_nil _).symm, rfl, (List.append_nil _).symm, hp.sound, hs⟩
  · intro hnot
    exact absurd ⟨trivial, trivial⟩ hnot

/-- What is to be shown of a reader for every reply that is not longer than its turns. -/
def Receives (stream : σ → Bytes) (n : ℕ) (receive : Rx σ → Option (Rx σ)) : Prop :=
  ∀ (r : Resp) (t : Bool) (x : Rx σ) (rest : Bytes), r.WellFormed → r.encode.length ≤ n →
    Phase t x → stream x.sock = r.encode ++ rest →
    Reads stream t x r.flatten r.Counted rest (receive x)

theorem elements_overflow {receive : Rx σ → Option (Rx σ)} {i n : ℕ} (hi : i < 2 ^ 31)
    (hn : 2 ^ 31 ≤ i + n) : elements receive i n x = none := by
  induction n generalizing i x with
  | zero => omega
  | succ n ih =>
    rw [elements]
    cases receive x with
    | none => rfl
    | some y =>
      rw [Option.bind_some]
      split_ifs with hlast
      · rfl
      · exact ih (by omega) (by omega)

theorem reads_elements {receive : Rx σ → Option (Rx σ)} {n i : ℕ}
    (hreceive : Receives stream n receive) (hext : ∀ x y, receive x = some y → Extends x y)
    {rs : List Resp} (hwf : Resp.AllWellFormed rs) (hlen : (Resp.encodeAll rs).length ≤ n)
    (hp : Phase t x) (hs : stream x.sock = Resp.encodeAll rs ++ rest)
    (hi : i + rs.length < 2 ^ 31) :
    Reads stream t x (Resp.flattenAll rs) (Resp.AllCounted rs) rest
      (elements receive i rs.length x) := by
  induction rs generalizing t x i with
  | nil => exact reads_nil hp hs
  | cons r rs ih =>
    rw [Resp.encodeAll, List.append_assoc] at hs
    rw [Resp.encodeAll, List.length_append] at hlen
    rw [List.length_cons] at hi
    rw [List.length_cons, elements, Resp.flattenAll, Resp.AllCounted]
    have hfirst := hreceive r t x _ hwf.1 (by omega) hp hs
    refine hfirst.append hp (fun y hp' hs' => ?_) fun y z hz => ?_
    · rw [if_neg (by omega)]
      exact ih hwf.2 (by omega) hp' hs' (by omega)
    · rw [if_neg (by omega)] at hz
      exact extends_elements hext hz

theorem integerText_line {i : ℤ} (hlow : -2 ^ 63 ≤ i) (hhigh : i < 2 ^ 63) :
    13 ∉ integerText i ∧ (integerText i).length ≤ 2 ^ 29 := by
  have hlen : ∀ n : ℕ, n ≤ 2 ^ 63 → (decimalText n).length ≤ 19 := by
    intro n hn
    refine (decimalText_mono hn).trans ?_
    decide +kernel
  cases i with
  | ofNat n =>
    refine ⟨decimalText_no_return n, (hlen n ?_).trans (by decide)⟩
    have : (n : ℤ) < 2 ^ 63 := hhigh
    omega
  | negSucc n =>
    have hn : n + 1 ≤ 2 ^ 63 := by omega
    refine ⟨?_, ?_⟩
    · rw [integerText, List.mem_cons, not_or]
      exact ⟨by decide, decimalText_no_return (n + 1)⟩
    · rw [integerText, List.length_cons]
      exact (Nat.succ_le_succ (hlen (n + 1) hn)).trans (by decide)

/-- **Reading a reply**, by the turns there are for it. -/
theorem receive_spec (h : a.Lawful stream) (fuel : ℕ) :
    Receives stream fuel (receiveResponse a fuel) := by
  induction fuel with
  | zero =>
    intro r t x rest _ hlen
    have hne : r.encode ≠ [] := by
      cases r <;> simp [Resp.encode, Redis.bulk, ascii]
    exact absurd (List.eq_nil_of_length_eq_zero (Nat.le_zero.mp hlen)) hne
  | succ fuel ih =>
    intro r t x rest hwf hlen hp hs
    cases r with
    | status s =>
      rw [Resp.encode, List.length_cons, List.length_append] at hlen
      have hs' : stream x.sock = 43 :: (s ++ 13 :: 10 :: rest) := by
        rw [hs]
        simp [Resp.encode, crlf]
      exact (reads_line h hp (by decide) hwf.1 hwf.2 (by simp [crlf] at hlen; omega) hs').congr
        Iff.rfl
    | error s =>
      rw [Resp.encode, List.length_cons, List.length_append] at hlen
      have hs' : stream x.sock = 45 :: (s ++ 13 :: 10 :: rest) := by
        rw [hs]
        simp [Resp.encode, crlf]
      exact reads_line h hp (by decide) hwf.1 hwf.2 (by simp [crlf] at hlen; omega) hs'
    | integer i =>
      rw [Resp.encode, List.length_cons, List.length_append] at hlen
      have hs' : stream x.sock = 58 :: (integerText i ++ 13 :: 10 :: rest) := by
        rw [hs]
        simp [Resp.encode, crlf]
      obtain ⟨h13, hshort⟩ := integerText_line hwf.1 hwf.2
      exact reads_line h hp (by decide) h13 hshort (by simp [crlf] at hlen; omega) hs'
    | bulk s =>
      have hs' : stream x.sock =
          36 :: (decimalText s.length ++ 13 :: 10 :: (s ++ 13 :: 10 :: rest)) := by
        rw [hs]
        simp [Resp.encode, Redis.bulk, crlf]
      refine reads_bulk h hp hwf ?_ hs'
      simp only [Resp.encode, Redis.bulk, crlf, List.length_append, List.length_cons,
        List.length_nil] at hlen
      omega
    | null =>
      have hsize : (Resp.encode .null).length = 5 := rfl
      exact reads_null h hp (by omega) hs
    | array rs =>
      have hs' : stream x.sock =
          42 :: (decimalText rs.length ++ 13 :: 10 :: (Resp.encodeAll rs ++ rest)) := by
        rw [hs]
        simp [Resp.encode, crlf]
      simp only [Resp.encode, crlf, List.length_append, List.length_cons, List.length_nil] at hlen
      obtain ⟨s₁, hread, hs₁⟩ := read_head h hs'
      have hdigits : (decimalText rs.length).length < fuel := by omega
      obtain ⟨s₂, hcount, hs₂⟩ := readLen_count h hwf.1 hdigits hs₁
      have hrun : receiveResponse a (fuel + 1) x = elements (receiveResponse a fuel) 0 rs.length
          ⟨x.out, x.staging ++ [⟨42, .literal []⟩], s₂⟩ := by
        simp only [receiveResponse, hread, hcount, Option.bind_eq_bind, Option.bind_some]
        rfl
      have hmarker : Reads stream t x [.array] True (Resp.encodeAll rs ++ rest)
          (some ⟨x.out, x.staging ++ [⟨42, .literal []⟩], s₂⟩) := by
        constructor
        · intro _ _
          exact ⟨_, rfl, rfl, rfl, (List.append_nil _).symm, hp.sound, hs₂⟩
        · intro hnot
          exact absurd ⟨trivial, fun _ h => h, trivial⟩ hnot
      by_cases hcounted : rs.length < 2 ^ 31
      · have hall := hmarker.append hp (fun y hp' hs' =>
          reads_elements (i := 0) ih (fun _ _ => extends_receiveResponse) hwf.2 (by omega) hp' hs'
            (by omega)) fun y z hz => extends_elements (fun _ _ => extends_receiveResponse) hz
        rw [Option.bind_some] at hall
        rw [hrun]
        refine hall.congr ?_
        simp only [Resp.Counted, hcounted, true_and]
      · rw [hrun, elements_overflow (by decide) (by omega)]
        constructor
        · intro hok
          exact absurd hok.1 hcounted
        · intro _ y hy
          cases hy

theorem extends_receiveAll {fuel n : ℕ} (h : receiveAll a fuel n x = some y) : Extends x y := by
  induction n generalizing x with
  | zero => exact Option.some.inj h ▸ Extends.rfl
  | succ n ih =>
    obtain ⟨x₁, hx₁, h⟩ := Option.bind_eq_some_iff.mp h
    exact (extends_receiveResponse hx₁).trans (ih h)

theorem reads_receiveAll (h : a.Lawful stream) {fuel : ℕ} {rs : List Resp}
    (hwf : Resp.AllWellFormed rs) (hlen : (Resp.encodeAll rs).length ≤ fuel) (hp : Phase t x)
    (hs : stream x.sock = Resp.encodeAll rs ++ rest) :
    Reads stream t x (Resp.flattenAll rs) (Resp.AllCounted rs) rest
      (receiveAll a fuel rs.length x) := by
  induction rs generalizing t x with
  | nil => exact reads_nil hp hs
  | cons r rs ih =>
    rw [Resp.encodeAll, List.append_assoc] at hs
    rw [Resp.encodeAll, List.length_append] at hlen
    have hfirst := receive_spec h fuel r t x _ hwf.1 (by omega) hp hs
    exact hfirst.append hp (fun y hp' hs' => ih hwf.2 (by omega) hp' hs')
      fun y z hz => extends_receiveAll hz

end Replies

/-! ### What can be read -/

section Readable

variable {es : List Element}

/-- What an entry for an element is taken for. -/
def Element.seen (e : Element) : Element := if e = .bulk [] then .null else e

theorem Room.place_used (r : Room) (e : Element) :
    (r.place e).1.used = r.used + e.stored.length := by
  cases e with
  | line kind s =>
    simp only [Room.place, Element.stored, List.length_append, List.length_singleton]
    omega
  | bulk s =>
    by_cases hs : s = []
    · simp only [Room.place, Element.stored, if_pos hs, Room.reserve_used, List.length_nil,
        Nat.add_zero]
    · simp only [Room.place, Element.stored, if_neg hs, List.length_append, List.length_singleton]
      omega
  | null => rfl
  | array => rfl

theorem Room.place_settled {r : Room} {e : Element} (h : ¬r.Grows e) :
    (r.place e).1.block = r.block := by
  cases e with
  | line kind s =>
    have hfree₁ : ¬r.size < r.used + 255 := fun hgrows => h (.inl hgrows)
    have hfree₂ : ¬r.size ≤ r.used + s.length := fun hgrows => h (.inr hgrows)
    show (r.line s.length).block = r.block
    rw [Room.line, Room.reserve, if_neg hfree₁, Room.chunks, if_pos (by omega)]
  | bulk s =>
    have hfree : ¬r.size < r.used + (s.length + 4) := h
    simp only [Room.place, Room.reserve, if_neg hfree]
    split_ifs <;> rfl
  | null => rfl
  | array => rfl

theorem Room.stage_settled {r : Room} (h : r.Keeps true es) : (r.stage es).1.block = r.block := by
  induction es generalizing r with
  | nil => rfl
  | cons e es ih =>
    rw [Room.stage, ih h.2, Room.place_settled (h.1 rfl)]

/-- **The entries can be read** in a buffer that stays where it is from the first text on. -/
theorem readable {out : Out} {t : Bool} {r : Room} {before : Bytes} (h : r.Keeps t es)
    (hkind : ∀ kind s, .line kind s ∈ es → kind ≠ 36) (hbefore : before.length = r.used)
    (hbytes : out.buffer.bytes = before ++ es.flatMap Element.stored)
    (hblock : out.block = (r.stage es).1.block) :
    (r.stage es).2.map (Reply.element out) = es.map fun e => some e.seen := by
  induction es generalizing t r before with
  | nil => rfl
  | cons e es ih =>
    rw [List.flatMap_cons, ← List.append_assoc] at hbytes
    have hused : (before ++ e.stored).length = (r.place e).1.used := by
      rw [List.length_append, hbefore, r.place_used]
    have hrest := ih h.2 (fun kind s hmem => hkind kind s (List.mem_cons_of_mem e hmem)) hused
      hbytes hblock
    rw [Room.stage, List.map_cons, List.map_cons, hrest]
    congr 1
    have hslice : ∀ s, e.stored = s ++ [0] →
        (out.buffer.bytes.drop r.used).take s.length = s := by
      intro s hs
      rw [hbytes, hs, ← hbefore, List.append_assoc, List.drop_left, List.append_assoc,
        List.take_left]
    have hstay : e.stored ≠ [] → (r.place e).1.block = out.block := by
      intro hstored
      have hkeeps := h.2
      rw [decide_eq_true hstored, Bool.or_true] at hkeeps
      rw [hblock, Room.stage, Room.stage_settled hkeeps]
    cases e with
    | line kind s =>
      have hs := hslice s rfl
      have hread : (r.line s.length).block = out.block := hstay (by simp [Element.stored])
      have hne : kind ≠ 36 := hkind kind s List.mem_cons_self
      simp only [Room.place, Reply.element, Text.read, hread, if_true, hs, Option.map_some,
        if_neg hne]
      rfl
    | bulk s =>
      by_cases hempty : s = []
      · simp only [Room.place, Reply.element, Element.seen, hempty, if_true]
      · have hstored : (Element.bulk s).stored = s ++ [0] := if_neg hempty
        have hs := hslice s hstored
        have hread := hstay (by rw [hstored]; simp)
        simp only [Room.place, if_neg hempty] at hread
        simp only [Room.place, if_neg hempty, Reply.element, Text.read, hread, if_true, hs,
          Option.map_some, Element.seen, Element.bulk.injEq]
    | null => rfl
    | array => rfl

theorem not_readable {x : Rx σ} (h : Lost x) :
    ∃ p ∈ x.staging, Reply.element x.out p = none := by
  obtain ⟨kind, block, start, len, hmem, hlt⟩ := h
  refine ⟨_, hmem, ?_⟩
  simp only [Reply.element, Text.read, if_neg hlt.ne, Option.map_none]

mutual

/-- No line is taken for a string. -/
theorem flatten_kind : ∀ (r : Resp) {kind : UInt8} {s : Bytes},
    .line kind s ∈ r.flatten → kind ≠ 36
  | .status _, _, _, h => by
    obtain ⟨rfl, _⟩ := Element.line.inj (List.mem_singleton.mp h)
    decide
  | .error _, _, _, h => by
    obtain ⟨rfl, _⟩ := Element.line.inj (List.mem_singleton.mp h)
    decide
  | .integer _, _, _, h => by
    obtain ⟨rfl, _⟩ := Element.line.inj (List.mem_singleton.mp h)
    decide
  | .bulk _, _, _, h => by cases List.mem_singleton.mp h
  | .null, _, _, h => by cases List.mem_singleton.mp h
  | .array rs, _, _, h => by
    rcases List.mem_cons.mp h with h | h
    · cases h
    · exact flattenAll_kind rs h

theorem flattenAll_kind : ∀ (rs : List Resp) {kind : UInt8} {s : Bytes},
    .line kind s ∈ Resp.flattenAll rs → kind ≠ 36
  | [], _, _, h => by cases h
  | r :: rs, _, _, h => by
    rcases List.mem_append.mp h with h | h
    · exact flatten_kind r h
    · exact flattenAll_kind rs h

end

/-- `get` of one entry that stands for a string. -/
theorem get_bulk {r : Response} {v : Bytes} (hne : v ≠ [])
    (h : r.entries.map (Reply.element r.out) = [some (.bulk v)]) : get r = some v := by
  obtain ⟨p, hp, helement⟩ := List.map_eq_singleton_iff.mp h
  obtain ⟨kind, data⟩ := p
  cases data with
  | null => cases helement
  | literal s => cases helement
  | view block start len =>
    obtain ⟨s, hread, hs⟩ := Option.map_eq_some_iff.mp helement
    split_ifs at hs with hkind
    obtain rfl := Element.bulk.inj hs
    have hlen : len ≠ 0 := by
      rintro rfl
      simp only [Text.read] at hread
      split_ifs at hread
      exact hne (Option.some.inj hread).symm
    have hok : r.ok = true := by
      simp only [Response.ok, hp, Reply.ok, Text.len]
      have hkind' : kind = 36 := hkind
      simp [hkind', hlen]
    rw [get, if_pos hok, hp]
    exact hread

end Readable

section Responses

variable {rs : List Resp} {s : σ} {rest : Bytes}

/-- The response that `dosend` starts with. -/
theorem exists_start (s : σ) : ∃ x : Rx σ, Phase false x ∧ x.out.room = ⟨128, 0, 0⟩ ∧
    x.staging = [] ∧ x.sock = s ∧
    ∀ (a : Adaptor σ) (fuel nrps : ℕ), dosend a fuel nrps s =
      (receiveAll a fuel nrps x).map fun y => (⟨y.out, y.staging⟩, y.sock) := by
  obtain ⟨b, hb, hsize, hsound, hnew⟩ := exists_new (.inr rfl)
  have hbytes : b.bytes = [] := hnew.bytes
  refine ⟨⟨⟨b, 0⟩, [], s⟩, ⟨hsound, fun h => ?_, fun _ => ⟨hsize, hbytes⟩⟩, ?_, rfl, rfl, ?_⟩
  · cases h
  · simp only [Out.room, hsize, hbytes, List.length_nil]
  · intro a fuel nrps
    rw [dosend, hb]
    cases hrun : receiveAll a fuel nrps ⟨⟨b, 0⟩, [], s⟩ with
    | none => simp only [Option.bind_eq_bind, Option.bind_some, hrun]; rfl
    | some y => simp only [Option.bind_eq_bind, Option.bind_some, hrun]; rfl

/-- The entries of a response that was read to its end. -/
theorem Exact.entries {x y : Rx σ} (h : Exact stream x (Resp.flattenAll rs) rest y)
    (hstaging : x.staging = []) (hk : x.out.room.Keeps false (Resp.flattenAll rs)) :
    y.staging.map (Reply.element y.out) = (Resp.flattenAll rs).map fun e => some e.seen := by
  rw [h.staging, hstaging, List.nil_append]
  exact readable hk (fun kind s hmem => flattenAll_kind rs hmem) rfl h.bytes
    (congrArg Room.block h.room)

/-- What the reader does as long as the buffer stays where it has to. -/
theorem answers_of_keeps (h : a.Lawful stream) (hwf : Resp.AllWellFormed rs)
    (hs : stream s = Resp.encodeAll rs ++ rest) (hcounted : Resp.AllCounted rs)
    (hnonempty : NonEmpty rs) (hk : Room.Keeps false ⟨128, 0, 0⟩ (Resp.flattenAll rs)) :
    Answers a stream rs s rest := by
  obtain ⟨x, hp, hroom, hstaging, hsock, hdosend⟩ := exists_start s
  refine ⟨(Resp.encodeAll rs).length, fun fuel hfuel => ?_⟩
  rw [← hroom] at hk
  rw [← hsock] at hs
  obtain ⟨y, hy, hexact⟩ := (reads_receiveAll h hwf hfuel hp hs).keeps hcounted hk
  have hseen : (Resp.flattenAll rs).map (fun e => some e.seen) =
      (Resp.flattenAll rs).map some := by
    refine List.map_congr_left fun e he => ?_
    have hne : e ≠ .bulk [] := fun heq => hnonempty (heq ▸ he)
    rw [Element.seen, if_neg hne]
  have hentries := (hexact.entries hstaging hk).trans hseen
  refine ⟨⟨y.out, y.staging⟩, y.sock, ?_, hexact.stream, hentries, ?_, ?_⟩
  · rw [hdosend, hy]
    rfl
  · rintro v rfl
    refine get_bulk ?_ hentries
    rintro rfl
    exact hnonempty List.mem_cons_self
  · rintro rfl
    have hnull : y.staging = [⟨36, .null⟩] := by
      rw [hexact.staging, hstaging]
      rfl
    simp only [get, Response.ok, hnull]
    rfl

/-- And what it needs. -/
theorem keeps_of_answers (h : a.Lawful stream) (hwf : Resp.AllWellFormed rs)
    (hs : stream s = Resp.encodeAll rs ++ rest) (hans : Answers a stream rs s rest) :
    Resp.AllCounted rs ∧ NonEmpty rs ∧
      Room.Keeps false ⟨128, 0, 0⟩ (Resp.flattenAll rs) := by
  obtain ⟨x, hp, hroom, hstaging, hsock, hdosend⟩ := exists_start s
  obtain ⟨n, hans⟩ := hans
  obtain ⟨resp, s', hrun, _, hentries, _⟩ :=
    hans (max n (Resp.encodeAll rs).length) (le_max_left _ _)
  rw [hdosend] at hrun
  obtain ⟨y, hy, hresp⟩ := Option.map_eq_some_iff.mp hrun
  obtain ⟨rfl, rfl⟩ := Prod.mk.inj hresp
  rw [← hsock] at hs
  have hreads := reads_receiveAll h hwf (le_max_right n _) hp hs
  by_cases hk : Resp.AllCounted rs ∧ x.out.room.Keeps false (Resp.flattenAll rs)
  · obtain ⟨y', hy', hexact⟩ := hreads.keeps hk.1 hk.2
    obtain rfl := Option.some.inj (hy.symm.trans hy')
    refine ⟨hk.1, fun hmem => ?_, hroom ▸ hk.2⟩
    have hseen := (hexact.entries hstaging hk.2).symm.trans hentries
    have hbulk := List.map_inj_left.mp hseen _ hmem
    cases hbulk
  · -- an entry that cannot be read
    obtain ⟨p, hmem, hnone⟩ := not_readable (hreads.loses hk y hy)
    have hin : none ∈ (Resp.flattenAll rs).map some := by
      rw [← hentries, ← hnone]
      exact List.mem_map_of_mem hmem
    obtain ⟨e, _, he⟩ := List.mem_map.mp hin
    cases he

end Responses

/-- A socket on which the whole stream is there at once. -/
def wire : Adaptor Bytes where
  read n s := if n ≤ s.length then some (s.take n, s.drop n) else none
  receiveUntil cap c s :=
    if c ∈ s.take cap then .found (s.take (s.idxOf c + 1)) (s.drop (s.idxOf c + 1))
    else if cap ≤ s.length then .full (s.take cap) (s.drop cap)
    else .failed

theorem wire_lawful : wire.Lawful id where
  read s n hn := ⟨s.drop n, if_pos hn, rfl⟩
  found s cap c u v hs hc hcap := by
    obtain rfl : s = u ++ c :: v := hs
    have hindex : (u ++ c :: v).idxOf c = u.length := by
      rw [List.idxOf_append_of_notMem hc, List.idxOf_cons_self, Nat.add_zero]
    have hmem : c ∈ (u ++ c :: v).take cap := by
      obtain ⟨k, rfl⟩ := Nat.exists_eq_add_of_lt hcap
      rw [Nat.add_assoc, List.take_length_add_append, List.take_succ_cons]
      exact List.mem_append_right _ List.mem_cons_self
    have hsplit : u ++ c :: v = (u ++ [c]) ++ v := by simp
    have hlen : u.length + 1 = (u ++ [c]).length := by simp
    refine ⟨v, ?_, rfl⟩
    simp only [wire, if_pos hmem, hindex]
    rw [hsplit, hlen, List.take_left, List.drop_left]
  full s cap c _ hcap hc := by
    have hno : c ∉ s.take cap := hc
    refine ⟨s.drop cap, ?_, rfl⟩
    simp only [wire, if_neg hno, if_pos (show cap ≤ s.length from hcap)]
    rfl

end Redis

end Suil
