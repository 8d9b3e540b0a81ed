/-
Commands for a Redis server.

A `RedisClient::Command` writes its request into a buffer as it is given its
parameters.  The constructor writes the head of the array, `*` and the number of
bulk strings, from the number of its own arguments; `operator<<` and `params`
append further bulk strings and leave the head as it is.

* `addparam_eq` — a parameter is a sequence of writes to the buffer;
* `writes_iff` — a sequence of writes leaves its whole text exactly when the
  buffer can grow to hold it;
* `prepared_iff` — the prepared bytes are the array of all arguments exactly
  when nothing was appended and the buffer could hold them.
-/
import Suil.Buffer

namespace Suil.Redis

/-- `REDIS_CRLF`. -/
def crlf : Bytes := [13, 10]

/-- A parameter, by the `addparam` overload it goes to.  A floating-point value
is the text `std::to_string` gives for it; a `Blob` passes its bytes as `Data`
does. -/
inductive Param where
  | string (s : Bytes)
  | integer (i : ℤ)
  | real (text : Bytes)
  | data (d : Bytes)
deriving DecidableEq, Repr

/-- `Buffer::operator<<(const String&)`. -/
def appendString (b : Buffer) (s : Bytes) : Option Buffer := if s = [] then some b else b.append s

/-- `Command::addparam(const String&)`. -/
def addString (b : Buffer) (s : Bytes) : Option Buffer := do
  let b ← b.append [36]
  let b ← b.append (decimalText s.length)
  let b ← b.append crlf
  let b ← appendString b s
  b.append crlf

/-- `Command::addHexParam`. -/
def addHexParam (b : Buffer) (d : Bytes) : Option Buffer := do
  let b ← b.append [36]
  let b ← b.append (decimalText (2 * d.length))
  let b ← b.append crlf
  let b ← b.addHex d
  b.append crlf

/-- `Command::addparam`. -/
def addparam (b : Buffer) : Param → Option Buffer
  | .string s => addString b s
  | .integer i => addString b (integerText i)
  | .real text => addString b text
  | .data d => addHexParam b d

/-- `Command::addparams`. -/
def addparams (b : Buffer) : List Param → Option Buffer
  | [] => some b
  | p :: ps => (addparam b p).bind fun b => addparams b ps

/-- `Command::prepare`. -/
def prepare (b : Buffer) (cmd : Bytes) (params : List Param) : Option Buffer := do
  let b ← b.append [42]
  let b ← b.append (decimalText (1 + params.length))
  let b ← b.append crlf
  addparams b (.string cmd :: params)

/-- A later call on the command: `operator<<` or `params`. -/
inductive Later where
  | stream (p : Param)
  | params (p : Param) (ps : List Param)
deriving DecidableEq, Repr

def Later.args : Later → List Param
  | .stream p => [p]
  | .params p ps => p :: ps

/-- `Command::prepared` of a command made from `cmd` and `params` on which the
`later` calls were made. -/
def prepared (cmd : Bytes) (params : List Param) (later : List Later) : Option Bytes := do
  let b ← Buffer.new (32 + cmd.length)
  let b ← prepare b cmd params
  let b ← later.foldlM (fun b call => addparams b call.args) b
  pure b.bytes

/-- The bytes a parameter stands for in the request. -/
def Param.text : Param → Bytes
  | .string s => s
  | .integer i => integerText i
  | .real text => text
  | .data d => hexText d

/-- A RESP bulk string. -/
def bulk (s : Bytes) : Bytes := [36] ++ decimalText s.length ++ crlf ++ s ++ crlf

/-- A RESP array of bulk strings. -/
def respArray (args : List Bytes) : Bytes :=
  [42] ++ decimalText args.length ++ crlf ++ args.flatMap bulk

/-- The prepared buffer is the array of the command and of every argument it was
ever given. -/
def WellFormed (cmd : Bytes) (params : List Param) (later : List Later) : Prop :=
  prepared cmd params later =
    some (respArray ((.string cmd :: params ++ later.flatMap Later.args).map Param.text))

instance (cmd : Bytes) (params : List Param) (later : List Later) :
    Decidable (WellFormed cmd params later) :=
  inferInstanceAs (Decidable (_ = _))

/-- One write to the buffer. -/
inductive Piece where
  | text (d : Bytes)
  | hex (d : Bytes)
deriving DecidableEq, Repr

namespace Piece

/-- What the write leaves in the buffer when all goes well. -/
def bytes : Piece → Bytes
  | text d => d
  | hex d => hexText d

/-- How much room the write asks for when `room` bytes are free. -/
def want (room : ℕ) : Piece → ℕ
  | text d => d.length
  | hex d => 2 * d.length - room

def isText : Piece → Bool
  | text _ => true
  | hex _ => false

def write (b : Buffer) : Piece → Option Buffer
  | text d => b.append d
  | hex d => b.addHex d

end Piece

/-- The texts of a sequence of writes. -/
def written (ws : List Piece) : Bytes := ws.flatMap Piece.bytes

def writes (b : Buffer) : List Piece → Option Buffer
  | [] => some b
  | w :: ws => (w.write b).bind fun b => writes b ws

/-- Whether a buffer of the given size of which `used` bytes are used holds the
writes, growing below 2^32; the last bytes may end on the spare one behind it. -/
def Fits : ℕ → ℕ → List Piece → Prop
  | _, _, [] => True
  | size, used, w :: ws =>
    if used + w.bytes.length ≤ size then Fits size (used + w.bytes.length) ws
    else if Buffer.grown size (w.want (size - used)) < 2 ^ 32 then
      Fits (Buffer.grown size (w.want (size - used))) (used + w.bytes.length) ws
    else w.isText = true ∧ used + w.bytes.length = size + 1 ∧ ws = []

theorem writes_cons (b : Buffer) (w v : Piece) (ws : List Piece) :
    writes b (w :: v :: ws) = (w.write b).bind fun b => writes b (v :: ws) :=
  rfl

theorem writes_singleton (b : Buffer) (w : Piece) : writes b [w] = w.write b :=
  Option.bind_fun_some _

theorem writes_append (b : Buffer) (xs ys : List Piece) :
    writes b (xs ++ ys) = (writes b xs).bind fun b => writes b ys := by
  induction xs generalizing b with
  | nil => rfl
  | cons w ws ih =>
    rw [List.cons_append, writes, writes, Option.bind_assoc]
    exact congrArg _ (funext fun b => ih b)

/-- Every write adds its text, or less. -/
theorem write_bytes {w : Piece} {b b' : Buffer} (h : w.write b = some b') :
    b'.bytes = b.bytes ++ w.bytes ∨ b'.bytes.length < b.bytes.length + w.bytes.length := by
  cases w with
  | text d => exact Or.inl (Buffer.append_bytes h)
  | hex d =>
    rw [Piece.bytes, length_hexText]
    exact (Buffer.addHex_bytes h).imp_left And.left

theorem writes_bytes {ws : List Piece} {b b' : Buffer} (h : writes b ws = some b') :
    b'.bytes = b.bytes ++ written ws ∨
      b'.bytes.length < b.bytes.length + (written ws).length := by
  induction ws generalizing b with
  | nil =>
    obtain rfl := Option.some.inj h
    simp [written]
  | cons w ws ih =>
    obtain ⟨b₁, hw, hws⟩ := Option.bind_eq_some_iff.mp h
    rw [written, List.flatMap_cons, ← written, List.length_append]
    rcases write_bytes hw with hb₁ | hb₁ <;> rcases ih hws with hb' | hb'
    · left
      rw [hb', hb₁, List.append_assoc]
    · right
      rw [hb₁, List.length_append] at hb'
      omega
    · right
      rw [hb', List.length_append]
      omega
    · right
      omega

/-- A write that falls short is not made up for. -/
theorem writes_ne_of_short {w : Piece} {ws : List Piece} {b b₁ b' : Buffer}
    (hshort : b₁.bytes.length < b.bytes.length + w.bytes.length) (h : writes b₁ ws = some b') :
    b'.bytes ≠ b.bytes ++ written (w :: ws) := by
  intro heq
  have hlen := congrArg List.length heq
  rw [written, List.flatMap_cons, ← written, List.length_append, List.length_append] at hlen
  rcases writes_bytes h with hb' | hb'
  · rw [hb', List.length_append] at hlen
    omega
  · omega

theorem write_of_fits {w : Piece} {b : Buffer} (h : b.Sound)
    (hfits : b.bytes.length + w.bytes.length ≤ b.size) :
    ∃ b', w.write b = some b' ∧ b'.bytes = b.bytes ++ w.bytes ∧ b'.size = b.size ∧ b'.Sound := by
  cases w with
  | text d => exact Buffer.append_of_fits h hfits
  | hex d =>
    rw [Piece.bytes, length_hexText] at hfits
    exact Buffer.addHex_of_fits h hfits

theorem write_of_grows {w : Piece} {b : Buffer} (h : b.Sound)
    (hfull : b.size < b.bytes.length + w.bytes.length)
    (hlt : Buffer.grown b.size (w.want (b.size - b.bytes.length)) < 2 ^ 32) :
    ∃ b', w.write b = some b' ∧ b'.bytes = b.bytes ++ w.bytes ∧
      b'.size = Buffer.grown b.size (w.want (b.size - b.bytes.length)) ∧ b'.Sound := by
  cases w with
  | text d => exact Buffer.append_of_grows h hfull hlt
  | hex d =>
    rw [Piece.bytes, length_hexText] at hfull
    exact Buffer.addHex_of_grows h hfull hlt

/-- Once the spare byte is taken, every further write falls short or fails. -/
theorem write_spent {w : Piece} {b b' : Buffer} (h : b.Spent) (hw : w ≠ .text [])
    (hb' : w.write b = some b') : b'.bytes.length < b.bytes.length + w.bytes.length := by
  cases w with
  | text d => exact absurd hb' (Buffer.append_spent h fun hd => hw (by rw [hd]))
  | hex d =>
    rw [Piece.bytes, length_hexText]
    exact Buffer.addHex_short (Or.inl h) hb'

/-- A sequence of writes leaves its whole text exactly when the buffer can grow to
hold it. -/
theorem writes_iff {ws : List Piece} {b : Buffer} (h : b.Sound)
    (hne : ∀ w ∈ ws, w ≠ .text []) :
    (∃ b', writes b ws = some b' ∧ b'.bytes = b.bytes ++ written ws) ↔
      Fits b.size b.bytes.length ws := by
  induction ws generalizing b with
  | nil => simp [writes, written, Fits]
  | cons w ws ih =>
    have hne' : ∀ v ∈ ws, v ≠ .text [] := fun v hv => hne v (List.mem_cons_of_mem _ hv)
    have hcons : written (w :: ws) = w.bytes ++ written ws := List.flatMap_cons
    -- a write in full reduces the question to the rest of the writes
    have hrest : ∀ {b₁ : Buffer}, w.write b = some b₁ → b₁.bytes = b.bytes ++ w.bytes →
        b₁.Sound → ((∃ b', writes b (w :: ws) = some b' ∧
          b'.bytes = b.bytes ++ written (w :: ws)) ↔
            Fits b₁.size (b.bytes.length + w.bytes.length) ws) := by
      intro b₁ hw hbytes hsound
      rw [writes, hw, Option.bind_some, hcons, ← List.append_assoc, ← hbytes,
        ih hsound hne', hbytes, List.length_append]
    rw [Fits]
    split_ifs with hfits hlt
    · obtain ⟨b₁, hw, hbytes, hsize, hsound⟩ := write_of_fits h hfits
      rw [hrest hw hbytes hsound, hsize]
    · obtain ⟨b₁, hw, hbytes, hsize, hsound⟩ := write_of_grows h (not_le.mp hfits) hlt
      rw [hrest hw hbytes hsound, hsize]
    · rw [not_le] at hfits
      rw [not_lt] at hlt
      cases w with
      | hex d =>
        refine iff_of_false ?_ fun hspare => Bool.noConfusion hspare.1
        rintro ⟨b', hb', hbytes⟩
        obtain ⟨b₁, hw, hws⟩ := Option.bind_eq_some_iff.mp hb'
        rw [Piece.bytes, length_hexText] at hfits
        have hshort := Buffer.addHex_short (Or.inr ⟨h, hfits, hlt⟩) hw
        exact writes_ne_of_short (by rwa [Piece.bytes, length_hexText]) hws hbytes
      | text d =>
        obtain ⟨hspent, hspare⟩ := Buffer.append_wrapped h hfits hlt
        constructor
        · rintro ⟨b', hb', hbytes⟩
          obtain ⟨b₁, hw, hws⟩ := Option.bind_eq_some_iff.mp hb'
          refine ⟨rfl, hspare.mp ⟨b₁, hw⟩, ?_⟩
          cases ws with
          | nil => rfl
          | cons v vs =>
            obtain ⟨b₂, hv, hvs⟩ := Option.bind_eq_some_iff.mp hws
            have hshort := write_spent (hspent b₁ hw) (hne' v List.mem_cons_self) hv
            refine absurd ?_ (writes_ne_of_short hshort hvs)
            rw [hbytes, hcons, ← List.append_assoc, Buffer.append_bytes hw]
            rfl
        · rintro ⟨-, hend, rfl⟩
          obtain ⟨b₁, hw⟩ := hspare.mpr hend
          refine ⟨b₁, ?_, ?_⟩
          · rw [writes, show Piece.write b (.text d) = some b₁ from hw, Option.bind_some, writes]
          · rw [Buffer.append_bytes hw, hcons, written, List.flatMap_nil, List.append_nil]

/-- The writes of a bulk string. -/
def bulkPieces (s : Bytes) : List Piece :=
  [.text [36], .text (decimalText s.length), .text crlf] ++
    (if s = [] then [] else [.text s]) ++ [.text crlf]

def Param.pieces : Param → List Piece
  | .string s => bulkPieces s
  | .integer i => bulkPieces (integerText i)
  | .real text => bulkPieces text
  | .data d => [.text [36], .text (decimalText (2 * d.length)), .text crlf, .hex d, .text crlf]

/-- The writes of a command: the head of the array and the arguments. -/
def pieces (count : ℕ) (args : List Param) : List Piece :=
  [.text [42], .text (decimalText count), .text crlf] ++ args.flatMap Param.pieces

theorem addString_eq (b : Buffer) (s : Bytes) : addString b s = writes b (bulkPieces s) := by
  rw [addString, bulkPieces]
  split_ifs with hs <;>
    simp only [appendString, hs, if_true, if_false, writes_cons, writes_singleton, Piece.write,
      List.cons_append, List.nil_append, Option.bind_eq_bind, Option.bind_some]

theorem addparam_eq (b : Buffer) (p : Param) : addparam b p = writes b p.pieces := by
  cases p with
  | data d =>
    simp only [addparam, addHexParam, Param.pieces, writes_cons, writes_singleton, Piece.write,
      Option.bind_eq_bind]
  | _ => rw [addparam, addString_eq, Param.pieces]

theorem addparams_eq (b : Buffer) (ps : List Param) :
    addparams b ps = writes b (ps.flatMap Param.pieces) := by
  induction ps generalizing b with
  | nil => rfl
  | cons p ps ih =>
    rw [addparams, List.flatMap_cons, writes_append, addparam_eq]
    exact congrArg _ (funext fun b => ih b)

theorem prepare_eq (b : Buffer) (cmd : Bytes) (params : List Param) :
    prepare b cmd params = writes b (pieces (1 + params.length) (.string cmd :: params)) := by
  rw [prepare, pieces, writes_append]
  simp only [writes_cons, writes_singleton, Piece.write, Option.bind_eq_bind, Option.bind_assoc,
    addparams_eq]

theorem later_eq (b : Buffer) (later : List Later) :
    later.foldlM (fun b call => addparams b call.args) b
      = writes b ((later.flatMap Later.args).flatMap Param.pieces) := by
  induction later generalizing b with
  | nil => rfl
  | cons call later ih =>
    rw [List.foldlM_cons, List.flatMap_cons, List.flatMap_append, writes_append, addparams_eq]
    exact congrArg _ (funext fun b => ih b)

/-- The size of the buffer a command starts with. -/
def startSize (cmd : Bytes) : ℕ := aligned ((32 + cmd.length) % 2 ^ 32) % 2 ^ 32

/-- A command is one sequence of writes; its count is that of the constructor. -/
theorem prepared_eq (cmd : Bytes) (params : List Param) (later : List Later) :
    ∃ b : Buffer, b.Sound ∧ b.bytes = [] ∧ b.size = startSize cmd ∧
      prepared cmd params later = (writes b (pieces (1 + params.length)
        (.string cmd :: params ++ later.flatMap Later.args))).map Buffer.bytes := by
  obtain ⟨b, hnew, hbytes, hsize, hsound⟩ := Buffer.new_eq_some (32 + cmd.length)
  refine ⟨b, hsound, hbytes, hsize, ?_⟩
  rw [prepared, hnew, Option.bind_eq_bind, Option.bind_some, prepare_eq]
  simp only [later_eq, pieces, List.flatMap_append, ← List.append_assoc, writes_append]
  simp only [Option.map_eq_bind, Option.bind_assoc]
  rfl

theorem written_append (xs ys : List Piece) : written (xs ++ ys) = written xs ++ written ys :=
  List.flatMap_append

theorem written_bulkPieces (s : Bytes) : written (bulkPieces s) = bulk s := by
  rw [bulkPieces, bulk]
  split_ifs with hs <;> simp [written, Piece.bytes, hs]

theorem written_pieces_param (p : Param) : written p.pieces = bulk p.text := by
  cases p with
  | data d => simp [written, Param.pieces, Param.text, Piece.bytes, bulk, length_hexText]
  | _ => exact written_bulkPieces _

/-- What a command writes when all goes well. -/
theorem written_pieces (count : ℕ) (args : List Param) :
    written (pieces count args) =
      [42] ++ decimalText count ++ crlf ++ (args.map Param.text).flatMap bulk := by
  rw [pieces, written_append, List.flatMap_map]
  congr 1
  rw [written, List.flatMap_assoc]
  exact List.flatMap_congr fun p _ => written_pieces_param p

theorem pieces_ne_empty (count : ℕ) (args : List Param) :
    ∀ w ∈ pieces count args, w ≠ .text [] := by
  have hbulk : ∀ s, ∀ w ∈ bulkPieces s, w ≠ .text [] := by
    intro s w hw
    rw [bulkPieces] at hw
    split_ifs at hw with hs <;>
      simp only [List.cons_append, List.nil_append, List.mem_cons, List.not_mem_nil,
        or_false] at hw <;>
      rcases hw with rfl | rfl | rfl | rfl | rfl <;> simp [decimalText_ne_nil, crlf, hs]
  intro w hw
  rw [pieces, List.mem_append, List.mem_flatMap] at hw
  rcases hw with hw | ⟨p, -, hp⟩
  · simp only [List.mem_cons, List.not_mem_nil, or_false] at hw
    rcases hw with rfl | rfl | rfl <;> simp [decimalText_ne_nil, crlf]
  · cases p with
    | data d =>
      simp only [Param.pieces, List.mem_cons, List.not_mem_nil, or_false] at hp
      rcases hp with rfl | rfl | rfl | rfl | rfl <;> simp [decimalText_ne_nil, crlf]
    | _ => exact hbulk _ w hp

/-- The prepared buffer is the array of its arguments exactly when all of them were
given to the constructor and the buffer could grow to hold them. -/
theorem prepared_iff (cmd : Bytes) (params : List Param) (later : List Later) :
    WellFormed cmd params later ↔
      later = [] ∧ Fits (startSize cmd) 0 (pieces (1 + params.length) (.string cmd :: params)) := by
  obtain ⟨b, hsound, hbytes, hsize, hprepared⟩ := prepared_eq cmd params later
  have hwrites := writes_iff hsound
    (pieces_ne_empty (1 + params.length) (.string cmd :: params))
  rw [hbytes, hsize, List.length_nil, List.nil_append, written_pieces] at hwrites
  rw [WellFormed, hprepared, Option.map_eq_some_iff, ← hwrites, respArray, List.length_map]
  cases later with
  | nil =>
    rw [List.flatMap_nil, List.append_nil, List.length_cons, Nat.add_comm params.length]
    exact (and_iff_right rfl).symm
  | cons call later =>
    refine iff_of_false ?_ fun hright => List.cons_ne_nil _ _ hright.1
    rintro ⟨b', hb', htext⟩
    -- the head counts fewer bulk strings than there are, in a number that is not longer
    have hcall : 0 < call.args.length := by cases call <;> simp [Later.args]
    have hcount : 1 + params.length < (Param.string cmd :: params ++
        (call :: later).flatMap Later.args).length := by
      simp only [List.length_append, List.length_cons, List.flatMap_cons]
      omega
    have hlen := decimalText_mono hcount.le
    rcases writes_bytes hb' with hfull | hshort
    · rw [hbytes, List.nil_append, written_pieces, htext] at hfull
      have hhead := List.append_cancel_right hfull
      have htexts := decimalText_injective (List.append_cancel_left (List.append_cancel_right hhead))
      omega
    · rw [hbytes, written_pieces, htext] at hshort
      simp only [List.length_append, List.length_nil] at hshort hlen
      omega

/-- A count of one, and two bulk strings. -/
theorem not_wellFormed :
    prepared (ascii "GET") [] [.stream (.string (ascii "k"))]
        = some (ascii "*1\r\n$3\r\nGET\r\n$1\r\nk\r\n") ∧
      ¬ WellFormed (ascii "GET") [] [.stream (.string (ascii "k"))] := by
  decide

example : WellFormed (ascii "SET") [.integer (-7), .data [1, 255]] [] := by decide

end Suil.Redis
