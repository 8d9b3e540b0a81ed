/-
Reading values from bytes that nobody vouches for.

The lengths on the wire are bytes of the sender.  `reverse` looks at each of them
before it copies; what it copies into is up to its caller, and an integer is read
into a temporary of eight bytes.

* `read_follows` — reading by the layout of a type: a value is taken off the front,
  or the call throws, or it leaves defined behaviour, and which one is told by the
  bytes;
* `read_returns` — the values are those that are decoded from the unread bytes;
* `readsSafely_iff` — when every outcome is one of the first two.
-/
import Suil.Wire
import Suil.Breadboard

open LittleEndian

namespace Suil

/-- The types that can be read, by the overload of `operator>>` that serves them. -/
inductive Form : Type → Type 1
  /-- `VarInt`. -/
  | varint : Form UInt64
  /-- An arithmetic or enumeration type of `size` bytes. -/
  | scalar (size : ℕ) : Form (Vector UInt8 size)
  /-- `Data`. -/
  | data : Form Bytes
  /-- `String` and `std::string`. -/
  | string : Form Bytes
  /-- `Blob<N>`. -/
  | blob (N : ℕ) : Form (Vector UInt8 N)
  /-- `iod::Nullable`. -/
  | nullable {α : Type} (t : Form α) : Form (Option α)
  /-- `std::vector`. -/
  | vector {α : Type} (t : Form α) : Form (List α)
  /-- A structure without further members. -/
  | done : Form Unit
  /-- A structure that begins with a member of type `t`. -/
  | member {α β : Type} (t : Form α) (rest : Form β) : Form (α × β)
  /-- A structure with a `fromWire`, which reads into a new object. -/
  | metaType {α : Type} (t : Form α) (init : α) : Form α
  /-- A union of `n` types with a generated `fromWire`, which reads into a new object. -/
  | union {n : ℕ} {α : Fin n → Type} (ts : ∀ i, Form (α i)) (init : Σ i, α i) : Form (Σ i, α i)

/-- How reading ends: with a value, with an exception, or outside of defined behaviour;
in the first two cases with the board as it then is. -/
inductive Reading (α : Type) where
  | value (v : α) (b : Breadboard)
  | thrown (b : Breadboard)
  | undefined

namespace Reading

variable {α β : Type}

def bind (r : Reading α) (f : α → Breadboard → Reading β) : Reading β :=
  match r with
  | value v b => f v b
  | thrown b => thrown b
  | undefined => undefined

end Reading

namespace Breadboard

/-- `pull` into `room` bytes. -/
def pullInto (b : Breadboard) (room es : ℕ) : Reading Bytes :=
  match b.reverse es with
  | none => .thrown b
  | some (e, b') => if es ≤ room then .value e b' else .undefined

/-- `reverse(es)`: a view of the bytes. -/
def view (b : Breadboard) (es : ℕ) : Reading Bytes :=
  match b.reverse es with
  | none => .thrown b
  | some (e, b') => .value e b'

/-- `operator>>(VarInt&)`. -/
def readVarInt (b : Breadboard) : Reading ℕ :=
  (b.pullInto 1 1).bind fun sz b =>
    (b.pullInto 8 (sz.headD 0).toNat).bind fun tmp b => .value (valueLE tmp) b

/-- `operator>>(Data&)`; with `copyOut` the view is copied. -/
def readData (b : Breadboard) (d : Bytes) : Reading Bytes :=
  b.readVarInt.bind fun sz b =>
    if sz ≠ 0 then (b.view sz).bind fun e b => .value (e.take (sz % 2 ^ 32)) b else .value d b

/-- `n` elements, each read by `dec`. -/
def readMany {α : Type} (dec : Breadboard → Reading α) : ℕ → Breadboard → Reading (List α)
  | 0, b => .value [] b
  | n + 1, b => (dec b).bind fun x b => (readMany dec n b).bind fun xs b => .value (x :: xs) b

end Breadboard

/-- The first bytes of `e`, put over those of `d`. -/
def overwrite {n : ℕ} (d : Vector UInt8 n) (e : Bytes) : Vector UInt8 n :=
  Vector.ofFn fun i => e.getD i d[i]

theorem overwrite_eq {n : ℕ} (d : Vector UInt8 n) {e : Bytes} (h : e.length = n) :
    overwrite d e = ⟨e.toArray, by simpa using h⟩ := by
  ext i hi
  have hget : i < e.length := h ▸ hi
  simp [overwrite, hget]

namespace Form

variable {α : Type}

/-- A newly constructed value. -/
def fresh : {α : Type} → Form α → α
  | _, varint => 0
  | _, scalar size => Vector.replicate size 0
  | _, data => []
  | _, string => []
  | _, blob N => Vector.replicate N 0
  | _, nullable _ => none
  | _, vector _ => []
  | _, done => ()
  | _, member t rest => (t.fresh, rest.fresh)
  | _, metaType _ init => init
  | _, union _ init => init

/-- `operator>>` into a destination.  The elements of a vector are counted by an `int`,
which overflows behind element 2^31 - 1. -/
def read : {α : Type} → Form α → α → Breadboard → Reading α
  | _, varint, _, b => b.readVarInt.bind fun n b => .value n.toUInt64 b
  | _, scalar size, d, b => (b.pullInto 8 size).bind fun e b => .value (overwrite d e) b
  | _, data, d, b => b.readData d
  | _, string, d, b => (b.readData []).bind fun tmp b => .value (if tmp = [] then d else tmp) b
  | _, blob N, d, b =>
    b.readVarInt.bind fun sz b =>
      if sz ≠ 0 then
        (b.view sz).bind fun e b => if N < sz then .thrown b else .value (overwrite d e) b
      else .value d b
  | _, nullable t, _, b =>
    (b.pullInto 8 1).bind fun isSet b =>
      if isSet ≠ [0] then (t.read t.fresh b).bind fun v b => .value (some v) b
      else .value none b
  | _, vector t, d, b =>
    b.readVarInt.bind fun entries b =>
      (b.readMany (t.read t.fresh) (min entries (2 ^ 31))).bind fun vs b =>
        if entries < 2 ^ 31 then .value (d ++ vs) b else .undefined
  | _, done, _, b => .value () b
  | _, member t rest, (d, ds), b =>
    (t.read d b).bind fun v b => (rest.read ds b).bind fun vs b => .value (v, vs) b
  | _, metaType t init, _, b => t.read init b
  | _, @union n _ ts init, _, b =>
    b.readVarInt.bind fun index b =>
      if h : index < n then
        ((ts ⟨index, h⟩).read (ts ⟨index, h⟩).fresh b).bind fun v b => .value ⟨_, v⟩ b
      else if index = 2 ^ 64 - 1 then .value init b
      else .thrown b

/-! ### The layout -/

/-- How many bytes a value has at least. -/
def minSize : {α : Type} → Form α → ℕ
  | _, varint => 1
  | _, scalar size => size
  | _, data => 1
  | _, string => 1
  | _, blob _ => 1
  | _, nullable _ => 1
  | _, vector _ => 1
  | _, done => 0
  | _, member t rest => t.minSize + rest.minSize
  | _, metaType t _ => t.minSize
  | _, union _ _ => 1

/-- `n` pieces, each skipped by `sk`. -/
def skipMany (sk : Bytes → Option Bytes) : ℕ → Bytes → Option Bytes
  | 0, s => some s
  | n + 1, s => (sk s).bind (skipMany sk n)

/-- A count and so many bytes. -/
def skipData (s : Bytes) : Option Bytes :=
  (pullVarInt s).bind fun p => (pull p.2 p.1).map Prod.snd

/-- What lies behind a value, if there is one at the front. -/
def skip : {α : Type} → Form α → Bytes → Option Bytes
  | _, varint, s => (pullVarInt s).map Prod.snd
  | _, scalar size, s => if size ≤ 8 then (pull s size).map Prod.snd else none
  | _, data, s => skipData s
  | _, string, s => skipData s
  | _, blob N, s =>
    (pullVarInt s).bind fun p => if p.1 ≤ N then (pull p.2 p.1).map Prod.snd else none
  | _, nullable t, s =>
    (pull s 1).bind fun p => if p.1 ≠ [0] then t.skip p.2 else some p.2
  | _, vector t, s =>
    (pullVarInt s).bind fun p =>
      if p.1 < 2 ^ 31 then skipMany t.skip p.1 p.2 else none
  | _, done, s => some s
  | _, member t rest, s => (t.skip s).bind rest.skip
  | _, metaType t _, s => t.skip s
  | _, @union n _ ts _, s =>
    (pullVarInt s).bind fun p =>
      if h : p.1 < n then (ts ⟨p.1, h⟩).skip p.2
      else if p.1 = 2 ^ 64 - 1 then some p.2 else none

/-- A length byte above eight, with so many bytes behind it. -/
def overlong : Bytes → Bool
  | [] => false
  | sz :: s => 8 < sz && sz.toNat ≤ s.length

/-- One of `n` pieces is as `ov` says. -/
def anyPiece (sk : Bytes → Option Bytes) (ov : Bytes → Bool) : ℕ → Bytes → Bool
  | 0, _ => false
  | n + 1, s => ov s || (sk s).any (anyPiece sk ov n)

/-- The bytes that reading must not come to: an overlong integer, an arithmetic type of more
than eight bytes that are there, and 2^31 elements of a longer vector. -/
def overruns : {α : Type} → Form α → Bytes → Bool
  | _, varint, s => overlong s
  | _, scalar size, s => 8 < size && size ≤ s.length
  | _, data, s => overlong s
  | _, string, s => overlong s
  | _, blob _, s => overlong s
  | _, nullable t, s => (pull s 1).any fun p => p.1 ≠ [0] && t.overruns p.2
  | _, vector t, s =>
    overlong s || (pullVarInt s).any fun p =>
      anyPiece t.skip t.overruns (min p.1 (2 ^ 31)) p.2 ||
        (2 ^ 31 ≤ p.1 && (skipMany t.skip (2 ^ 31) p.2).isSome)
  | _, done, _ => false
  | _, member t rest, s => t.overruns s || (t.skip s).any rest.overruns
  | _, metaType t _, s => t.overruns s
  | _, @union n _ ts _, s =>
    overlong s || (pullVarInt s).any fun p =>
      if h : p.1 < n then (ts ⟨p.1, h⟩).overruns p.2 else false

/-- A length byte above eight. -/
def tooLong : Bytes → Bool
  | [] => false
  | sz :: _ => 8 < sz

/-- Somewhere in the value there is a length byte above eight, a count of bytes or of
elements larger than what is left can hold. -/
def oversized : {α : Type} → Form α → Bytes → Bool
  | _, varint, s => tooLong s
  | _, scalar _, _ => false
  | _, data, s => tooLong s || (pullVarInt s).any fun p => p.2.length < p.1
  | _, string, s => tooLong s || (pullVarInt s).any fun p => p.2.length < p.1
  | _, blob _, s => tooLong s || (pullVarInt s).any fun p => p.2.length < p.1
  | _, nullable t, s => (pull s 1).any fun p => p.1 ≠ [0] && t.oversized p.2
  | _, vector t, s =>
    tooLong s || (pullVarInt s).any fun p =>
      p.2.length < p.1 * t.minSize || anyPiece t.skip t.oversized p.1 p.2
  | _, done, _ => false
  | _, member t rest, s => t.oversized s || (t.skip s).any rest.oversized
  | _, metaType t _, s => t.oversized s
  | _, @union n _ ts _, s =>
    tooLong s || (pullVarInt s).any fun p =>
      if h : p.1 < n then (ts ⟨p.1, h⟩).oversized p.2 else false

end Form

/-- A later state of a board that is only read from. -/
structure Reaches (b b' : Breadboard) : Prop where
  sink_eq : b'.sink = b.sink
  write_eq : b'.T = b.T
  read_le : b.H ≤ b'.H

theorem Reaches.refl (b : Breadboard) : Reaches b b := ⟨rfl, rfl, le_rfl⟩

theorem Reaches.trans {b b' b'' : Breadboard} (h : Reaches b b') (h' : Reaches b' b'') :
    Reaches b b'' :=
  ⟨h'.sink_eq.trans h.sink_eq, h'.write_eq.trans h.write_eq, h.read_le.trans h'.read_le⟩

/-- The outcome of reading is that which the bytes tell: of a value `v` and the bytes behind
it `left` holds `w`, and the call is undefined when the bytes are `bad`. -/
def Agrees {α γ : Type} (w : α → Bytes → γ) (r : Reading α) (b : Breadboard) (left : Option γ)
    (bad : Bool) : Prop :=
  match r with
  | .value v b' => Reaches b b' ∧ left = some (w v b'.unread) ∧ bad = false
  | .thrown b' => Reaches b b' ∧ left = none ∧ bad = false
  | .undefined => left = none ∧ bad = true

/-- The same, of the bytes behind a value only. -/
abbrev Follows {α : Type} (r : Reading α) (b : Breadboard) (left : Option Bytes) (bad : Bool) :
    Prop :=
  Agrees (fun _ s => s) r b left bad

section Rules

variable {α β γ δ : Type} {w : α → Bytes → γ} {u : β → Bytes → δ} {r : Reading α}
  {b : Breadboard} {left : Option γ} {bad : Bool}

theorem Agrees.value (v : α) (b : Breadboard) :
    Agrees w (.value v b) b (some (w v b.unread)) false :=
  ⟨.refl b, rfl, rfl⟩

theorem Agrees.of_eq {left' : Option γ} {bad' : Bool} (hr : Agrees w r b left' bad')
    (hleft : left = left') (hbad : bad = bad') : Agrees w r b left bad := by
  rwa [hleft, hbad]

/-- **The rule of the bind**: what comes next is told by the bytes that are left. -/
theorem Agrees.bind {f : α → Breadboard → Reading β} {g : γ → Option δ} {h : γ → Bool}
    (hr : Agrees w r b left bad)
    (hf : ∀ v b', Agrees u (f v b') b' (g (w v b'.unread)) (h (w v b'.unread))) :
    Agrees u (r.bind f) b (left.bind g) (bad || left.any h) := by
  cases r with
  | value v b₁ =>
    obtain ⟨hreach, rfl, rfl⟩ := hr
    have hnext := hf v b₁
    rw [Reading.bind, Option.bind_some, Option.any_some, Bool.false_or]
    cases hfv : f v b₁ with
    | value v' b₂ =>
      rw [hfv] at hnext
      exact ⟨hreach.trans hnext.1, hnext.2⟩
    | thrown b₂ =>
      rw [hfv] at hnext
      exact ⟨hreach.trans hnext.1, hnext.2⟩
    | undefined =>
      rw [hfv] at hnext
      exact hnext
  | thrown b₁ =>
    obtain ⟨hreach, rfl, rfl⟩ := hr
    exact ⟨hreach, rfl, rfl⟩
  | undefined =>
    obtain ⟨rfl, rfl⟩ := hr
    exact ⟨rfl, rfl⟩

/-- A value that is only wrapped. -/
theorem Agrees.wrap {left : Option Bytes} (hr : Follows r b left bad) (f : α → β) :
    Follows (r.bind fun v b => .value (f v) b) b left bad := by
  have hbind := hr.bind (u := fun _ s => s) (g := some) (h := fun _ => false)
    fun v b' => Agrees.value (f v) b'
  exact hbind.of_eq (by simp) (by simp)

end Rules

theorem pull_one (c : UInt8) (s : Bytes) : pull (c :: s) 1 = some ([c], s) := by
  rw [pull, if_pos (by simp)]
  rfl

namespace Breadboard

theorem pullInto_agrees (b : Breadboard) (room es : ℕ) :
    Agrees Prod.mk (b.pullInto room es) b (if es ≤ room then pull b.unread es else none)
      (room < es && es ≤ b.unread.length) := by
  have hlen := length_unread b
  rcases le_or_gt es b.size with hfits | hover
  · obtain ⟨b', hreverse, hunread, hsink, hT, hH⟩ := reverse_of_fits hfits
    rw [pullInto, hreverse]
    simp only
    rcases le_or_gt es room with hroom | hroom
    · rw [if_pos hroom, if_pos hroom, pull, if_pos (hlen ▸ hfits), ← hunread]
      exact ⟨⟨hsink, hT, by omega⟩, rfl, by simp [not_lt.mpr hroom]⟩
    · rw [if_neg (not_le.mpr hroom), if_neg (not_le.mpr hroom)]
      exact ⟨rfl, by simp [hroom, hfits]⟩
  · rw [pullInto, reverse_of_overrun hover, pull, if_neg (by omega : ¬ es ≤ b.unread.length),
      ite_self]
    exact ⟨.refl b, rfl, by simp [hover]⟩

theorem view_agrees (b : Breadboard) (es : ℕ) :
    Agrees Prod.mk (b.view es) b (pull b.unread es) false := by
  have hlen := length_unread b
  rcases le_or_gt es b.size with hfits | hover
  · obtain ⟨b', hreverse, hunread, hsink, hT, hH⟩ := reverse_of_fits hfits
    rw [view, hreverse, pull, if_pos (hlen ▸ hfits), ← hunread]
    exact ⟨⟨hsink, hT, by omega⟩, rfl, rfl⟩
  · rw [view, reverse_of_overrun hover, pull, if_neg (by omega : ¬ es ≤ b.unread.length)]
    exact ⟨.refl b, rfl, rfl⟩

theorem readVarInt_agrees (b : Breadboard) :
    Agrees Prod.mk b.readVarInt b (pullVarInt b.unread) (Form.overlong b.unread) := by
  have hbind := (b.pullInto_agrees 1 1).bind (u := Prod.mk)
    (g := fun p => (if (p.1.headD 0).toNat ≤ 8 then pull p.2 (p.1.headD 0).toNat else none).bind
      fun q => some (valueLE q.1, q.2))
    (h := fun p => (8 < (p.1.headD 0).toNat && (p.1.headD 0).toNat ≤ p.2.length) ||
      (if (p.1.headD 0).toNat ≤ 8 then pull p.2 (p.1.headD 0).toNat else none).any fun _ => false)
    (f := fun sz b => (b.pullInto 8 (sz.headD 0).toNat).bind fun tmp b => .value (valueLE tmp) b)
    fun sz b' => (b'.pullInto_agrees 8 (sz.headD 0).toNat).bind fun tmp b'' => Agrees.value _ b''
  rw [readVarInt]
  convert hbind using 1
  · cases b.unread with
    | nil => rfl
    | cons sz s =>
      have hsz : sz ≤ 8 ↔ sz.toNat ≤ 8 := UInt8.le_iff_toNat_le
      rw [pullVarInt, pull_one]
      by_cases hle : sz.toNat ≤ 8
      · simp [hsz, hle, Option.map_eq_bind]
      · simp [hsz, hle]
  · cases b.unread with
    | nil => rfl
    | cons sz s =>
      have hsz : decide (8 < sz) = decide (8 < sz.toNat) := decide_eq_decide.mpr UInt8.lt_iff_toNat_lt
      rw [pull_one, Form.overlong, hsz]
      simp
      rfl

theorem readData_follows (b : Breadboard) (d : Bytes) :
    Follows (b.readData d) b (Form.skipData b.unread) (Form.overlong b.unread) := by
  have hbind := b.readVarInt_agrees.bind (u := fun _ s => s)
    (g := fun p => (pull p.2 p.1).map Prod.snd) (h := fun _ => false)
    (f := fun sz b =>
      if sz ≠ 0 then (b.view sz).bind fun e b => .value (e.take (sz % 2 ^ 32)) b else .value d b)
    fun sz b' => by
      split_ifs with hsz
      · have hview := (b'.view_agrees sz).bind (u := fun (_ : Bytes) s => s)
          (g := fun p => some p.2) (h := fun _ => false)
          fun e b'' => Agrees.value (e.take (sz % 2 ^ 32)) b''
        exact hview.of_eq Option.map_eq_bind (by simp)
      · obtain rfl := not_not.mp hsz
        exact Agrees.value d b'
  exact hbind.of_eq rfl (by simp)

theorem readMany_follows {α : Type} {dec : Breadboard → Reading α} {sk : Bytes → Option Bytes}
    {ov : Bytes → Bool} (hdec : ∀ b, Follows (dec b) b (sk b.unread) (ov b.unread)) (n : ℕ)
    (b : Breadboard) :
    Follows (readMany dec n b) b (Form.skipMany sk n b.unread) (Form.anyPiece sk ov n b.unread) := by
  induction n generalizing b with
  | zero => exact Agrees.value [] b
  | succ n ih => exact (hdec b).bind fun x b' => (ih b').wrap (x :: ·)

end Breadboard

namespace Form

variable {α : Type}

/-- **Reading follows the layout.** -/
theorem read_follows (t : Form α) (d : α) (b : Breadboard) :
    Follows (t.read d b) b (t.skip b.unread) (t.overruns b.unread) := by
  induction t generalizing b with
  | varint =>
    have hbind := b.readVarInt_agrees.bind (u := fun (_ : UInt64) s => s)
      (g := fun p => some p.2) (h := fun _ => false) fun n b' => Agrees.value n.toUInt64 b'
    exact hbind.of_eq Option.map_eq_bind (by simp [overruns])
  | scalar size =>
    have hbind := (b.pullInto_agrees 8 size).bind (u := fun (_ : Vector UInt8 size) s => s)
      (g := fun p => some p.2) (h := fun _ => false) fun e b' => Agrees.value (overwrite d e) b'
    refine hbind.of_eq ?_ (by simp [overruns])
    rw [skip, Option.map_eq_bind]
    split_ifs
    · rfl
    · rfl
  | data => exact b.readData_follows d
  | string => exact (b.readData_follows []).wrap fun tmp => if tmp = [] then d else tmp
  | blob N =>
    have hbind := b.readVarInt_agrees.bind (u := fun (_ : Vector UInt8 N) s => s)
      (g := fun p => if p.1 ≤ N then (pull p.2 p.1).map Prod.snd else none) (h := fun _ => false)
      (f := fun sz b =>
        if sz ≠ 0 then
          (b.view sz).bind fun e b => if N < sz then .thrown b else .value (overwrite d e) b
        else .value d b)
      fun sz b' => by
        rcases eq_or_ne sz 0 with rfl | hsz
        · exact (Agrees.value d b').of_eq (if_pos (Nat.zero_le N)) rfl
        · rw [if_pos hsz]
          rcases lt_or_ge N sz with hroom | hroom
          · have hview := (b'.view_agrees sz).bind (u := fun (_ : Vector UInt8 N) s => s)
              (f := fun _ b => .thrown b) (g := fun _ => none) (h := fun _ => false)
              fun e b'' => ⟨.refl b'', rfl, rfl⟩
            simp only [if_pos hroom]
            exact hview.of_eq (by simp [not_le.mpr hroom]) (by simp)
          · have hview := (b'.view_agrees sz).bind (u := fun (_ : Vector UInt8 N) s => s)
              (g := fun p => some p.2) (h := fun _ => false)
              fun e b'' => Agrees.value (overwrite d e) b''
            simp only [if_neg (not_lt.mpr hroom)]
            exact hview.of_eq (by simp [hroom, Option.map_eq_bind]) (by simp)
    exact hbind.of_eq rfl (by simp [overruns])
  | nullable t ih =>
    have hbind := (b.pullInto_agrees 8 1).bind (u := fun (_ : Option _) s => s)
      (g := fun p => if p.1 ≠ [0] then t.skip p.2 else some p.2)
      (h := fun p => p.1 ≠ [0] && t.overruns p.2)
      (f := fun isSet b =>
        if isSet ≠ [0] then (t.read t.fresh b).bind fun v b => .value (some v) b
        else .value none b)
      fun isSet b' => by
        split_ifs with hset
        · exact ((ih t.fresh b').wrap some).of_eq rfl (by simp [hset])
        · exact (Agrees.value none b').of_eq rfl (by simp [not_not.mp hset])
    exact hbind.of_eq rfl (by simp [overruns])
  | @vector β t ih =>
    have hbind := b.readVarInt_agrees.bind (u := fun (_ : List β) s => s)
      (g := fun p => if p.1 < 2 ^ 31 then skipMany t.skip p.1 p.2 else none)
      (h := fun p => anyPiece t.skip t.overruns (min p.1 (2 ^ 31)) p.2 ||
        (2 ^ 31 ≤ p.1 && (skipMany t.skip (2 ^ 31) p.2).isSome))
      (f := fun entries b =>
        (b.readMany (t.read t.fresh) (min entries (2 ^ 31))).bind fun vs b =>
          if entries < 2 ^ 31 then .value (d ++ vs) b else .undefined)
      fun entries b' => by
        have hmany := Breadboard.readMany_follows (ih t.fresh) (min entries (2 ^ 31)) b'
        rcases lt_or_ge entries (2 ^ 31) with hlt | hge
        · simp only [if_pos hlt]
          exact (hmany.wrap (d ++ ·)).of_eq (by rw [min_eq_left hlt.le])
            (by rw [decide_eq_false (not_le.mpr hlt), Bool.false_and, Bool.or_false])
        · have hundef := hmany.bind (u := fun (_ : List β) s => s) (f := fun _ _ => .undefined)
            (g := fun _ => none) (h := fun _ => true) fun _ _ => ⟨rfl, rfl⟩
          simp only [if_neg (not_lt.mpr hge)]
          refine hundef.of_eq (by simp) ?_
          rw [min_eq_right hge, decide_eq_true hge, Bool.true_and]
          cases skipMany t.skip (2 ^ 31) b'.unread <;> rfl
    exact hbind.of_eq rfl rfl
  | done => exact Agrees.value () b
  | member t rest iht ihrest => exact (iht d.1 b).bind fun v b' => (ihrest d.2 b').wrap (v, ·)
  | metaType t init ih => exact ih init b
  | @union n α ts init ih =>
    have hbind := b.readVarInt_agrees.bind (u := fun (_ : Σ i, α i) s => s)
      (g := fun p => if h : p.1 < n then (ts ⟨p.1, h⟩).skip p.2
        else if p.1 = 2 ^ 64 - 1 then some p.2 else none)
      (h := fun p => if h : p.1 < n then (ts ⟨p.1, h⟩).overruns p.2 else false)
      (f := fun index b =>
        if h : index < n then
          ((ts ⟨index, h⟩).read (ts ⟨index, h⟩).fresh b).bind fun v b => .value ⟨_, v⟩ b
        else if index = 2 ^ 64 - 1 then .value init b
        else .thrown b)
      fun index b' => by
        split_ifs with hindex hnpos
        · exact (ih ⟨index, hindex⟩ (ts ⟨index, hindex⟩).fresh b').wrap
            (Sigma.mk (β := α) ⟨index, hindex⟩)
        · exact Agrees.value init b'
        · exact ⟨.refl b', rfl, rfl⟩
    exact hbind.of_eq rfl rfl

theorem length_of_pull {s e rest : Bytes} {n : ℕ} (h : pull s n = some (e, rest)) :
    e.length = n ∧ rest.length + n = s.length := by
  rw [pull, Option.ite_none_right_eq_some] at h
  obtain ⟨hle, h⟩ := h
  obtain ⟨rfl, rfl⟩ := Prod.mk.inj (Option.some.inj h)
  exact ⟨List.length_take_of_le hle, by rw [List.length_drop, Nat.sub_add_cancel hle]⟩

theorem length_of_pullVarInt {s rest : Bytes} {n : ℕ} (h : pullVarInt s = some (n, rest)) :
    rest.length + 1 ≤ s.length ∧ tooLong s = false := by
  cases s with
  | nil => cases h
  | cons sz s =>
    rw [pullVarInt, Option.ite_none_right_eq_some] at h
    obtain ⟨hsz, h⟩ := h
    obtain ⟨p, hp, h⟩ := Option.map_eq_some_iff.mp h
    obtain ⟨-, rfl⟩ := Prod.mk.inj h
    have hlen := (length_of_pull hp).2
    refine ⟨?_, ?_⟩
    · rw [List.length_cons]
      omega
    · exact decide_eq_false (UInt8.not_lt.mpr hsz)

theorem skipMany_length {sk : Bytes → Option Bytes} {size n : ℕ}
    (hsk : ∀ s s', sk s = some s' → s'.length + size ≤ s.length) {s s' : Bytes}
    (h : skipMany sk n s = some s') : s'.length + n * size ≤ s.length := by
  induction n generalizing s with
  | zero =>
    obtain rfl := Option.some.inj h
    omega
  | succ n ih =>
    obtain ⟨s₁, hs₁, h⟩ := Option.bind_eq_some_iff.mp h
    have hfirst := hsk s s₁ hs₁
    have hrest := ih h
    rw [Nat.succ_mul]
    omega

/-- A value has its least size. -/
theorem skip_length (t : Form α) {s s' : Bytes} (h : t.skip s = some s') :
    s'.length + t.minSize ≤ s.length := by
  have hdata : ∀ {s s'}, skipData s = some s' → s'.length + 1 ≤ s.length := by
    intro s s' h
    obtain ⟨p, hp, h⟩ := Option.bind_eq_some_iff.mp h
    obtain ⟨q, hq, rfl⟩ := Option.map_eq_some_iff.mp h
    have hcount := (length_of_pullVarInt hp).1
    have hbytes := (length_of_pull hq).2
    omega
  induction t generalizing s s' with
  | varint =>
    obtain ⟨p, hp, rfl⟩ := Option.map_eq_some_iff.mp h
    exact (length_of_pullVarInt hp).1
  | scalar size =>
    rw [skip, Option.ite_none_right_eq_some] at h
    obtain ⟨q, hq, rfl⟩ := Option.map_eq_some_iff.mp h.2
    exact (length_of_pull hq).2.le
  | data => exact hdata h
  | string => exact hdata h
  | blob N =>
    obtain ⟨p, hp, h⟩ := Option.bind_eq_some_iff.mp h
    rw [Option.ite_none_right_eq_some] at h
    obtain ⟨q, hq, rfl⟩ := Option.map_eq_some_iff.mp h.2
    have hcount := (length_of_pullVarInt hp).1
    have hbytes := (length_of_pull hq).2
    rw [minSize]
    omega
  | nullable t ih =>
    obtain ⟨p, hp, h⟩ := Option.bind_eq_some_iff.mp h
    have hset := (length_of_pull hp).2
    rw [minSize]
    split_ifs at h
    · have hvalue := ih h
      omega
    · obtain rfl := Option.some.inj h
      exact hset.le
  | vector t ih =>
    obtain ⟨p, hp, h⟩ := Option.bind_eq_some_iff.mp h
    rw [Option.ite_none_right_eq_some] at h
    have hcount := (length_of_pullVarInt hp).1
    have hmany := skipMany_length (fun s s' hs => ih hs) h.2
    rw [minSize]
    omega
  | done =>
    obtain rfl := Option.some.inj h
    exact le_rfl
  | member t rest iht ihrest =>
    obtain ⟨s₁, hs₁, h⟩ := Option.bind_eq_some_iff.mp h
    have hfirst := iht hs₁
    have hrest := ihrest h
    rw [minSize]
    omega
  | metaType t init ih => exact ih h
  | union ts init ih =>
    obtain ⟨p, hp, h⟩ := Option.bind_eq_some_iff.mp h
    have hcount := (length_of_pullVarInt hp).1
    rw [minSize]
    split_ifs at h with hindex hnpos
    · have hvalue := ih ⟨p.1, hindex⟩ h
      omega
    · obtain rfl := Option.some.inj h
      exact hcount

theorem pullVarInt_of_tooLong {s : Bytes} (h : tooLong s = true) : pullVarInt s = none := by
  rcases hp : pullVarInt s with _ | p
  · rfl
  · exact absurd h (by simp [(length_of_pullVarInt hp).2])

/-- Behind a count for which `bad` rules out a value there is no value. -/
theorem bind_of_oversized {s : Bytes} {bad : ℕ × Bytes → Bool} {g : ℕ × Bytes → Option Bytes}
    (hg : ∀ p, bad p = true → g p = none)
    (h : (tooLong s || (pullVarInt s).any bad) = true) : (pullVarInt s).bind g = none := by
  rcases Bool.or_eq_true_iff.mp h with hlong | hbad
  · rw [pullVarInt_of_tooLong hlong, Option.bind_none]
  · rcases hp : pullVarInt s with _ | p
    · rfl
    · rw [hp, Option.any_some] at hbad
      exact hg p hbad

theorem pull_of_lt {s : Bytes} {n : ℕ} (h : s.length < n) : pull s n = none :=
  if_neg (not_le.mpr h)

theorem skipMany_of_anyPiece {sk : Bytes → Option Bytes} {ov : Bytes → Bool}
    (hov : ∀ s, ov s = true → sk s = none) {n : ℕ} {s : Bytes} (h : anyPiece sk ov n s = true) :
    skipMany sk n s = none := by
  induction n generalizing s with
  | zero => cases h
  | succ n ih =>
    rcases Bool.or_eq_true_iff.mp h with hfirst | hrest
    · rw [skipMany, hov s hfirst, Option.bind_none]
    · rw [skipMany]
      rcases hs : sk s with _ | s'
      · rfl
      · rw [hs, Option.any_some] at hrest
        exact ih hrest

/-- A length that is too large is not followed by a value. -/
theorem skip_of_oversized (t : Form α) {s : Bytes} (h : t.oversized s = true) :
    t.skip s = none := by
  have hshort : ∀ p : ℕ × Bytes, decide (p.2.length < p.1) = true → pull p.2 p.1 = none :=
    fun p hp => pull_of_lt (of_decide_eq_true hp)
  induction t generalizing s with
  | varint => rw [skip, pullVarInt_of_tooLong h, Option.map_none]
  | scalar size => cases h
  | data => exact bind_of_oversized (fun p hp => by rw [hshort p hp, Option.map_none]) h
  | string => exact bind_of_oversized (fun p hp => by rw [hshort p hp, Option.map_none]) h
  | blob N =>
    exact bind_of_oversized (fun p hp => by rw [hshort p hp, Option.map_none, ite_self]) h
  | nullable t ih =>
    rw [skip]
    rw [oversized] at h
    rcases hp : pull s 1 with _ | p
    · rfl
    · rw [hp, Option.any_some, Bool.and_eq_true, decide_eq_true_eq] at h
      rw [Option.bind_some, if_pos h.1]
      exact ih h.2
  | vector t ih =>
    refine bind_of_oversized (fun p hp => ?_) h
    rcases Bool.or_eq_true_iff.mp hp with hcount | hpiece
    · split_ifs
      · rcases hmany : skipMany t.skip p.1 p.2 with _ | s'
        · rfl
        · have hlen := skipMany_length (fun s s' hs => t.skip_length hs) hmany
          have hlt := of_decide_eq_true hcount
          omega
      · rfl
    · rw [skipMany_of_anyPiece (fun s hs => ih hs) hpiece, ite_self]
  | done => cases h
  | member t rest iht ihrest =>
    rw [skip]
    rcases Bool.or_eq_true_iff.mp h with hfirst | hrest
    · rw [iht hfirst, Option.bind_none]
    · rcases hs : t.skip s with _ | s'
      · rfl
      · rw [hs, Option.any_some] at hrest
        exact ihrest hrest
  | metaType t init ih => exact ih h
  | union ts init ih =>
    refine bind_of_oversized (fun p hp => ?_) h
    split_ifs at hp ⊢ with hindex
    exact ih ⟨p.1, hindex⟩ hp

end Form

/-! ### The values -/

/-- What is read is the value that `left` holds, with the bytes behind it. -/
def Returns {α : Type} (r : Reading α) (left : Option (α × Bytes)) : Prop :=
  match r with
  | .value v b' => left = some (v, b'.unread)
  | _ => left = none

section Returns

variable {α β : Type} {r : Reading α} {b : Breadboard} {left : Option (α × Bytes)} {bad : Bool}

theorem Agrees.returns (h : Agrees Prod.mk r b left bad) : Returns r left := by
  cases r with
  | value v b' => exact h.2.1
  | thrown b' => exact h.2.1
  | undefined => exact h.1

theorem Returns.value (v : α) (b : Breadboard) : Returns (.value v b) (some (v, b.unread)) := rfl

theorem Returns.bind {f : α → Breadboard → Reading β} {g : α × Bytes → Option (β × Bytes)}
    (hr : Returns r left) (hf : ∀ v b', Returns (f v b') (g (v, b'.unread))) :
    Returns (r.bind f) (left.bind g) := by
  cases r with
  | value v b' =>
    rw [show left = some (v, b'.unread) from hr]
    exact hf v b'
  | thrown b' =>
    rw [show left = none from hr]
    rfl
  | undefined =>
    rw [show left = none from hr]
    rfl

theorem Returns.of_eq {left' : Option (α × Bytes)} (hr : Returns r left') (h : left = left') :
    Returns r left := by
  rwa [h]

end Returns

namespace WireType

variable {α : Type}

/-- The overload that reads what was written by that of a type. -/
def form : {α : Type} → WireType α → Form α
  | _, varint => .varint
  | _, scalar size => .scalar size
  | _, data => .data
  | _, string => .string
  | _, nullable t => .nullable t.form
  | _, vector t => .vector t.form
  | _, done => .done
  | _, member t rest => .member t.form rest.form
  | _, metaType t init => .metaType t.form init

theorem fresh_form (t : WireType α) : t.form.fresh = t.fresh := by
  induction t with
  | member t rest iht ihrest => exact Prod.ext iht ihrest
  | _ => rfl

theorem readData_returns (b : Breadboard) (d : Bytes) :
    Returns (b.readData d) (decodeData d b.unread) := by
  refine b.readVarInt_agrees.returns.bind
    (g := fun p => if p.1 ≠ 0 then (pull p.2 p.1).bind fun q => some (q.1.take (p.1 % 2 ^ 32), q.2)
      else some (d, p.2)) fun sz b' => ?_
  split_ifs
  · exact (b'.view_agrees sz).returns.bind (g := fun q => some (q.1.take (sz % 2 ^ 32), q.2))
      fun e b'' => Returns.value _ b''
  · exact Returns.value d b'

theorem readMany_returns {dec : Breadboard → Reading α} {dec' : Bytes → Option (α × Bytes)}
    (hdec : ∀ b, Returns (dec b) (dec' b.unread)) (n : ℕ) (b : Breadboard) :
    Returns (Breadboard.readMany dec n b) (decodeMany dec' n b.unread) := by
  induction n generalizing b with
  | zero => rfl
  | succ n ih =>
    exact (hdec b).bind (g := fun p => (decodeMany dec' n p.2).bind fun q => some (p.1 :: q.1, q.2))
      fun x b' => (ih b').bind (g := fun q => some (x :: q.1, q.2)) fun xs b'' => rfl

/-- **On the board values are read as they are decoded from its unread bytes.** -/
theorem read_returns (t : WireType α) (d : α) (b : Breadboard) :
    Returns (t.form.read d b) (t.decode d b.unread) := by
  induction t generalizing b with
  | varint =>
    have hbind := b.readVarInt_agrees.returns.bind (g := fun p => some (p.1.toUInt64, p.2))
      fun n b' => Returns.value n.toUInt64 b'
    exact hbind.of_eq Option.map_eq_bind
  | scalar size =>
    have hbind := (b.pullInto_agrees 8 size).returns.bind
      (g := fun p => some (overwrite d p.1, p.2)) fun e b' => Returns.value (overwrite d e) b'
    refine hbind.of_eq ?_
    rw [decode]
    split_ifs
    · rcases hp : pull b.unread size with _ | p
      · rfl
      · have hlen := (Form.length_of_pull hp).1
        rw [Option.bind_some, Option.bind_some, dif_pos hlen, overwrite_eq d hlen]
    · rfl
  | data => exact readData_returns b d
  | string =>
    have hbind := (readData_returns b []).bind
      (g := fun p => some (if p.1 = [] then d else p.1, p.2))
      fun tmp b' => Returns.value (if tmp = [] then d else tmp) b'
    exact hbind.of_eq Option.map_eq_bind
  | nullable t ih =>
    have hfresh := t.fresh_form
    have hbind := (b.pullInto_agrees 8 1).returns.bind
      (g := fun p => if p.1 ≠ [0] then (t.decode t.fresh p.2).bind fun q => some (some q.1, q.2)
        else some (none, p.2))
      (f := fun isSet b =>
        if isSet ≠ [0] then (t.form.read t.form.fresh b).bind fun v b => .value (some v) b
        else .value none b)
      fun isSet b' => by
        split_ifs
        · rw [hfresh]
          exact (ih t.fresh b').bind (g := fun q => some (some q.1, q.2))
            fun v b'' => Returns.value _ b''
        · exact Returns.value none b'
    exact hbind.of_eq rfl
  | @vector β t ih =>
    have hfresh := t.fresh_form
    have hbind := b.readVarInt_agrees.returns.bind
      (g := fun p => if p.1 < 2 ^ 31 then
        (decodeMany (t.decode t.fresh) p.1 p.2).bind fun q => some (d ++ q.1, q.2) else none)
      (f := fun entries b =>
        (b.readMany (t.form.read t.form.fresh) (min entries (2 ^ 31))).bind fun vs b =>
          if entries < 2 ^ 31 then .value (d ++ vs) b else .undefined)
      fun entries b' => by
        rw [hfresh]
        have hmany := readMany_returns (ih t.fresh) (min entries (2 ^ 31)) b'
        rcases lt_or_ge entries (2 ^ 31) with hlt | hge
        · rw [min_eq_left hlt.le] at hmany ⊢
          simp only [if_pos hlt]
          exact hmany.bind (g := fun q => some (d ++ q.1, q.2)) fun vs b'' => Returns.value _ b''
        · simp only [if_neg (not_lt.mpr hge)]
          refine (hmany.bind (f := fun _ _ => .undefined) (g := fun _ => none)
            fun vs b'' => ?_).of_eq ?_
          · rfl
          · simp
    exact hbind.of_eq rfl
  | done => rfl
  | member t rest iht ihrest =>
    exact (iht d.1 b).bind (g := fun p => (rest.decode d.2 p.2).bind fun q => some ((p.1, q.1), q.2))
      fun v b' => (ihrest d.2 b').bind (g := fun q => some ((v, q.1), q.2)) fun vs b'' => rfl
  | metaType t init ih => exact ih init b

end WireType

namespace Form

variable {α : Type}

/-- Reading returns or throws, with the board as it was but for the read position, which
advances by no more than the unread bytes; it throws when a length is too large. -/
def ReadsSafely (t : Form α) (d : α) (b : Breadboard) : Prop :=
  match t.read d b with
  | .value _ b' => Reaches b b' ∧ b'.H ≤ b.T ∧ t.oversized b.unread = false
  | .thrown b' => Reaches b b' ∧ b'.H ≤ b.T
  | .undefined => False

/-- **For which bytes reading is safe.** -/
theorem readsSafely_iff (t : Form α) (d : α) (b : Breadboard) :
    t.ReadsSafely d b ↔ t.overruns b.unread = false := by
  have hfollows := t.read_follows d b
  have hread : ∀ {b'}, Reaches b b' → b'.H ≤ b.T := fun {b'} h => h.write_eq ▸ b'.read_le
  rw [ReadsSafely]
  cases hr : t.read d b with
  | value v b' =>
    rw [hr] at hfollows
    obtain ⟨hreach, hskip, hover⟩ := hfollows
    refine iff_of_true ⟨hreach, hread hreach, ?_⟩ hover
    refine Bool.eq_false_iff.mpr fun hlarge => ?_
    rw [t.skip_of_oversized hlarge] at hskip
    cases hskip
  | thrown b' =>
    rw [hr] at hfollows
    obtain ⟨hreach, -, hover⟩ := hfollows
    exact iff_of_true ⟨hreach, hread hreach⟩ hover
  | undefined =>
    rw [hr] at hfollows
    simp [hfollows.2]

/-- Nine bytes are read into a temporary of eight. -/
theorem not_readsSafely :
    ¬ varint.ReadsSafely 0 ⟨9 :: List.replicate 9 255, 0, 10, by decide, by decide⟩ := by
  have hread : varint.read 0 ⟨9 :: List.replicate 9 255, 0, 10, by decide, by decide⟩ =
      .undefined := rfl
  rw [ReadsSafely, hread]
  exact id

end Form
end Suil
