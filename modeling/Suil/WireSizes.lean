/-
How much room a value needs on a board, and how much it is given.

`Wire::maxByteSize` is a family of functions beside `operator<<`.  The boards that
`HeapBoard::serialize` and the client of the RPC allocate have the sizes it tells;
a push that does not fit throws.

* `length_pushes` — the estimate, against what is written: the indices of unions
  take more than they are given, and members that are left out take nothing;
* `Valid.pushAll_done_iff` — pushes one after another fit when all of them do;
* `estimates_right_iff` — the values, offsets and parameters that have their room.
-/
import Suil.HeapBoard
import Suil.SrpcRequests
import Suil.WireSchemes

namespace Suil

/-- The condition of a scheme on a member that is marked, or is not. -/
def Scheme.writes (s : Scheme) (always unwire : Bool) : Bool :=
  match s with
  | .sio => !unwire || always
  | .metaType => !unwire || isFilterOn always

/-- The types that can be written, by the overloads of `operator<<` and `maxByteSize` that
serve them. -/
inductive Outline : Type → Type 1
  /-- `VarInt`. -/
  | varint : Outline UInt64
  /-- An arithmetic or enumeration type of `size` bytes. -/
  | scalar (size : ℕ) : Outline (Vector UInt8 size)
  /-- `Data`, `String`, `std::string` and `const char *`. -/
  | data : Outline Bytes
  /-- `iod::Nullable`. -/
  | nullable {α : Type} (t : Outline α) : Outline (Option α)
  /-- `std::vector`. -/
  | vector {α : Type} (t : Outline α) : Outline (List α)
  /-- A structure without further members. -/
  | done : Outline Unit
  /-- A structure of a scheme that begins with a member of type `t`. -/
  | member {α β : Type} (s : Scheme) (unwire : Bool) (t : Outline α) (rest : Outline β) :
      Outline (α × β)
  /-- A union of `n` types with a generated `toWire`; one without a value comes only of an
  exception. -/
  | union {n : ℕ} {α : Fin n → Type} (ts : ∀ i, Outline (α i)) : Outline (Σ i, α i)

namespace Outline

variable {α : Type}

/-- `operator<<(const VarInt&)` -/
def pushesVarInt (n : ℕ) : List (Option Bytes) :=
  [some [(VarInt.length n).toUInt8], some (LittleEndian.bytesLE (VarInt.length n) n)]

/-- The pushes of `operator<<`; none where a value overruns a temporary of eight bytes.  The size
of a `Data` has 32 bits. -/
def pushes (always : Bool) : {α : Type} → Outline α → α → List (Option Bytes)
  | _, varint, v => pushesVarInt v.toNat
  | _, scalar size, v => [if size ≤ 8 then some v.toList else none]
  | _, data, v => pushesVarInt (v.length % 2 ^ 32) ++ [some (v.take (v.length % 2 ^ 32))]
  | _, nullable _, none => [some [0]]
  | _, nullable t, some v => some [1] :: t.pushes always v
  | _, vector t, v => pushesVarInt v.length ++ v.flatMap (t.pushes always)
  | _, done, _ => []
  | _, member s unwire t rest, (v, vs) =>
    (if s.writes always unwire then t.pushes always v else []) ++ rest.pushes always vs
  | _, union ts, ⟨i, v⟩ => pushesVarInt i ++ (ts i).pushes always v

/-- `Wire::maxByteSize`; for a `Blob` it does not compile. -/
def maxByteSize : {α : Type} → Outline α → α → ℕ
  | _, varint, v => 1 + VarInt.length v.toNat
  | _, scalar size, _ => size
  | _, data, v => 1 + VarInt.length (v.length % 2 ^ 32) + v.length % 2 ^ 32
  | _, nullable _, none => 1
  | _, nullable t, some v => 1 + t.maxByteSize v
  | _, vector t, v => 1 + VarInt.length v.length + (v.map t.maxByteSize).sum
  | _, done, _ => 0
  | _, member _ _ t rest, (v, vs) => t.maxByteSize v + rest.maxByteSize vs
  | _, @union n _ ts, ⟨i, v⟩ => VarInt.length n + (ts i).maxByteSize v

/-- No value that is written is larger than the temporary. -/
def Narrow (always : Bool) : {α : Type} → Outline α → α → Prop
  | _, varint, _ => True
  | _, scalar size, _ => size ≤ 8
  | _, data, _ => True
  | _, nullable _, none => True
  | _, nullable t, some v => t.Narrow always v
  | _, vector t, v => ∀ x ∈ v, t.Narrow always x
  | _, done, _ => True
  | _, member s unwire t rest, (v, vs) =>
    (s.writes always unwire = true → t.Narrow always v) ∧ rest.Narrow always vs
  | _, union ts, ⟨i, v⟩ => (ts i).Narrow always v

/-- What the indices of unions take beyond the estimate, which is made without their length
byte. -/
def beyond (always : Bool) : {α : Type} → Outline α → α → ℕ
  | _, varint, _ => 0
  | _, scalar _, _ => 0
  | _, data, _ => 0
  | _, nullable _, none => 0
  | _, nullable t, some v => t.beyond always v
  | _, vector t, v => (v.map (t.beyond always)).sum
  | _, done, _ => 0
  | _, member s unwire t rest, (v, vs) =>
    (if s.writes always unwire then t.beyond always v else 0) + rest.beyond always vs
  | _, @union n _ ts, ⟨i, v⟩ =>
    (1 + VarInt.length i - VarInt.length n) + (ts i).beyond always v

/-- What is estimated and not taken: for members that are left out, and for the indices of very
large unions. -/
def spare (always : Bool) : {α : Type} → Outline α → α → ℕ
  | _, varint, _ => 0
  | _, scalar _, _ => 0
  | _, data, _ => 0
  | _, nullable _, none => 0
  | _, nullable t, some v => t.spare always v
  | _, vector t, v => (v.map (t.spare always)).sum
  | _, done, _ => 0
  | _, member s unwire t rest, (v, vs) =>
    (if s.writes always unwire then t.spare always v else t.maxByteSize v) + rest.spare always vs
  | _, @union n _ ts, ⟨i, v⟩ =>
    (VarInt.length n - (1 + VarInt.length i)) + (ts i).spare always v

end Outline

/-! ### Boards of the estimated size -/

namespace HeapBoard

/-- Pushes on a board, one after another. -/
def pushAll : HeapBoard → List (Option Bytes) → Call Unit HeapBoard
  | b, [] => .ok b
  | _, none :: _ => .error .crash
  | b, some e :: es =>
    match b.call (.push e) with
    | some (.pushed _, b) => b.pushAll es
    | some _ => .error (.raised ())
    | none => .error .crash

/-- A new board of a size, the pushes, and `release`, which makes a `Data` of the bytes. -/
def pack (size : ℕ) (junk : ℕ → UInt8) (es : List (Option Bytes)) : Call Unit Bytes :=
  match (ofSize ((List.range size).map junk)).pushAll es with
  | .error fault => .error fault
  | .ok b =>
    match b.release with
    | none => .error .crash
    | some (d, _) => .ok (d.take (d.length % 2 ^ 32))

/-- The loop `for (int i = 0; i < off; i++)` that pushes zero bytes; the `int` overflows. -/
def zeros (off : ℕ) : List (Option Bytes) :=
  List.replicate (min off (2 ^ 31)) (some [0]) ++ if off < 2 ^ 31 then [] else [none]

/-- `HeapBoard::serialize`; `junk` is what the new memory holds. -/
def serialize {α : Type} (t : Outline α) (v : α) (off : ℕ) (junk : ℕ → UInt8) : Call Unit Bytes :=
  pack (t.maxByteSize v + min off 16) junk (zeros off ++ t.pushes false v)

end HeapBoard

namespace Srpc

/-- A parameter of a call. -/
structure Param where
  {type : Type}
  outline : Outline type
  value : type

/-- `Client::paramsWireSize`: of all parameters but the last it takes the size of a `size_t`. -/
def paramsWireSize : List Param → ℕ
  | [] => 0
  | [p] => p.outline.maxByteSize p.value
  | _ :: ps => 8 + paramsWireSize ps

/-- The pushes of the parameters. -/
def pushesParams (params : List Param) : List (Option Bytes) :=
  params.flatMap fun p => p.outline.pushes false p.value

/-- The request of `Client::call`, for the number that it gives the call and the one of the
method. -/
def request (id method : ℤ) (params : List Param) (junk : ℕ → UInt8) : Call Unit Bytes :=
  let size := ((Outline.scalar 4).maxByteSize (intScalar id) <<< 1) + paramsWireSize params
  HeapBoard.pack (size + 16) junk
    (some (intBytes id) :: some (intBytes method) :: pushesParams params)

end Srpc

/-! ### What is written, and what was estimated -/

/-- How many bytes are pushed. -/
def total (ps : List (Option Bytes)) : ℕ := (ps.map fun p => (p.getD []).length).sum

theorem total_append (ps qs : List (Option Bytes)) : total (ps ++ qs) = total ps + total qs := by
  rw [total, List.map_append, List.sum_append]
  rfl

theorem total_singleton (e : Bytes) : total [some e] = e.length := Nat.add_zero _

theorem total_flatMap {α : Type*} (f : α → List (Option Bytes)) (xs : List α) :
    total (xs.flatMap f) = (xs.map fun x => total (f x)).sum := by
  induction xs with
  | nil => rfl
  | cons x xs ih => rw [List.flatMap_cons, total_append, ih, List.map_cons, List.sum_cons]

theorem total_map_some (es : List Bytes) : total (es.map some) = es.flatten.length := by
  rw [total, List.map_map, List.length_flatten]
  rfl

/-- Pushes that are all there are those of some strings. -/
theorem exists_map_some_iff {ps : List (Option Bytes)} :
    (∃ es : List Bytes, ps = es.map some) ↔ ∀ p ∈ ps, p ≠ none := by
  constructor
  · rintro ⟨es, rfl⟩ p hp
    obtain ⟨e, -, rfl⟩ := List.mem_map.mp hp
    exact Option.some_ne_none e
  · intro h
    refine ⟨ps.reduceOption, ?_⟩
    induction ps with
    | nil => rfl
    | cons p ps ih =>
      obtain ⟨hp, hps⟩ := List.forall_mem_cons.mp h
      obtain ⟨e, rfl⟩ := Option.ne_none_iff_exists'.mp hp
      rw [List.reduceOption_cons_of_some, List.map_cons, ← ih hps]

/-- Two sums of the same elements, each of which is in balance. -/
theorem sum_balance {α : Type*} {f g h k : α → ℕ} {xs : List α}
    (hx : ∀ x ∈ xs, f x + g x = h x + k x) :
    (xs.map f).sum + (xs.map g).sum = (xs.map h).sum + (xs.map k).sum := by
  induction xs with
  | nil => rfl
  | cons x xs ih =>
    obtain ⟨hx, hxs⟩ := List.forall_mem_cons.mp hx
    have hrest := ih hxs
    simp only [List.map_cons, List.sum_cons]
    omega

namespace Outline

variable {α : Type} {always : Bool}

theorem total_pushesVarInt (n : ℕ) : total (pushesVarInt n) = 1 + VarInt.length n := by
  simp [total, pushesVarInt, LittleEndian.length_bytesLE]

theorem pushesVarInt_defined (n : ℕ) : ∀ p ∈ pushesVarInt n, p ≠ none := by
  simp [pushesVarInt]

/-- Every push is defined when no value overruns its temporary. -/
theorem pushes_defined_iff (t : Outline α) (v : α) :
    (∀ p ∈ t.pushes always v, p ≠ none) ↔ t.Narrow always v := by
  induction t with
  | varint => exact iff_of_true (pushesVarInt_defined _) trivial
  | scalar size =>
    rw [pushes, List.forall_mem_singleton, Narrow]
    split_ifs with hsize <;> simp [hsize]
  | data =>
    rw [pushes, List.forall_mem_append]
    exact iff_of_true ⟨pushesVarInt_defined _, by simp⟩ trivial
  | nullable t ih =>
    cases v with
    | none => exact iff_of_true (by simp [pushes]) trivial
    | some v => rw [pushes, List.forall_mem_cons, and_iff_right (Option.some_ne_none _), ih, Narrow]
  | vector t ih =>
    rw [pushes, List.forall_mem_append, and_iff_right (pushesVarInt_defined _),
      List.forall_mem_flatMap, Narrow]
    exact forall₂_congr fun x _ => ih x
  | done => exact iff_of_true (by simp [pushes]) trivial
  | member s unwire t rest iht ihrest =>
    obtain ⟨v, vs⟩ := v
    rw [pushes, List.forall_mem_append, ihrest, Narrow]
    split_ifs with hwrites
    · rw [iht, imp_iff_right hwrites]
    · exact (and_iff_right (by simp)).trans (and_iff_right fun h => absurd h hwrites).symm
  | union ts ih =>
    obtain ⟨i, v⟩ := v
    rw [pushes, List.forall_mem_append, and_iff_right (pushesVarInt_defined _), ih, Narrow]

/-- **The estimate**, against what is written. -/
theorem length_pushes (t : Outline α) {v : α} (h : t.Narrow always v) :
    total (t.pushes always v) + t.spare always v = t.maxByteSize v + t.beyond always v := by
  induction t with
  | varint => exact total_pushesVarInt _
  | scalar size =>
    have hsize : size ≤ 8 := h
    rw [pushes, if_pos hsize]
    simp [total, maxByteSize, spare, beyond]
  | data =>
    have hlen : (v.take (v.length % 2 ^ 32)).length = v.length % 2 ^ 32 :=
      List.length_take_of_le (Nat.mod_le _ _)
    rw [pushes, total_append, total_pushesVarInt, total_singleton, hlen]
    rfl
  | nullable t ih =>
    cases v with
    | none => rfl
    | some v =>
      have hv := ih h
      rw [pushes, maxByteSize, spare, beyond]
      show 1 + total (t.pushes always v) + _ = _
      omega
  | vector t ih =>
    have hsum : (v.map fun x => total (t.pushes always x)).sum + (v.map (t.spare always)).sum =
        (v.map t.maxByteSize).sum + (v.map (t.beyond always)).sum :=
      sum_balance fun x hx => ih (h x hx)
    rw [pushes, total_append, total_pushesVarInt, total_flatMap, maxByteSize, spare, beyond]
    omega
  | done => rfl
  | member s unwire t rest iht ihrest =>
    obtain ⟨v, vs⟩ := v
    obtain ⟨hv, hvs⟩ := h
    have hrest := ihrest hvs
    rw [pushes, total_append, maxByteSize, spare, beyond]
    split_ifs with hwrites
    · have hfirst := iht (hv hwrites)
      omega
    · -- a member that is left out has all of its estimate to spare
      show 0 + _ + _ = _
      omega
  | union ts ih =>
    obtain ⟨i, v⟩ := v
    have hv := ih i h
    rw [pushes, total_append, total_pushesVarInt, maxByteSize, spare, beyond]
    omega

end Outline

namespace HeapBoard

variable {b : HeapBoard}

/-- Bytes that fit are put behind the unread ones, and the read position stays. -/
theorem Valid.call_push (h : b.Valid) {e : Bytes} (hfits : e.length ≤ b.M - b.T) :
    ∃ b', b.call (.push e) = some (.pushed true, b') ∧ b'.Valid ∧ b'.H = b.H ∧
      b'.unread = b.unread ++ e ∧ b'.M - b'.T = b.M - b.T - e.length := by
  obtain ⟨a, b', hcall, hqueue, hvalid⟩ := h.call_refines (.push e)
  have hroom : ¬ b.queue.Overrun (.push e) := not_lt.mpr hfits
  rw [Breadboard.Queue.step, if_neg hroom] at hqueue
  obtain ⟨rfl, hleft⟩ := Prod.mk.inj hqueue
  have hunread : b'.queue.bytes = _ := congrArg Breadboard.Queue.bytes hleft
  have hroom' : b'.queue.room = _ := congrArg Breadboard.Queue.room hleft
  refine ⟨b', hcall, hvalid, ?_, hunread, hroom'⟩
  rw [call, if_neg (not_lt.mpr hfits)] at hcall
  split_ifs at hcall
  obtain ⟨-, rfl⟩ := Prod.mk.inj (Option.some.inj hcall)
  rfl

theorem call_push_of_overrun {e : Bytes} (hover : b.M - b.T < e.length) :
    b.call (.push e) = some (.thrown, b) :=
  if_pos hover

/-- **Pushes that fit** all together. -/
theorem Valid.pushAll_map (h : b.Valid) {es : List Bytes}
    (hfits : es.flatten.length ≤ b.M - b.T) :
    ∃ b', b.pushAll (es.map some) = .ok b' ∧ b'.Valid ∧ b'.H = b.H ∧
      b'.unread = b.unread ++ es.flatten := by
  induction es generalizing b with
  | nil => exact ⟨b, rfl, h, rfl, (List.append_nil _).symm⟩
  | cons e es ih =>
    rw [List.flatten_cons, List.length_append] at hfits
    obtain ⟨b', hcall, hvalid, hH, hunread, hroom⟩ := h.call_push (e := e) (by omega)
    obtain ⟨b'', hall, hvalid', hH', hunread'⟩ := ih hvalid (by omega)
    refine ⟨b'', ?_, hvalid', hH'.trans hH, ?_⟩
    · rw [List.map_cons, pushAll, hcall]
      exact hall
    · rw [hunread', hunread, List.append_assoc, List.flatten_cons]

/-- Pushes that were made are there, and did fit. -/
theorem Valid.of_pushAll (h : b.Valid) {ps : List (Option Bytes)} {b' : HeapBoard}
    (hdone : b.pushAll ps = .ok b') : (∀ p ∈ ps, p ≠ none) ∧ total ps ≤ b.M - b.T := by
  induction ps generalizing b with
  | nil => exact ⟨by simp, Nat.zero_le _⟩
  | cons p ps ih =>
    cases p with
    | none => cases hdone
    | some e =>
      rcases le_or_gt e.length (b.M - b.T) with hfits | hover
      · obtain ⟨c, hcall, hvalid, -, -, hroom⟩ := h.call_push hfits
        rw [pushAll, hcall] at hdone
        obtain ⟨hps, htotal⟩ := ih hvalid hdone
        refine ⟨List.forall_mem_cons.mpr ⟨Option.some_ne_none e, hps⟩, ?_⟩
        show e.length + total ps ≤ _
        omega
      · rw [pushAll, call_push_of_overrun hover] at hdone
        cases hdone

/-- What nothing was read of is released as it is. -/
theorem Valid.release_unread (h : b.Valid) (hH : b.H = 0) :
    ∃ b', b.release = some (b.unread, b') := by
  have hsize : b.size = b.T := by rw [size, hH, Nat.sub_zero]
  have hunread : b.unread = b.memory.take b.T := by rw [unread, hH, List.drop_zero]
  by_cases hzero : b.size = 0
  · exact ⟨b, by rw [h.release_eq.1 hzero, h.unread_eq_nil_iff.mpr hzero]⟩
  · rw [release, if_pos hzero, hunread]
    by_cases hseals : b.Seals
    · have hroom : b.H + b.size ≤ b.memory.length := by
        rw [hH, hsize, Nat.zero_add]
        exact h.write_le.trans h.room
      rw [sealBoard, if_pos (by simpa [Seals, and_assoc] using hseals), if_pos hroom]
      refine ⟨_, congrArg some (Prod.ext ?_ rfl)⟩
      show ((b.memory.drop b.H).take b.size).take b.size = _
      rw [List.take_take, min_self, hH, List.drop_zero, hsize]
    · rw [h.sealBoard_eq.1 hseals]
      refine ⟨_, congrArg some (Prod.ext ?_ rfl)⟩
      show b.memory.take b.size = _
      rw [hsize]

/-- **A board of a size** takes the pushes, and its `Data` has them all. -/
theorem pack_iff {size : ℕ} {ps : List (Option Bytes)} :
    (∃ es : List Bytes, ps = es.map some ∧ ∀ junk, pack size junk ps = .ok es.flatten) ↔
      (∀ p ∈ ps, p ≠ none) ∧ total ps ≤ size ∧ total ps < 2 ^ 32 := by
  have hnew : ∀ junk : ℕ → UInt8, (ofSize ((List.range size).map junk)).M -
      (ofSize ((List.range size).map junk)).T = size := by
    intro junk
    show ((List.range size).map junk).length - 0 = size
    rw [List.length_map, List.length_range, Nat.sub_zero]
  have hpack : ∀ (es : List Bytes) (junk : ℕ → UInt8), es.flatten.length ≤ size →
      pack size junk (es.map some) = .ok (es.flatten.take (es.flatten.length % 2 ^ 32)) := by
    intro es junk hfits
    obtain ⟨b, hall, hvalid, hH, hunread⟩ :=
      (valid_ofSize ((List.range size).map junk)).pushAll_map (hfits.trans (hnew junk).ge)
    obtain ⟨b', hrelease⟩ := hvalid.release_unread hH
    have hbytes : b.unread = es.flatten := hunread.trans (List.nil_append _)
    rw [pack, hall]
    simp only [hrelease, hbytes]
  constructor
  · -- the pushes fit, or one would have thrown; the `Data` tells that they are less than 2^32
    rintro ⟨es, rfl, hdone⟩
    have hok := hdone fun _ => 0
    have hsome : ∀ p ∈ es.map some, p ≠ none := exists_map_some_iff.mp ⟨es, rfl⟩
    refine ⟨hsome, ?_⟩
    have hfits : total (es.map some) ≤ size := by
      rw [pack] at hok
      split at hok
      · cases hok
      · next b hb => exact ((valid_ofSize _).of_pushAll hb).2.trans (hnew _).le
    refine ⟨hfits, ?_⟩
    rw [total_map_some] at hfits ⊢
    rw [hpack es _ hfits, Except.ok.injEq] at hok
    have hlen := congrArg List.length hok
    rw [List.length_take_of_le (Nat.mod_le _ _)] at hlen
    exact hlen ▸ Nat.mod_lt _ (by decide)
  · rintro ⟨hsome, hfits, hsmall⟩
    obtain ⟨es, rfl⟩ := exists_map_some_iff.mpr hsome
    rw [total_map_some] at hfits hsmall
    refine ⟨es, rfl, fun junk => ?_⟩
    rw [hpack es junk hfits, Nat.mod_eq_of_lt hsmall, List.take_length]

end HeapBoard

/-! ### The estimates that are right -/

section

variable {α : Type}

/-- No more is written than was estimated. -/
def Estimated (always : Bool) (t : Outline α) (v : α) : Prop :=
  ∃ es : List Bytes, t.pushes always v = es.map some ∧ es.flatten.length ≤ t.maxByteSize v

/-- `serialize` returns the zero bytes and the encoding. -/
def Serialized (t : Outline α) (v : α) (off : ℕ) : Prop :=
  ∃ es : List Bytes, t.pushes false v = es.map some ∧
    ∀ junk, HeapBoard.serialize t v off junk = .ok (List.replicate off 0 ++ es.flatten)

/-- A value leaves enough room for zero bytes before it. -/
structure Fits (t : Outline α) (v : α) (off : ℕ) : Prop where
  narrow : t.Narrow false v
  /-- The loop does not overflow. -/
  counted : off < 2 ^ 31
  room : off + t.beyond false v ≤ t.spare false v + min off 16
  /-- A `Data` has less than 2^32 bytes. -/
  small : off + t.maxByteSize v + t.beyond false v < 2 ^ 32 + t.spare false v

theorem estimated_iff (always : Bool) (t : Outline α) (v : α) :
    Estimated always t v ↔ t.Narrow always v ∧ t.beyond always v ≤ t.spare always v := by
  constructor
  · rintro ⟨es, hes, hle⟩
    have hnarrow := (t.pushes_defined_iff v).mp (exists_map_some_iff.mp ⟨es, hes⟩)
    have hlen := t.length_pushes hnarrow
    rw [hes, total_map_some] at hlen
    exact ⟨hnarrow, by omega⟩
  · rintro ⟨hnarrow, hle⟩
    obtain ⟨es, hes⟩ := exists_map_some_iff.mpr ((t.pushes_defined_iff v).mpr hnarrow)
    have hlen := t.length_pushes hnarrow
    rw [hes, total_map_some] at hlen
    exact ⟨es, hes, by omega⟩

theorem zeros_eq {off : ℕ} (h : off < 2 ^ 31) :
    HeapBoard.zeros off = (List.replicate off [0]).map some := by
  rw [HeapBoard.zeros, min_eq_left h.le, if_pos h, List.append_nil, List.map_replicate]

theorem serialized_iff (t : Outline α) (v : α) (off : ℕ) : Serialized t v off ↔ Fits t v off := by
  have hpack := @HeapBoard.pack_iff (t.maxByteSize v + min off 16)
    (HeapBoard.zeros off ++ t.pushes false v)
  rw [List.forall_mem_append, t.pushes_defined_iff, total_append] at hpack
  have hzeros : ∀ es : List Bytes, (List.replicate off [(0 : UInt8)] ++ es).flatten =
      List.replicate off 0 ++ es.flatten := by
    intro es
    rw [List.flatten_append, List.flatten_replicate_singleton]
  by_cases hoff : off < 2 ^ 31
  · have htotal : total (HeapBoard.zeros off) = off := by
      rw [zeros_eq hoff, total_map_some, List.flatten_replicate_singleton, List.length_replicate]
    have hsome := exists_map_some_iff.mp ⟨_, zeros_eq hoff⟩
    rw [htotal, and_iff_right hsome] at hpack
    constructor
    · rintro ⟨es, hes, hdone⟩
      obtain ⟨hnarrow, hroom, hsmall⟩ := hpack.mp
        ⟨List.replicate off [0] ++ es, by rw [zeros_eq hoff, hes, List.map_append],
          fun junk => by rw [hzeros]; exact hdone junk⟩
      have hlen := t.length_pushes hnarrow
      exact ⟨hnarrow, hoff, by omega, by omega⟩
    · rintro ⟨hnarrow, -, hroom, hsmall⟩
      have hlen := t.length_pushes hnarrow
      obtain ⟨es, hes, hdone⟩ := hpack.mpr ⟨hnarrow, by omega, by omega⟩
      -- what is pushed first are the zero bytes
      obtain ⟨zs, vs, rfl, hz, hv⟩ := List.append_eq_map_iff.mp hes
      have hzs : zs = List.replicate off [0] :=
        List.map_injective_iff.mpr (Option.some_injective _) (hz.trans (zeros_eq hoff))
      refine ⟨vs, hv.symm, fun junk => ?_⟩
      rw [← hzeros, ← hzs]
      exact hdone junk
  · -- the board may take the zero bytes, but their count overflows
    refine iff_of_false ?_ fun h => hoff h.counted
    rintro ⟨es, hes, hdone⟩
    have hok := hdone fun _ => 0
    rw [HeapBoard.serialize, HeapBoard.pack] at hok
    split at hok
    · cases hok
    · next b hb =>
      have hsome := ((HeapBoard.valid_ofSize _).of_pushAll hb).1
      refine hsome none ?_ rfl
      rw [HeapBoard.zeros, if_neg hoff]
      simp

end

namespace Srpc

/-- The request of a call has the numbers and all parameters. -/
def Requested (params : List Param) : Prop :=
  ∃ es : List Bytes, pushesParams params = es.map some ∧ ∀ id method junk,
    request id method params junk = .ok (intBytes id ++ intBytes method ++ es.flatten)

/-- What each parameter of a call but the last takes, less eight bytes for each, fits into what
is spare and sixteen bytes. -/
structure Roomy (params : List Param) : Prop where
  narrow : ∀ p ∈ params, p.outline.Narrow false p.value
  room : (params.map fun p => p.outline.beyond false p.value).sum +
      (params.dropLast.map fun p => p.outline.maxByteSize p.value).sum ≤
    (params.map fun p => p.outline.spare false p.value).sum + 8 * (params.length - 1) + 16
  /-- A `Data` has less than 2^32 bytes. -/
  small : 8 + (params.map fun p => p.outline.maxByteSize p.value).sum +
      (params.map fun p => p.outline.beyond false p.value).sum <
    2 ^ 32 + (params.map fun p => p.outline.spare false p.value).sum

/-- The estimate for the parameters, against the sum of their own. -/
theorem paramsWireSize_add (params : List Param) :
    paramsWireSize params + (params.dropLast.map fun p => p.outline.maxByteSize p.value).sum =
      (params.map fun p => p.outline.maxByteSize p.value).sum + 8 * (params.length - 1) := by
  induction params with
  | nil => rfl
  | cons p ps ih =>
    cases ps with
    | nil => rfl
    | cons q ps =>
      rw [paramsWireSize, List.dropLast_cons_of_ne_nil (List.cons_ne_nil q ps), List.map_cons,
        List.sum_cons, List.map_cons, List.sum_cons, List.length_cons]
      · have hlen : (q :: ps).length = (q :: ps).length - 1 + 1 := rfl
        omega
      · exact List.cons_ne_nil q ps

theorem requested_iff (params : List Param) : Requested params ↔ Roomy params := by
  have hints : ∀ (id method : ℤ) (es : List Bytes),
      (intBytes id :: intBytes method :: es).flatten =
        intBytes id ++ intBytes method ++ es.flatten := by
    intro id method es
    rw [List.flatten_cons, List.flatten_cons, List.append_assoc]
  have hnarrow : (∀ p ∈ pushesParams params, p ≠ none) ↔
      ∀ p ∈ params, p.outline.Narrow false p.value := by
    rw [pushesParams, List.forall_mem_flatMap]
    exact forall₂_congr fun p _ => p.outline.pushes_defined_iff p.value
  have hsum := paramsWireSize_add params
  have htotal : ∀ id method : ℤ, total (some (intBytes id) :: some (intBytes method) ::
      pushesParams params) = 8 + total (pushesParams params) := by
    intro id method
    show (intBytes id).length + ((intBytes method).length + total (pushesParams params)) = _
    rw [intBytes_length, intBytes_length]
    omega
  have hlen (h : ∀ p ∈ params, p.outline.Narrow false p.value) :
      total (pushesParams params) + (params.map fun p => p.outline.spare false p.value).sum =
        (params.map fun p => p.outline.maxByteSize p.value).sum +
          (params.map fun p => p.outline.beyond false p.value).sum := by
    rw [pushesParams, total_flatMap]
    exact sum_balance fun p hp => p.outline.length_pushes (h p hp)
  have hpack (id method : ℤ) := @HeapBoard.pack_iff
    (8 + paramsWireSize params + 16)
    (some (intBytes id) :: some (intBytes method) :: pushesParams params)
  simp only [htotal, List.forall_mem_cons, ne_eq, reduceCtorEq, not_false_eq_true,
    true_and] at hpack
  constructor
  · rintro ⟨es, hes, hdone⟩
    obtain ⟨hsome, hroom, hsmall⟩ := (hpack 0 0).mp ⟨intBytes 0 :: intBytes 0 :: es,
      by rw [hes]; rfl, fun junk => by rw [hints]; exact hdone 0 0 junk⟩
    have hn := hnarrow.mp hsome
    have hl := hlen hn
    exact ⟨hn, by omega, by omega⟩
  · rintro ⟨hn, hroom, hsmall⟩
    have hl := hlen hn
    obtain ⟨es, hes⟩ := exists_map_some_iff.mpr (hnarrow.mpr hn)
    refine ⟨es, hes, fun id method junk => ?_⟩
    obtain ⟨es', hes', hdone⟩ := (hpack id method).mpr ⟨hnarrow.mpr hn, by omega, by omega⟩
    have heq : es' = intBytes id :: intBytes method :: es := by
      refine List.map_injective_iff.mpr (Option.some_injective _) (hes'.symm.trans ?_)
      rw [hes]
      rfl
    rw [← hints, ← heq]
    exact hdone junk

end Srpc

/-- **The values, offsets and parameters that have their room.** -/
theorem estimates_right_iff {α : Type} (t : Outline α) (v : α) (always : Bool) (off : ℕ)
    (params : List Srpc.Param) :
    (Estimated always t v ↔ t.Narrow always v ∧ t.beyond always v ≤ t.spare always v) ∧
      (Serialized t v off ↔ Fits t v off) ∧ (Srpc.Requested params ↔ Srpc.Roomy params) :=
  ⟨estimated_iff always t v, serialized_iff t v off, Srpc.requested_iff params⟩

/-- A union of two strings of bytes. -/
def twoStrings : Outline (Σ _ : Fin 2, Bytes) := .union fun _ => .data

/-- The second member of a union is written with a byte more than was estimated; there is room for
sixteen zero bytes only; a first parameter is given eight bytes. -/
theorem not_estimates_right :
    ¬ Estimated false twoStrings ⟨1, [7]⟩ ∧
      HeapBoard.serialize twoStrings ⟨1, [7]⟩ 0 (fun _ => 0) = .error (.raised ()) ∧
      HeapBoard.serialize .data [7] 17 (fun _ => 0) = .error (.raised ()) ∧
      Srpc.request 1 2 [⟨.data, List.replicate 30 7⟩, ⟨.data, [7]⟩] (fun _ => 0) =
        .error (.raised ()) := by
  refine ⟨?_, rfl, rfl, rfl⟩
  intro h
  exact absurd ((estimated_iff _ _ _).mp h).2 (by decide)

end Suil
