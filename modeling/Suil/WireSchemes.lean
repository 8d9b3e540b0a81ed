/-
The two ways of putting a structure on the wire.

The members of an `iod::sio` are written by `Wire::operator<<`, those of a meta
type by `metaToWire`.  Both leave out a member marked `unwire` under a condition;
the first asks for `always`, the second for `isFilterOn`, which is its negation.

* `readFields_writeFields` — a scheme reads back the members it wrote;
* `keeps_metaType` — of a marked member the two schemes never do the same;
* `schemesAgree_iff` — the schemes agree on the structures without such members.
-/
import Suil.Wire

namespace Suil

/-- How a type is written and read under a value of `always`. -/
structure Codec (α : Type) where
  write : Bool → α → Option Bytes
  read : Bool → α → Bytes → Option (α × Bytes)

/-- Reading what was written restores the value, whatever the destination holds. -/
def Codec.RoundTrips {α : Type} (c : Codec α) (always : Bool) : Prop :=
  ∀ v d bs s, c.write always v = some bs → c.read always d (bs ++ s) = some (v, s)

/-- A member of a structure, and whether it has the attribute `unwire`. -/
structure Member where
  type : Type
  codec : Codec type
  unwire : Bool

/-- The values of the members. -/
def Values : List Member → Type
  | [] => Unit
  | m :: ms => m.type × Values ms

/-- `isFilterOn`. -/
def isFilterOn (always : Bool) : Bool := !always

/-- The members that are kept, one after another. -/
def writeFields (keep : Member → Bool) (always : Bool) :
    (ms : List Member) → Values ms → Option Bytes
  | [], _ => some []
  | m :: ms, (v, vs) =>
    if keep m then do
      let bs ← m.codec.write always v
      let rest ← writeFields keep always ms vs
      some (bs ++ rest)
    else writeFields keep always ms vs

/-- The members that are kept, read into a structure. -/
def readFields (keep : Member → Bool) (always : Bool) :
    (ms : List Member) → Values ms → Bytes → Option (Values ms × Bytes)
  | [], _, s => some ((), s)
  | m :: ms, (d, ds), s =>
    if keep m then do
      let (v, s) ← m.codec.read always d s
      let (vs, s) ← readFields keep always ms ds s
      some ((v, vs), s)
    else (readFields keep always ms ds s).map fun p => ((d, p.1), p.2)

/-- The schemes: over `sio` and over meta types. -/
inductive Scheme where
  | sio
  | metaType

namespace Scheme

/-- The condition of a scheme on a member. -/
def keeps : Scheme → Bool → Member → Bool
  | sio, always, m => !m.unwire || always
  | metaType, always, m => !m.unwire || isFilterOn always

/-- `operator<<(const iod::sio<T...>&)` and `metaToWire`. -/
def write (s : Scheme) (always : Bool) (ms : List Member) (o : Values ms) : Option Bytes :=
  writeFields (s.keeps always) always ms o

/-- `operator>>(iod::sio<T...>&)` and `metaFromWire`. -/
def read (s : Scheme) (always : Bool) (ms : List Member) (o : Values ms) (bs : Bytes) :
    Option (Values ms × Bytes) :=
  readFields (s.keeps always) always ms o bs

/-- A structure as the member of another one. -/
def codec (s : Scheme) (ms : List Member) : Codec (Values ms) where
  write always := s.write always ms
  read always := s.read always ms

end Scheme

/-- The kept members of `v`, and the others of `d`. -/
def merged (keep : Member → Bool) : (ms : List Member) → Values ms → Values ms → Values ms
  | [], _, _ => ()
  | m :: ms, (v, vs), (d, ds) => (if keep m then v else d, merged keep ms vs ds)

/-- The members that belong on the wire: those that are not marked, and all of them when
filtering is off. -/
def onWire (always : Bool) (m : Member) : Bool := !m.unwire || !isFilterOn always

/-- Both schemes include the members that belong on the wire, and a value written by either
is restored by either. -/
structure SchemesAgree (always : Bool) (ms : List Member) : Prop where
  fields : ∀ (s : Scheme), ∀ m ∈ ms, s.keeps always m = onWire always m
  decoded : (∀ m ∈ ms, m.codec.RoundTrips always) →
    ∀ (w r : Scheme) (v d : Values ms) (bs s : Bytes), w.write always ms v = some bs →
      r.read always ms d (bs ++ s) = some (merged (onWire always) ms v d, s)

variable {keep keep' : Member → Bool} {always : Bool} {ms : List Member}

/-- The fields depend on the condition at the members only. -/
theorem writeFields_congr (h : ∀ m ∈ ms, keep m = keep' m) (v : Values ms) :
    writeFields keep always ms v = writeFields keep' always ms v := by
  induction ms with
  | nil => rfl
  | cons m ms ih =>
    obtain ⟨hm, hms⟩ := List.forall_mem_cons.mp h
    show (if keep m then _ else _) = if keep' m then _ else _
    rw [hm, ih hms v.2]

theorem merged_congr (h : ∀ m ∈ ms, keep m = keep' m) (v d : Values ms) :
    merged keep ms v d = merged keep' ms v d := by
  induction ms with
  | nil => rfl
  | cons m ms ih =>
    obtain ⟨hm, hms⟩ := List.forall_mem_cons.mp h
    show (if keep m then v.1 else d.1, _) = (if keep' m then v.1 else d.1, _)
    rw [hm, ih hms v.2 d.2]

/-- **A scheme reads back the members that it wrote**, and leaves the others. -/
theorem readFields_writeFields (hround : ∀ m ∈ ms, m.codec.RoundTrips always) {v d : Values ms}
    {bs : Bytes} (h : writeFields keep always ms v = some bs) (s : Bytes) :
    readFields keep always ms d (bs ++ s) = some (merged keep ms v d, s) := by
  induction ms generalizing bs with
  | nil =>
    obtain rfl := Option.some.inj h
    rfl
  | cons m ms ih =>
    obtain ⟨hm, hms⟩ := List.forall_mem_cons.mp hround
    obtain ⟨v, vs⟩ := v
    obtain ⟨d, ds⟩ := d
    rw [writeFields] at h
    rw [readFields, merged]
    by_cases hkeep : keep m = true
    · rw [if_pos hkeep] at h
      obtain ⟨b, hb, h⟩ := Option.bind_eq_some_iff.mp h
      obtain ⟨rest, hrest, h⟩ := Option.bind_eq_some_iff.mp h
      obtain rfl := Option.some.inj h
      rw [if_pos hkeep, if_pos hkeep, List.append_assoc, hm v d b _ hb]
      simp only [Option.bind_eq_bind, Option.bind_some, ih hms hrest]
    · rw [if_neg hkeep] at h
      rw [if_neg hkeep, if_neg hkeep, ih hms h]
      rfl

/-- A scheme that includes the right members of a structure reads what the other one wrote,
if that does so, too. -/
theorem read_write (hround : ∀ m ∈ ms, m.codec.RoundTrips always) {w r : Scheme}
    (hw : ∀ m ∈ ms, w.keeps always m = onWire always m)
    (hr : ∀ m ∈ ms, r.keeps always m = onWire always m) {v d : Values ms} {bs : Bytes}
    (h : w.write always ms v = some bs) (s : Bytes) :
    r.read always ms d (bs ++ s) = some (merged (onWire always) ms v d, s) := by
  have hsame : ∀ m ∈ ms, w.keeps always m = r.keeps always m := by
    intro m hm
    rw [hw m hm, hr m hm]
  rw [Scheme.write, writeFields_congr hsame] at h
  rw [Scheme.read, readFields_writeFields hround h s, merged_congr hr]

/-- Of a marked member the two schemes never do the same. -/
theorem keeps_metaType {m : Member} (h : m.unwire = true) (always : Bool) :
    Scheme.metaType.keeps always m = !Scheme.sio.keeps always m := by
  simp [Scheme.keeps, h, isFilterOn]

theorem keeps_of_unmarked {m : Member} (h : m.unwire = false) (s : Scheme) (always : Bool) :
    s.keeps always m = onWire always m := by
  cases s <;> simp [Scheme.keeps, onWire, h]

/-- **For which structures the schemes agree.** -/
theorem schemesAgree_iff (always : Bool) (ms : List Member) :
    SchemesAgree always ms ↔ ∀ m ∈ ms, m.unwire = false := by
  constructor
  · intro h m hm
    rw [← Bool.not_eq_true]
    intro hmarked
    -- one scheme leaves the member out, and the other one does not
    have hsio := h.fields .sio m hm
    have hmeta := h.fields .metaType m hm
    rw [keeps_metaType hmarked, hsio] at hmeta
    cases honWire : onWire always m <;> simp [honWire] at hmeta
  · intro h
    have hfields : ∀ (s : Scheme), ∀ m ∈ ms, s.keeps always m = onWire always m :=
      fun s m hm => keeps_of_unmarked (h m hm) s always
    refine ⟨hfields, ?_⟩
    intro hround w r v d bs s hwrite
    exact read_write hround (hfields w) (hfields r) hwrite s

theorem merged_of_all (h : ∀ m ∈ ms, keep m = true) (v d : Values ms) : merged keep ms v d = v := by
  induction ms with
  | nil => rfl
  | cons m ms ih =>
    obtain ⟨hm, hms⟩ := List.forall_mem_cons.mp h
    show (if keep m then v.1 else d.1, _) = v
    rw [if_pos hm, ih hms v.2 d.2]
    rfl

/-- Without marked members a structure is restored, and can be a member itself. -/
theorem Scheme.codec_roundTrips (h : ∀ m ∈ ms, m.unwire = false)
    (hround : ∀ m ∈ ms, m.codec.RoundTrips always) (s : Scheme) :
    (s.codec ms).RoundTrips always := by
  intro v d bs rest hwrite
  have hkeeps : ∀ m ∈ ms, s.keeps always m = onWire always m :=
    fun m hm => keeps_of_unmarked (h m hm) s always
  have hdecoded : s.read always ms d (bs ++ rest) = _ := read_write hround hkeeps hkeeps hwrite rest
  rwa [merged_of_all fun m hm => by simp [onWire, h m hm]] at hdecoded

/-- A member of one byte. -/
def byteMember (unwire : Bool) : Member where
  type := Vector UInt8 1
  codec := ⟨fun _ => (WireType.scalar 1).encode, fun _ => (WireType.scalar 1).decode⟩
  unwire := unwire

/-- A structure of two bytes, the second one marked: what `sio` writes with the filter is
too short for `metaFromWire`, and without it too long. -/
theorem not_schemesAgree :
    ¬ SchemesAgree false [byteMember false, byteMember true] ∧
      ¬ SchemesAgree true [byteMember false, byteMember true] ∧
      Scheme.sio.write false [byteMember false, byteMember true] (#v[7], #v[8], ()) = some [7] ∧
      Scheme.metaType.read false [byteMember false, byteMember true] (#v[0], #v[0], ()) [7] = none ∧
      Scheme.sio.write true [byteMember false, byteMember true] (#v[7], #v[8], ()) = some [7, 8] ∧
      Scheme.metaType.read true [byteMember false, byteMember true] (#v[0], #v[0], ()) [7, 8] =
        some ((#v[7], #v[0], ()), [8]) := by
  refine ⟨fun h => ?_, fun h => ?_, rfl, rfl, rfl, rfl⟩
  · exact absurd (h.fields .metaType (byteMember true) (by simp)) (by decide)
  · exact absurd (h.fields .metaType (byteMember true) (by simp)) (by decide)

end Suil
