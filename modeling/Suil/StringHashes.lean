/-
The hash that a string keeps.

`Hasher<String>` and `CaseInsensitiveHash` keep what they computed in `m_hash` of the
string, in one place, and take what they find there.  Copies and moves bring it along; the
functions that write into the memory of a string leave it, in this string and in the others
that look at the same memory.

* `computeHash_change` — writing a letter in the other case leaves the case-insensitive hash;
* `step_hashes_iff` — which operations leave the kept hashes right;
* `run_hashes_iff` — the runs of which every operation does.
-/
import Suil.StringKeys
import Suil.Lib.Runs

open Runs

namespace Suil

inductive Hasher where
  | caseSensitive
  | caseInsensitive
deriving DecidableEq

/-- What a hasher computes when nothing is kept; `std` is `std::hash<strview>`. -/
def Hasher.compute (std : Bytes → UInt64) : Hasher → Bytes → UInt64
  | caseSensitive, d => std d
  | caseInsensitive, d => Key.computeHash d

/-- The equality of the maps that use a hasher. -/
def Hasher.compare : Hasher → Key → Key → Bool
  | caseSensitive, l, r => strEq l.bytes r.bytes
  | caseInsensitive, l, r => l.compare r

namespace Hashes

/-- A `String`: a null pointer, or a block of memory and where it begins there.  `hashedBy`
records the hasher that computed `m_hash`, which is zero before. -/
structure Str where
  m_str : Option (ℕ × ℕ)
  m_len : ℕ
  m_own : Bool
  m_hash : UInt64
  hashedBy : Option Hasher
deriving DecidableEq

abbrev Memory := ℕ → Option Bytes

/-- A node of a map keeps the hash under which its key was inserted. -/
structure Node where
  code : UInt64
  key : Key

/-- The strings of a program, in the order in which they were constructed, and its maps. -/
structure Strings where
  mem : Memory := fun _ => none
  blocks : ℕ := 0
  vars : List Str := []
  maps : Hasher → ℕ → List Node := fun _ _ => []

/-- `String()`. -/
def Str.null : Str := ⟨none, 0, false, 0, none⟩

/-- What a string reads; none when it is not there, or no longer. -/
def Str.contents (mem : Memory) (x : Str) : Option Bytes :=
  if x.m_len = 0 then some []
  else do
    let (b, off) ← x.m_str
    let d ← mem b
    if off + x.m_len ≤ d.length then some ((d.drop off).take x.m_len) else none

/-- The string as the key of a lookup. -/
def Str.key (x : Str) (d : Bytes) : Key := ⟨if x.m_str = none then none else some d, x.m_hash⟩

/-- A hasher on a string that holds `d`. -/
def Str.hashed (std : Bytes → UInt64) (h : Hasher) (x : Str) (d : Bytes) : Str :=
  if x.m_hash ≠ 0 then x else { x with m_hash := h.compute std d, hashedBy := some h }

inductive Op where
  | null
  | create (d : Bytes) (own : Bool)
  | view (j off n : ℕ)
  | copyConstruct (j : ℕ)
  | moveConstruct (j : ℕ)
  | copyAssign (i j : ℕ)
  | moveAssign (i j : ℕ)
  | destroy (i : ℕ)
  | toupper (i : ℕ)
  | tolower (i : ℕ)
  | hash (h : Hasher) (i : ℕ)
  | find (h : Hasher) (m i : ℕ)
  | insert (h : Hasher) (m i : ℕ)

inductive Answer where
  | done
  | hashed (v : UInt64)
  | found (v : UInt64) (ok : Bool)
deriving DecidableEq

namespace Strings

/-- New memory; a number is not given out twice. -/
def alloc (s : Strings) (d : Bytes) : Strings :=
  { s with mem := Function.update s.mem s.blocks (some d), blocks := s.blocks + 1 }

/-- `duplicate`: a null pointer for no bytes. -/
def duplicate (s : Strings) (d : Bytes) : Option (ℕ × ℕ) × Strings :=
  if d = [] then (none, s) else (some (s.blocks, 0), s.alloc d)

/-- `::free(m_str)`, of a string that owns it. -/
def free (s : Strings) (x : Str) : Strings :=
  match x.m_str with
  | some (b, _) => if x.m_own then { s with mem := Function.update s.mem b none } else s
  | none => s

/-- The loop of `toupper` and `tolower`, whose index is an `int`. -/
def change (s : Strings) (x : Str) (f : UInt8 → UInt8) : Option Strings :=
  if x.m_len = 0 then some s
  else do
    let (b, off) ← x.m_str
    let d ← s.mem b
    if off + x.m_len ≤ d.length ∧ x.m_len < 2 ^ 31 then
      some { s with
        mem := Function.update s.mem b (some (d.take off ++ ((d.drop off).take x.m_len).map f ++
          d.drop (off + x.m_len))) }
    else none

/-- The nodes that a lookup finds: those of its hash that compare equal. -/
def lookup (s : Strings) (h : Hasher) (m : ℕ) (k : Key) (v : UInt64) : Bool :=
  (s.maps h m).any fun n => n.code == v && h.compare k n.key

variable (std : Bytes → UInt64)

/-- One operation, with the target first; a constructed string is the next one.  None when it
reads memory that is not there. -/
def step (s : Strings) : Op → Option (Answer × Strings)
  | .null => some (.done, { s with vars := s.vars ++ [.null] })
  | .create d own =>
    some (.done, { s.alloc d with
      vars := s.vars ++ [⟨some (s.blocks, 0), d.length % 2 ^ 32, own, 0, none⟩] })
  | .view j off n => do
    -- `peek`, and the substrings that share the memory
    let y ← s.vars[j]?
    if off + n ≤ y.m_len then
      some (.done, { s with
        vars := s.vars ++ [⟨y.m_str.map fun p => (p.1, p.2 + off), n, false, 0, none⟩] })
    else none
  | .copyConstruct j => do
    let y ← s.vars[j]?
    let d ← y.contents s.mem
    let (p, t) := s.duplicate d
    some (.done, { t with vars := s.vars ++ [{ y with m_str := p, m_own := true }] })
  | .moveConstruct j => do
    let y ← s.vars[j]?
    some (.done, { s with vars := s.vars.set j .null ++ [y] })
  | .copyAssign i j => do
    let x ← s.vars[i]?
    let y ← s.vars[j]?
    if i = j then some (.done, s)
    else
      let t := s.free x
      let d ← y.contents t.mem
      let (p, t) := t.duplicate d
      -- the copy owns its memory only when the other one does
      some (.done, { t with vars := s.vars.set i { y with m_str := p } })
  | .moveAssign i j => do
    let x ← s.vars[i]?
    let y ← s.vars[j]?
    if i = j then some (.done, s)
    else some (.done, { s.free x with vars := (s.vars.set j .null).set i y })
  | .destroy i => do
    let x ← s.vars[i]?
    some (.done, { s.free x with vars := s.vars.set i .null })
  | .toupper i => do
    let x ← s.vars[i]?
    let t ← s.change x upper
    some (.done, t)
  | .tolower i => do
    let x ← s.vars[i]?
    let t ← s.change x lower
    some (.done, t)
  | .hash h i => do
    let x ← s.vars[i]?
    let d ← x.contents s.mem
    let x := x.hashed std h d
    some (.hashed x.m_hash, { s with vars := s.vars.set i x })
  | .find h m i => do
    let x ← s.vars[i]?
    let d ← x.contents s.mem
    let x := x.hashed std h d
    some (.found x.m_hash (s.lookup h m (x.key d) x.m_hash), { s with vars := s.vars.set i x })
  | .insert h m i => do
    -- `operator[]`, which copies a key that it does not find
    let x ← s.vars[i]?
    let d ← x.contents s.mem
    let x := x.hashed std h d
    let ok := s.lookup h m (x.key d) x.m_hash
    let node : Node := ⟨x.m_hash, ⟨if d = [] then none else some d, x.m_hash⟩⟩
    some (.found x.m_hash ok, { s with
      vars := s.vars.set i x
      maps := if ok then s.maps
        else Function.update s.maps h (Function.update (s.maps h) m (node :: s.maps h m)) })

end Strings

/-! ### What a write leaves -/

theorem hashByte_upper (c : UInt8) : Key.hashByte (upper c) = Key.hashByte c := by
  have hc : upper (upper c) = upper c ∧ (upper c < 128 ↔ c < 128) := by
    revert c
    exact forall_byte (by decide +kernel)
  simp only [Key.hashByte, hc.1, hc.2]

/-- The case-insensitive hash is one of the bytes in upper case. -/
theorem computeHash_eq_of_map {a b : Bytes} (h : a.map Key.hashByte = b.map Key.hashByte) :
    Key.computeHash a = Key.computeHash b := by
  have hfold : ∀ d : Bytes, Key.computeHash d = (d.map Key.hashByte).foldl
      (fun hash c => (hash ^^^ c) * 0x100000001b3) 0xcbf29ce484222325 := by
    intro d
    rw [List.foldl_map, Key.computeHash]
  rw [hfold, hfold, h]

variable {mem mem' : Memory} {x : Str} {s t : Strings} {d d' : Bytes} {h : Hasher}

theorem contents_of_len (hlen : x.m_len = 0) : x.contents mem = some [] := if_pos hlen

theorem contents_eq_some_iff (hlen : x.m_len ≠ 0) : x.contents mem = some d ↔
    ∃ b off whole, x.m_str = some (b, off) ∧ mem b = some whole ∧
      off + x.m_len ≤ whole.length ∧ d = (whole.drop off).take x.m_len := by
  rw [Str.contents, if_neg hlen]
  constructor
  · intro hd
    obtain ⟨⟨b, off⟩, hstr, hd⟩ := Option.bind_eq_some_iff.mp hd
    obtain ⟨whole, hwhole, hd⟩ := Option.bind_eq_some_iff.mp hd
    split_ifs at hd with hle
    exact ⟨b, off, whole, hstr, hwhole, hle, (Option.some.inj hd).symm⟩
  · rintro ⟨b, off, whole, hstr, hwhole, hle, rfl⟩
    rw [hstr]
    show (mem b >>= _) = _
    rw [hwhole]
    exact if_pos hle

/-- Memory that is freed or new changes no string that is still there. -/
theorem contents_mono
    (hmem : ∀ b off, x.m_str = some (b, off) → ∀ w, mem' b = some w → mem b = some w)
    (hd : x.contents mem' = some d) : x.contents mem = some d := by
  by_cases hlen : x.m_len = 0
  · rwa [contents_of_len hlen] at hd ⊢
  · obtain ⟨b, off, whole, hstr, hwhole, hle, rfl⟩ := (contents_eq_some_iff hlen).mp hd
    exact (contents_eq_some_iff hlen).mpr
      ⟨b, off, whole, hstr, hmem b off hstr whole hwhole, hle, rfl⟩

/-- **Writing in the other case** leaves the case-insensitive hash of every string. -/
theorem computeHash_change {f : UInt8 → UInt8} (hf : ∀ c, Key.hashByte (f c) = Key.hashByte c)
    {y : Str} (ht : s.change y f = some t) (hd' : x.contents t.mem = some d') :
    ∃ d, x.contents s.mem = some d ∧ Key.computeHash d' = Key.computeHash d := by
  rw [Strings.change] at ht
  split_ifs at ht with hy
  · obtain rfl := Option.some.inj ht
    exact ⟨d', hd', rfl⟩
  · obtain ⟨⟨b, off⟩, hstr, ht⟩ := Option.bind_eq_some_iff.mp ht
    obtain ⟨whole, hwhole, ht⟩ := Option.bind_eq_some_iff.mp ht
    split_ifs at ht with hle
    obtain rfl := Option.some.inj ht
    by_cases hlen : x.m_len = 0
    · rw [contents_of_len hlen] at hd' ⊢
      exact ⟨_, rfl, by rw [Option.some.inj hd']⟩
    · obtain ⟨b', off', whole', hstr', hwhole', hle', rfl⟩ := (contents_eq_some_iff hlen).mp hd'
      change Function.update s.mem b _ b' = some whole' at hwhole'
      rcases eq_or_ne b' b with rfl | hne
      · -- the block that is written
        rw [Function.update_self] at hwhole'
        obtain rfl := Option.some.inj hwhole'
        have hsplit : whole.take off ++ (whole.drop off).take y.m_len ++
            whole.drop (off + y.m_len) = whole := by
          rw [List.append_assoc, ← List.drop_drop, List.take_append_drop, List.take_append_drop]
        have hmap : (whole.take off ++ ((whole.drop off).take y.m_len).map f ++
            whole.drop (off + y.m_len)).map Key.hashByte = whole.map Key.hashByte := by
          conv_rhs => rw [← hsplit]
          have hcomp : Key.hashByte ∘ f = Key.hashByte := funext hf
          simp only [List.map_append, List.map_map, hcomp]
        have hlength := congrArg List.length hmap
        rw [List.length_map, List.length_map] at hlength
        rw [hlength] at hle'
        refine ⟨_, (contents_eq_some_iff hlen).mpr ⟨_, _, _, hstr', hwhole, hle', rfl⟩, ?_⟩
        refine computeHash_eq_of_map ?_
        rw [List.map_take, List.map_drop, hmap, List.map_take, List.map_drop]
      · rw [Function.update_of_ne hne] at hwhole'
        exact ⟨_, (contents_eq_some_iff hlen).mpr ⟨_, _, _, hstr', hwhole', hle', rfl⟩, rfl⟩

/-! ### The kept hashes -/

variable (std : Bytes → UInt64)

/-- The kept hash is the one that its hasher computes of what the string holds now. -/
def Str.Fresh (mem : Memory) (x : Str) : Prop :=
  ∀ d, x.contents mem = some d → x.m_hash ≠ 0 →
    ∃ h, x.hashedBy = some h ∧ x.m_hash = h.compute std d

/-- What the strings and the nodes of the maps keep. -/
structure Strings.Fresh (s : Strings) : Prop where
  vars : ∀ x ∈ s.vars, x.Fresh std s.mem
  nodes : ∀ h m, ∀ n ∈ s.maps h m, n.code = h.compute std n.key.bytes

/-- The hasher and the string of an operation that hashes. -/
def Op.key : Op → Option (Hasher × ℕ)
  | .hash h i | .find h _ i | .insert h _ i => some (h, i)
  | _ => none

def Answer.code : Answer → Option UInt64
  | .done => none
  | .hashed v | .found v _ => some v

/-- The hasher answers with its hash of what the string holds, and no hash that is kept is stale. -/
structure Right (m : Move Strings Op Answer) : Prop where
  answered : ∀ h i, m.input.key = some (h, i) → ∃ x d, m.before.vars[i]? = some x ∧
    x.contents m.before.mem = some d ∧ m.output.code = some (h.compute std d)
  fresh : m.after.Fresh std

/-- The strings with a case-sensitive hash keep it when the letters of `x` are written. -/
def KeepsHashes (s : Strings) (x : Str) (f : UInt8 → UInt8) : Prop :=
  ∀ t ∈ s.change x f, ∀ y ∈ s.vars, y.m_hash ≠ 0 → y.hashedBy = some .caseSensitive →
    ∀ d ∈ y.contents s.mem, ∀ d' ∈ y.contents t.mem, std d' = std d

/-- The operations that are right: a string is hashed by the hasher that hashed it before, or by
none before, and its letters are not written once the case-sensitive hash is kept of them; or the
two hashes happen to be equal. -/
def Allowed (s : Strings) : Op → Prop
  | .hash h i | .find h _ i | .insert h _ i => ∀ x ∈ s.vars[i]?, x.m_hash ≠ 0 →
      x.hashedBy ≠ some h → ∀ d ∈ x.contents s.mem, std d = Key.computeHash d
  | .toupper i => ∀ x ∈ s.vars[i]?, KeepsHashes std s x upper
  | .tolower i => ∀ x ∈ s.vars[i]?, KeepsHashes std s x lower
  | _ => True

/-- A string whose hash is not stale, in a block that was given out. -/
structure Str.Sound (mem : Memory) (blocks : ℕ) (x : Str) : Prop where
  fresh : x.Fresh std mem
  bound : ∀ b off, x.m_str = some (b, off) → b < blocks

structure Inv (s : Strings) : Prop where
  vars : ∀ x ∈ s.vars, x.Sound std s.mem s.blocks
  nodes : ∀ h m, ∀ n ∈ s.maps h m, n.code = h.compute std n.key.bytes

variable {std}

theorem Inv.fresh (hs : Inv std s) : s.Fresh std := ⟨fun x hx => (hs.vars x hx).fresh, hs.nodes⟩

theorem fresh_of_hash (hx : x.m_hash = 0) : x.Fresh std mem := fun _ _ hne => absurd hx hne

theorem sound_null (mem : Memory) (blocks : ℕ) : Str.null.Sound std mem blocks :=
  ⟨fresh_of_hash rfl, fun _ _ hstr => absurd hstr nofun⟩

theorem Str.Sound.alloc (hx : x.Sound std s.mem s.blocks) (d : Bytes) :
    x.Sound std (s.alloc d).mem (s.alloc d).blocks := by
  refine ⟨fun d' hd' => hx.fresh d' (contents_mono (fun b off hstr w hw => ?_) hd'),
    fun b off hstr => Nat.lt_succ_of_lt (hx.bound b off hstr)⟩
  change Function.update s.mem s.blocks _ b = some w at hw
  rwa [Function.update_of_ne (hx.bound b off hstr).ne] at hw

theorem mem_free {y : Str} {b : ℕ} {w : Bytes} (hw : (s.free y).mem b = some w) :
    s.mem b = some w := by
  rw [Strings.free] at hw
  rcases hstr : y.m_str with _ | ⟨b', off⟩
  · rwa [hstr] at hw
  · rw [hstr] at hw
    simp only at hw
    split_ifs at hw
    · change Function.update s.mem b' none b = some w at hw
      rcases eq_or_ne b b' with rfl | hne
      · rw [Function.update_self] at hw
        cases hw
      · rwa [Function.update_of_ne hne] at hw
    · exact hw

@[simp] theorem blocks_free {y : Str} : (s.free y).blocks = s.blocks := by
  rw [Strings.free]
  split
  · split_ifs <;> rfl
  · rfl

@[simp] theorem maps_free {y : Str} : (s.free y).maps = s.maps := by
  rw [Strings.free]
  split
  · split_ifs <;> rfl
  · rfl

theorem Str.Sound.free (hx : x.Sound std s.mem s.blocks) (y : Str) :
    x.Sound std (s.free y).mem (s.free y).blocks := by
  refine ⟨fun d hd => hx.fresh d (contents_mono (fun _ _ _ _ => mem_free) hd), ?_⟩
  rw [blocks_free]
  exact hx.bound

theorem length_contents (hd : x.contents mem = some d) : d.length = x.m_len := by
  by_cases hlen : x.m_len = 0
  · rw [contents_of_len hlen] at hd
    rw [← Option.some.inj hd, hlen]
    rfl
  · obtain ⟨b, off, whole, -, -, hle, rfl⟩ := (contents_eq_some_iff hlen).mp hd
    rw [List.length_take, List.length_drop]
    omega

@[simp] theorem maps_duplicate : (s.duplicate d).2.maps = s.maps := by
  rw [Strings.duplicate]
  split_ifs <;> rfl

theorem Str.Sound.duplicate (hx : x.Sound std s.mem s.blocks) (d : Bytes) :
    x.Sound std (s.duplicate d).2.mem (s.duplicate d).2.blocks := by
  rw [Strings.duplicate]
  split_ifs
  · exact hx
  · exact hx.alloc d

/-- A copy holds what the string holds, and the hash that it keeps. -/
theorem Str.Sound.copy (hx : x.Sound std s.mem s.blocks) (hd : x.contents s.mem = some d)
    (own : Bool) : Str.Sound std (s.duplicate d).2.mem (s.duplicate d).2.blocks
      { x with m_str := (s.duplicate d).1, m_own := own } := by
  have hlength := length_contents hd
  rw [Strings.duplicate]
  split_ifs with hnil
  · have hlen : x.m_len = 0 := by rw [← hlength, hnil, List.length_nil]
    refine ⟨fun d' hd' => ?_, fun b off hstr => absurd hstr nofun⟩
    have hempty : Str.contents s.mem { x with m_str := none, m_own := own } = some [] := if_pos hlen
    obtain rfl := Option.some.inj (hempty.symm.trans hd')
    exact hx.fresh [] (contents_of_len hlen)
  · have hlen : x.m_len ≠ 0 := by
      rw [← hlength]
      exact fun hzero => hnil (List.length_eq_zero_iff.mp hzero)
    refine ⟨fun d' hd' => ?_, fun b off hstr => ?_⟩
    · obtain ⟨b, off, whole, hstr, hwhole, -, rfl⟩ := (contents_eq_some_iff
        (x := { x with m_str := some (s.blocks, 0), m_own := own }) hlen).mp hd'
      obtain ⟨rfl, rfl⟩ := Prod.mk.inj (Option.some.inj hstr)
      obtain rfl := Option.some.inj ((Function.update_self _ _ s.mem).symm.trans hwhole)
      have hall : (d.drop 0).take x.m_len = d := by
        rw [List.drop_zero, ← hlength, List.take_length]
      show _ → ∃ h, _
      rw [hall]
      exact hx.fresh d hd
    · obtain ⟨rfl, -⟩ := Prod.mk.inj (Option.some.inj hstr)
      exact Nat.lt_succ_self _

theorem sound_set {vs : List Str} {blocks i : ℕ} (hvs : ∀ y ∈ vs, y.Sound std mem blocks)
    (hx : x.Sound std mem blocks) : ∀ y ∈ vs.set i x, y.Sound std mem blocks := by
  intro y hy
  rcases List.mem_or_eq_of_mem_set hy with hy | rfl
  · exact hvs y hy
  · exact hx

theorem sound_append {vs : List Str} {blocks : ℕ} (hvs : ∀ y ∈ vs, y.Sound std mem blocks)
    (hx : x.Sound std mem blocks) : ∀ y ∈ vs ++ [x], y.Sound std mem blocks := by
  intro y hy
  rcases List.mem_append.mp hy with hy | hy
  · exact hvs y hy
  · rwa [List.mem_singleton.mp hy]

@[simp] theorem contents_hashed : (x.hashed std h d).contents mem = x.contents mem := by
  rw [Str.hashed]
  split_ifs <;> rfl

/-- What a hasher answers is the hash that is kept, if there is one. -/
theorem hashed_iff (hx : x.Fresh std mem) (hd : x.contents mem = some d) :
    (x.hashed std h d).m_hash = h.compute std d ↔
      (x.m_hash ≠ 0 → x.hashedBy ≠ some h → std d = Key.computeHash d) := by
  rw [Str.hashed]
  split_ifs with hhash
  · obtain ⟨h', hby, heq⟩ := hx d hd hhash
    rw [heq] at hhash ⊢
    rw [hby]
    by_cases hh : h' = h
    · exact iff_of_true (by rw [hh]) fun _ hne => absurd (congrArg some hh) hne
    · have hby' : some h' ≠ some h := fun heq => hh (Option.some.inj heq)
      cases h' with
      | caseSensitive =>
        cases h with
        | caseSensitive => exact absurd rfl hh
        | caseInsensitive => exact ⟨fun heq _ _ => heq, fun hall => hall hhash hby'⟩
      | caseInsensitive =>
        cases h with
        | caseSensitive => exact ⟨fun heq _ _ => heq.symm, fun hall => (hall hhash hby').symm⟩
        | caseInsensitive => exact absurd rfl hh
  · exact iff_of_true rfl fun hne => absurd hne hhash

theorem Str.Sound.hashed {blocks : ℕ} (hx : x.Sound std mem blocks) (hd : x.contents mem = some d)
    (h : Hasher) : (x.hashed std h d).Sound std mem blocks := by
  refine ⟨fun d' hd' => ?_, ?_⟩
  · rw [contents_hashed, hd] at hd'
    obtain rfl := Option.some.inj hd'
    rw [Str.hashed]
    split_ifs with hhash
    · exact hx.fresh d hd
    · exact fun _ => ⟨h, rfl, rfl⟩
  · rw [Str.hashed]
    split_ifs <;> exact hx.bound

/-- An operation on the strings that hashes none of them. -/
theorem Inv.right_of_key {op : Op} {a : Answer} (ht : Inv std t) (hkey : op.key = none)
    (hallowed : Allowed std s op) : (Right std ⟨s, op, a, t⟩ ↔ Allowed std s op) ∧
      (Allowed std s op → Inv std t) := by
  refine ⟨iff_of_true ⟨fun h i hki => ?_, ht.fresh⟩ hallowed, fun _ => ht⟩
  rw [hkey] at hki
  cases hki

/-- **Hashing** is right by the hasher that hashed the string before. -/
theorem Inv.right_hashed_iff (hs : Inv std s) {op : Op} {a : Answer} {i : ℕ}
    {maps : Hasher → ℕ → List Node} (hkey : op.key = some (h, i)) (hx : s.vars[i]? = some x)
    (hd : x.contents s.mem = some d) (ha : a.code = some (x.hashed std h d).m_hash)
    (hmaps : (x.hashed std h d).m_hash = h.compute std d →
      ∀ h m, ∀ n ∈ maps h m, n.code = h.compute std n.key.bytes) :
    (Right std ⟨s, op, a, { s with vars := s.vars.set i (x.hashed std h d), maps := maps }⟩ ↔
      Allowed std s op) ∧ (Allowed std s op →
        Inv std { s with vars := s.vars.set i (x.hashed std h d), maps := maps }) := by
  have hsound := hs.vars x (List.mem_of_getElem? hx)
  have hallowed : Allowed std s op ↔ (x.hashed std h d).m_hash = h.compute std d := by
    rw [hashed_iff hsound.fresh hd]
    have hall : (∀ y ∈ s.vars[i]?, y.m_hash ≠ 0 → y.hashedBy ≠ some h →
        ∀ e ∈ y.contents s.mem, std e = Key.computeHash e) ↔
        (x.m_hash ≠ 0 → x.hashedBy ≠ some h → std d = Key.computeHash d) := by
      simp [hx, hd]
    rw [← hall]
    cases op with
    | hash | find | insert =>
      obtain ⟨rfl, rfl⟩ := Prod.mk.inj (Option.some.inj hkey)
      exact Iff.rfl
    | _ => cases hkey
  have hinv (heq : (x.hashed std h d).m_hash = h.compute std d) :
      Inv std { s with vars := s.vars.set i (x.hashed std h d), maps := maps } :=
    ⟨sound_set hs.vars (hsound.hashed hd h), hmaps heq⟩
  rw [hallowed]
  refine ⟨⟨fun hr => ?_, fun heq => ⟨fun h' i' hki => ?_, (hinv heq).fresh⟩⟩, hinv⟩
  · obtain ⟨y, e, hy, he, hcode⟩ := hr.answered h i hkey
    obtain rfl := Option.some.inj (hx.symm.trans hy)
    obtain rfl := Option.some.inj (hd.symm.trans he)
    exact Option.some.inj (ha.symm.trans hcode)
  · obtain ⟨rfl, rfl⟩ := Prod.mk.inj (Option.some.inj (hkey.symm.trans hki))
    exact ⟨x, d, hx, hd, ha.trans (congrArg some heq)⟩

theorem change_eq {f : UInt8 → UInt8} (ht : s.change x f = some t) :
    ∃ mem, t = { s with mem := mem } := by
  rw [Strings.change] at ht
  split_ifs at ht
  · exact ⟨s.mem, (Option.some.inj ht).symm⟩
  · obtain ⟨⟨b, off⟩, -, ht⟩ := Option.bind_eq_some_iff.mp ht
    obtain ⟨whole, -, ht⟩ := Option.bind_eq_some_iff.mp ht
    split_ifs at ht
    exact ⟨_, (Option.some.inj ht).symm⟩

/-- **Writing letters** is right when the case-sensitive hashes stay. -/
theorem Inv.right_change_iff (hs : Inv std s) {op : Op} {f : UInt8 → UInt8}
    (hf : ∀ c, Key.hashByte (f c) = Key.hashByte c) (hkey : op.key = none)
    (ht : s.change x f = some t) : (Right std ⟨s, op, .done, t⟩ ↔ KeepsHashes std s x f) ∧
      (KeepsHashes std s x f → Inv std t) := by
  obtain ⟨mem, rfl⟩ := change_eq ht
  have hinv (hkeeps : KeepsHashes std s x f) : Inv std { s with mem := mem } := by
    refine ⟨fun y hy => ⟨fun d' hd' hhash => ?_, (hs.vars y hy).bound⟩, hs.nodes⟩
    obtain ⟨d, hd, hsame⟩ := computeHash_change hf ht hd'
    obtain ⟨h, hby, heq⟩ := (hs.vars y hy).fresh d hd hhash
    refine ⟨h, hby, heq.trans ?_⟩
    cases h with
    | caseSensitive => exact (hkeeps _ ht y hy hhash hby d hd d' hd').symm
    | caseInsensitive => exact hsame.symm
  refine ⟨⟨fun hr => ?_, fun hkeeps => ⟨fun h i hki => ?_, (hinv hkeeps).fresh⟩⟩, hinv⟩
  · intro u hu y hy hhash hby d hd d' hd'
    obtain rfl := Option.some.inj (ht.symm.trans hu)
    obtain ⟨h, hby₁, heq₁⟩ := (hs.vars y hy).fresh d hd hhash
    obtain ⟨h', hby₂, heq₂⟩ := hr.fresh.vars y hy d' hd' hhash
    -- before and after, the hash is the case-sensitive one
    obtain rfl := Option.some.inj (hby.symm.trans hby₁)
    obtain rfl := Option.some.inj (hby.symm.trans hby₂)
    exact heq₂.symm.trans heq₁
  · rw [hkey] at hki
    cases hki

theorem nodes_insert {maps : Hasher → ℕ → List Node} {m : ℕ} {node : Node}
    (hmaps : ∀ h m, ∀ n ∈ maps h m, n.code = h.compute std n.key.bytes)
    (hnode : node.code = h.compute std node.key.bytes) :
    ∀ h' m', ∀ n ∈ Function.update maps h (Function.update (maps h) m (node :: maps h m)) h' m',
      n.code = h'.compute std n.key.bytes := by
  intro h' m' n hn
  rcases eq_or_ne h' h with rfl | hh
  · rw [Function.update_self] at hn
    rcases eq_or_ne m' m with rfl | hm
    · rw [Function.update_self] at hn
      rcases List.mem_cons.mp hn with rfl | hn
      · exact hnode
      · exact hmaps h' m' n hn
    · rw [Function.update_of_ne hm] at hn
      exact hmaps h' m' n hn
  · rw [Function.update_of_ne hh] at hn
    exact hmaps h' m' n hn

/-- **One operation** is right exactly when it is allowed. -/
theorem Inv.step_hashes_iff (hs : Inv std s) {op : Op} {a : Answer}
    (hstep : s.step std op = some (a, t)) :
    (Right std ⟨s, op, a, t⟩ ↔ Allowed std s op) ∧ (Allowed std s op → Inv std t) := by
  have hvar {i : ℕ} {x : Str} (hx : s.vars[i]? = some x) : x.Sound std s.mem s.blocks :=
    hs.vars x (List.mem_of_getElem? hx)
  cases op with
  | null =>
    obtain ⟨rfl, rfl⟩ := Prod.mk.inj (Option.some.inj hstep)
    exact Inv.right_of_key ⟨sound_append hs.vars (sound_null _ _), hs.nodes⟩ rfl trivial
  | create d own =>
    obtain ⟨rfl, rfl⟩ := Prod.mk.inj (Option.some.inj hstep)
    refine Inv.right_of_key ⟨sound_append (fun y hy => (hs.vars y hy).alloc d) ⟨?_, ?_⟩, hs.nodes⟩
      rfl trivial
    · exact fresh_of_hash rfl
    · intro b off hstr
      obtain ⟨rfl, -⟩ := Prod.mk.inj (Option.some.inj hstr)
      exact Nat.lt_succ_self _
  | view j off n =>
    obtain ⟨y, hy, hstep⟩ := Option.bind_eq_some_iff.mp hstep
    split_ifs at hstep
    obtain ⟨rfl, rfl⟩ := Prod.mk.inj (Option.some.inj hstep)
    refine Inv.right_of_key ⟨sound_append hs.vars ⟨fresh_of_hash rfl, ?_⟩, hs.nodes⟩ rfl trivial
    intro b off' hstr
    obtain ⟨⟨b', off''⟩, hp, heq⟩ := Option.map_eq_some_iff.mp hstr
    obtain ⟨rfl, -⟩ := Prod.mk.inj heq
    exact (hvar hy).bound _ _ hp
  | copyConstruct j =>
    obtain ⟨y, hy, hstep⟩ := Option.bind_eq_some_iff.mp hstep
    obtain ⟨d, hd, hstep⟩ := Option.bind_eq_some_iff.mp hstep
    obtain ⟨rfl, rfl⟩ := Prod.mk.inj (Option.some.inj hstep)
    have hnodes : ∀ h m, ∀ n ∈ (s.duplicate d).2.maps h m, n.code = h.compute std n.key.bytes := by
      rw [maps_duplicate]
      exact hs.nodes
    exact Inv.right_of_key ⟨sound_append (fun z hz => (hs.vars z hz).duplicate d)
      ((hvar hy).copy hd true), hnodes⟩ rfl trivial
  | moveConstruct j =>
    obtain ⟨y, hy, hstep⟩ := Option.bind_eq_some_iff.mp hstep
    obtain ⟨rfl, rfl⟩ := Prod.mk.inj (Option.some.inj hstep)
    exact Inv.right_of_key ⟨sound_append (sound_set hs.vars (sound_null _ _)) (hvar hy), hs.nodes⟩
      rfl trivial
  | copyAssign i j =>
    obtain ⟨x, hx, hstep⟩ := Option.bind_eq_some_iff.mp hstep
    obtain ⟨y, hy, hstep⟩ := Option.bind_eq_some_iff.mp hstep
    split_ifs at hstep
    · obtain ⟨rfl, rfl⟩ := Prod.mk.inj (Option.some.inj hstep)
      exact Inv.right_of_key hs rfl trivial
    · obtain ⟨d, hd, hstep⟩ := Option.bind_eq_some_iff.mp hstep
      obtain ⟨rfl, rfl⟩ := Prod.mk.inj (Option.some.inj hstep)
      have hnodes : ∀ h m, ∀ n ∈ ((s.free x).duplicate d).2.maps h m,
          n.code = h.compute std n.key.bytes := by
        rw [maps_duplicate, maps_free]
        exact hs.nodes
      exact Inv.right_of_key ⟨sound_set (fun z hz => ((hs.vars z hz).free x).duplicate d)
        (((hvar hy).free x).copy hd y.m_own), hnodes⟩ rfl trivial
  | moveAssign i j =>
    obtain ⟨x, hx, hstep⟩ := Option.bind_eq_some_iff.mp hstep
    obtain ⟨y, hy, hstep⟩ := Option.bind_eq_some_iff.mp hstep
    split_ifs at hstep
    · obtain ⟨rfl, rfl⟩ := Prod.mk.inj (Option.some.inj hstep)
      exact Inv.right_of_key hs rfl trivial
    · obtain ⟨rfl, rfl⟩ := Prod.mk.inj (Option.some.inj hstep)
      have hfree := fun z hz => (hs.vars z hz).free x
      refine Inv.right_of_key ⟨sound_set (sound_set hfree (sound_null _ _)) ((hvar hy).free x), ?_⟩
        rfl trivial
      rw [maps_free]
      exact hs.nodes
  | destroy i =>
    obtain ⟨x, hx, hstep⟩ := Option.bind_eq_some_iff.mp hstep
    obtain ⟨rfl, rfl⟩ := Prod.mk.inj (Option.some.inj hstep)
    refine Inv.right_of_key ⟨sound_set (fun z hz => (hs.vars z hz).free x) (sound_null _ _), ?_⟩
      rfl trivial
    rw [maps_free]
    exact hs.nodes
  | toupper i =>
    obtain ⟨x, hx, hstep⟩ := Option.bind_eq_some_iff.mp hstep
    obtain ⟨u, hu, hstep⟩ := Option.bind_eq_some_iff.mp hstep
    obtain ⟨rfl, rfl⟩ := Prod.mk.inj (Option.some.inj hstep)
    have hallowed : Allowed std s (.toupper i) ↔ KeepsHashes std s x upper := by
      simp [Allowed, hx]
    rw [hallowed]
    exact hs.right_change_iff hashByte_upper rfl hu
  | tolower i =>
    obtain ⟨x, hx, hstep⟩ := Option.bind_eq_some_iff.mp hstep
    obtain ⟨u, hu, hstep⟩ := Option.bind_eq_some_iff.mp hstep
    obtain ⟨rfl, rfl⟩ := Prod.mk.inj (Option.some.inj hstep)
    have hallowed : Allowed std s (.tolower i) ↔ KeepsHashes std s x lower := by
      simp [Allowed, hx]
    rw [hallowed]
    exact hs.right_change_iff hashByte_lower rfl hu
  | hash h i =>
    obtain ⟨x, hx, hstep⟩ := Option.bind_eq_some_iff.mp hstep
    obtain ⟨d, hd, hstep⟩ := Option.bind_eq_some_iff.mp hstep
    obtain ⟨rfl, rfl⟩ := Prod.mk.inj (Option.some.inj hstep)
    exact hs.right_hashed_iff rfl hx hd rfl fun _ => hs.nodes
  | find h m i =>
    obtain ⟨x, hx, hstep⟩ := Option.bind_eq_some_iff.mp hstep
    obtain ⟨d, hd, hstep⟩ := Option.bind_eq_some_iff.mp hstep
    obtain ⟨rfl, rfl⟩ := Prod.mk.inj (Option.some.inj hstep)
    exact hs.right_hashed_iff rfl hx hd rfl fun _ => hs.nodes
  | insert h m i =>
    obtain ⟨x, hx, hstep⟩ := Option.bind_eq_some_iff.mp hstep
    obtain ⟨d, hd, hstep⟩ := Option.bind_eq_some_iff.mp hstep
    obtain ⟨rfl, rfl⟩ := Prod.mk.inj (Option.some.inj hstep)
    refine hs.right_hashed_iff rfl hx hd rfl fun heq => ?_
    -- the key of a new node is a copy of the string
    have hbytes : Key.bytes ⟨if d = [] then none else some d, (x.hashed std h d).m_hash⟩ = d := by
      rw [Key.bytes]
      split_ifs with hnil
      · exact hnil.symm
      · rfl
    have hnode : (x.hashed std h d).m_hash = h.compute std
        (Key.bytes ⟨if d = [] then none else some d, (x.hashed std h d).m_hash⟩) := by
      rw [hbytes, heq]
    generalize s.lookup h m _ _ = ok
    cases ok with
    | true => exact hs.nodes
    | false => exact nodes_insert hs.nodes hnode

theorem inv_empty : Inv std {} := ⟨nofun, nofun⟩

/-- **The runs that are right throughout** are those of allowed operations. -/
theorem run_hashes_iff (std : Bytes → UInt64) {ms : List (Move Strings Op Answer)} {s : Strings}
    (h : Run (Strings.step std) {} ms s) :
    (∀ m ∈ ms, Right std m) ↔ ∀ m ∈ ms, Allowed std m.before m.input :=
  h.moves_iff inv_empty fun _ _ _ _ hinv hstep => hinv.step_hashes_iff hstep

instance (s : Strings) (x : Str) (f : UInt8 → UInt8) : Decidable (KeepsHashes std s x f) :=
  inferInstanceAs (Decidable (∀ t ∈ s.change x f, ∀ y ∈ s.vars, y.m_hash ≠ 0 →
    y.hashedBy = some .caseSensitive → ∀ d ∈ y.contents s.mem, ∀ d' ∈ y.contents t.mem,
      std d' = std d))

instance (s : Strings) : DecidablePred (Allowed std s)
  | .hash h i | .find h _ i | .insert h _ i => inferInstanceAs (Decidable (∀ x ∈ s.vars[i]?,
      x.m_hash ≠ 0 → x.hashedBy ≠ some h → ∀ d ∈ x.contents s.mem, std d = Key.computeHash d))
  | .toupper i => inferInstanceAs (Decidable (∀ x ∈ s.vars[i]?, KeepsHashes std s x upper))
  | .tolower i => inferInstanceAs (Decidable (∀ x ∈ s.vars[i]?, KeepsHashes std s x lower))
  | .null | .create .. | .view .. | .copyConstruct _ | .moveConstruct _ | .copyAssign ..
  | .moveAssign .. | .destroy _ => inferInstanceAs (Decidable True)

/-- `std::hash` of `id` and `ID`. -/
def sampleHash : Bytes → UInt64
  | [0x69, 0x64] => 0xc5e0a4254e759619
  | [0x49, 0x44] => 0x45b84024208ff40b
  | _ => 0

/-- A copy is found under the case-sensitive hash while the letters of the first string, which has
a case-insensitive hash, are written. -/
theorem run_hashes_of_copy :
    let calls : List Op := [.create [0x69, 0x64] true, .copyConstruct 0, .hash .caseInsensitive 0,
      .insert .caseSensitive 0 1, .toupper 0, .hash .caseInsensitive 0, .moveConstruct 1,
      .find .caseSensitive 0 2]
    (∀ m ∈ moves (Strings.step sampleHash) {} calls, Right sampleHash m) ∧
      (moves (Strings.step sampleHash) {} calls).map Move.output = [.done, .done,
        .hashed (Key.computeHash [0x49, 0x44]), .found 0xc5e0a4254e759619 false, .done,
        .hashed (Key.computeHash [0x49, 0x44]), .done, .found 0xc5e0a4254e759619 true] :=
  ⟨(run_hashes_iff sampleHash (run_final _ _ _)).mpr (by decide), by decide⟩

/-- The hash of `id` is kept by `ID`; and the hash of one hasher is taken by the other one. -/
theorem not_run_hashes :
    (moves (Strings.step sampleHash) {} [.create [0x69, 0x64] true, .hash .caseInsensitive 0,
      .hash .caseSensitive 0]).map Move.output = [.done, .hashed (Key.computeHash [0x69, 0x64]),
        .hashed (Key.computeHash [0x69, 0x64])] ∧
    ¬ ∀ ms s, Run (Strings.step sampleHash) {} ms s → ∀ m ∈ ms, Right sampleHash m := by
  refine ⟨by decide, fun hall => ?_⟩
  have hright := hall _ _ (run_final (Strings.step sampleHash) {} [.create [0x69, 0x64] true,
    .hash .caseSensitive 0, .toupper 0]) _ (List.mem_of_getLast? rfl)
  obtain ⟨h, hby, heq⟩ := hright.fresh.vars _ (List.mem_singleton.mpr rfl) [0x49, 0x44] (by decide)
    (by decide)
  obtain rfl := Option.some.inj hby
  revert heq
  decide

end Hashes
end Suil
