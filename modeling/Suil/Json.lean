/-
JSON values and their comparison.

A value is a tree of nodes; `json::Object::operator==` compares two of them from
the left one.  Its walk over the elements of an array starts at the end of the
right one, and its walk over the members of an object looks each of them up on
the right, where a null counts as missing.

* `equal_iff` — what the comparison accepts: a left value without elements and
  null members (`Bare`) that is found again in the right one (`Within`);
* `comparedRight_iff` — for which values that is equality of the values (`Same`).
-/
import Suil.Strings

namespace Suil

/-- A C string: its bytes before the terminating zero. -/
structure CString where
  bytes : Bytes
  zero_free : (0 : UInt8) ∉ bytes
deriving DecidableEq

/-- A JSON value over the numbers that a `double` denotes; a null pointer stands for
null, too. -/
inductive Json (N : Type) where
  | null
  | bool (b : Bool)
  | string (s : CString)
  | number (x : N)
  | array (xs : List (Json N))
  | object (ms : List (CString × Json N))

/-- `Tag`. -/
inductive Tag where
  | null | bool | string | number | array | object
deriving DecidableEq, Repr

namespace Json

variable {N : Type}

/-- `type`. -/
def type : Json N → Tag
  | null => .null
  | bool _ => .bool
  | string _ => .string
  | number _ => .number
  | array _ => .array
  | object _ => .object

/-- `empty`. -/
def empty : Json N → Bool
  | null => true
  | string s => s.bytes.isEmpty
  | bool b => !b
  | number _ => false
  | array xs => xs.isEmpty
  | object ms => ms.isEmpty

/-- `isNull`. -/
def isNull : Json N → Bool
  | null => true
  | _ => false

/-- `json_find_member`: the first member with the key. -/
def findMember (ms : List (CString × Json N)) (key : CString) : Option (Json N) :=
  (ms.find? fun m => m.1.bytes.length == key.bytes.length &&
    strncmpEq key.bytes.length m.1.bytes key.bytes).map Prod.snd

section Equal

variable [DecidableEq N]

mutual

/-- `operator==`, with the left value first. -/
def equal (self other : Json N) : Bool :=
  if other.type ≠ self.type then false
  else if other.empty && self.empty then true
  else
    match self, other with
    | number x, number y => decide (y = x)
    | bool b, bool c => c == b
    | string s, string s' => strEq s'.bytes s.bytes
    -- The second iterator is the end of the other array.
    | array xs, array _ => equalElements xs []
    | object ms, object ns => equalMembers ms ns
    | _, _ => false

/-- The walk over two arrays. -/
def equalElements : List (Json N) → List (Json N) → Bool
  | [], ys => ys.isEmpty
  | _ :: _, [] => false
  | x :: xs, y :: ys => equal x y && equalElements xs ys

/-- The walk over the members of an object. -/
def equalMembers : List (CString × Json N) → List (CString × Json N) → Bool
  | [], _ => true
  | (key, obj) :: ms, ns =>
    match findMember ns key with
    | none => false
    | some tmp => if tmp.isNull then false else equal obj tmp && equalMembers ms ns

end

end Equal

/-! ### Values -/

/-- The value that an object maps a key to. -/
def member (ms : List (CString × Json N)) (key : CString) : Option (Json N) :=
  (ms.find? fun m => m.1 = key).map Prod.snd

/-- Two trees denote the same value. -/
inductive Same : Json N → Json N → Prop where
  | null : Same null null
  | bool (b : Bool) : Same (bool b) (bool b)
  | string (s : CString) : Same (string s) (string s)
  | number (x : N) : Same (number x) (number x)
  | array {xs ys : List (Json N)} (hlen : xs.length = ys.length)
      (h : ∀ (i : ℕ) x y, xs[i]? = some x → ys[i]? = some y → Same x y) : Same (array xs) (array ys)
  | object {ms ns : List (CString × Json N)}
      (hkeys : ∀ key, (member ms key).isSome = (member ns key).isSome)
      (h : ∀ key v w, member ms key = some v → member ns key = some w → Same v w) :
      Same (object ms) (object ns)

/-- The right value is the left one with elements added to arrays and members added
to objects, if any. -/
inductive Within : Json N → Json N → Prop where
  | null : Within null null
  | bool (b : Bool) : Within (bool b) (bool b)
  | string (s : CString) : Within (string s) (string s)
  | number (x : N) : Within (number x) (number x)
  | array {xs ys : List (Json N)} (hlen : xs.length ≤ ys.length)
      (h : ∀ (i : ℕ) x y, xs[i]? = some x → ys[i]? = some y → Within x y) : Within (array xs) (array ys)
  | object {ms ns : List (CString × Json N)} (hkeys : ∀ m ∈ ms, (member ns m.1).isSome)
      (h : ∀ m ∈ ms, ∀ w, member ns m.1 = some w → Within m.2 w) : Within (object ms) (object ns)

/-- No array has elements and no object a null member. -/
inductive Bare : Json N → Prop where
  | null : Bare null
  | bool (b : Bool) : Bare (bool b)
  | string (s : CString) : Bare (string s)
  | number (x : N) : Bare (number x)
  | array : Bare (array [])
  | object {ms : List (CString × Json N)} (hnull : ∀ m ∈ ms, m.2 ≠ .null)
      (h : ∀ m ∈ ms, Bare m.2) : Bare (object ms)

/-- Induction over a value with its elements and members. -/
theorem induction {P : Json N → Prop} (hnull : P null) (hbool : ∀ b, P (bool b))
    (hstring : ∀ s, P (string s)) (hnumber : ∀ x, P (number x))
    (harray : ∀ xs, (∀ x ∈ xs, P x) → P (array xs))
    (hobject : ∀ ms, (∀ m ∈ ms, P m.2) → P (object ms)) (v : Json N) : P v := by
  refine @Json.rec N P (fun xs => ∀ x ∈ xs, P x) (fun ms => ∀ m ∈ ms, P m.2) (fun m => P m.2)
    hnull hbool hstring hnumber harray hobject ?_ ?_ ?_ ?_ ?_ v
  · simp
  · intro x xs hx hxs
    exact List.forall_mem_cons.mpr ⟨hx, hxs⟩
  · simp
  · intro m ms hm hms
    exact List.forall_mem_cons.mpr ⟨hm, hms⟩
  · exact fun _ _ h => h

theorem Same.refl (v : Json N) : Same v v := by
  induction v using Json.induction with
  | hnull => exact .null
  | hbool b => exact .bool b
  | hstring s => exact .string s
  | hnumber x => exact .number x
  | harray xs ih =>
    refine .array rfl fun i x y hx hy => ?_
    obtain rfl := Option.some.inj (hx.symm.trans hy)
    exact ih x (List.mem_of_getElem? hx)
  | hobject ms ih =>
    refine .object (fun _ => rfl) fun key v w hv hw => ?_
    obtain rfl := Option.some.inj (hv.symm.trans hw)
    obtain ⟨m, hm, rfl⟩ := Option.map_eq_some_iff.mp hv
    exact ih m (List.mem_of_find?_eq_some hm)

theorem Same.symm {v w : Json N} (h : Same v w) : Same w v := by
  induction h with
  | null => exact .null
  | bool b => exact .bool b
  | string s => exact .string s
  | number x => exact .number x
  | array hlen _ ih => exact .array hlen.symm fun i x y hx hy => ih i y x hy hx
  | object hkeys _ ih =>
    exact .object (fun key => (hkeys key).symm) fun key v w hv hw => ih key w v hw hv

theorem Within.type_eq {v w : Json N} (h : Within v w) : v.type = w.type := by
  cases h <;> rfl

/-! ### The comparison -/

theorem strEq_iff {s s' : CString} : strEq s.bytes s'.bytes = true ↔ s = s' := by
  have hext : s = s' ↔ s.bytes = s'.bytes :=
    ⟨congrArg _, fun h => by cases s; cases s'; cases h; rfl⟩
  rw [hext, strEq]
  split_ifs with hnil
  · rcases hnil with h | h <;> simp [h, eq_comm]
  · simp only [Bool.and_eq_true, decide_eq_true_eq]
    constructor
    · rintro ⟨hlen, h⟩
      rw [hlen, strncmpEq_iff (.inl s'.zero_free) hlen.ge] at h
      exact (h.eq_of_length hlen.symm).symm
    · intro h
      rw [h]
      exact ⟨rfl, (strncmpEq_iff (.inl s'.zero_free) le_rfl).mpr List.prefix_rfl⟩

theorem findMember_eq (ms : List (CString × Json N)) (key : CString) :
    findMember ms key = member ms key := by
  have hkey : ∀ m : CString × Json N, (m.1.bytes.length == key.bytes.length &&
      strncmpEq key.bytes.length m.1.bytes key.bytes) = decide (m.1 = key) := by
    intro m
    have hext : m.1 = key ↔ m.1.bytes = key.bytes :=
      ⟨congrArg _, fun h => by
        obtain ⟨⟨_, _⟩, _⟩ := m
        cases key
        cases h
        rfl⟩
    rw [Bool.eq_iff_iff, decide_eq_true_iff, hext, Bool.and_eq_true, beq_iff_eq]
    constructor
    · rintro ⟨hlen, h⟩
      rw [strncmpEq_iff (.inl key.zero_free) hlen.ge] at h
      exact (h.eq_of_length hlen.symm).symm
    · intro h
      rw [h]
      exact ⟨rfl, (strncmpEq_iff (.inl key.zero_free) le_rfl).mpr List.prefix_rfl⟩
  rw [findMember, member]
  congr 2
  exact funext hkey

section Equal

variable [DecidableEq N]

theorem equalMembers_iff (ms ns : List (CString × Json N)) :
    equalMembers ms ns = true ↔
      ∀ m ∈ ms, ∃ w, member ns m.1 = some w ∧ w ≠ .null ∧ equal m.2 w = true := by
  induction ms with
  | nil => simp [equalMembers]
  | cons m ms ih =>
    obtain ⟨key, obj⟩ := m
    rw [equalMembers, findMember_eq, List.forall_mem_cons]
    rcases hfind : member ns key with _ | tmp
    · simp
    · have hnull : tmp.isNull = true ↔ tmp = .null := by cases tmp <;> simp [isNull]
      by_cases h : tmp = .null
      · simp [h, isNull]
      · simp [h, hnull, ih]

theorem equal_of_type_ne {v w : Json N} (h : v.type ≠ w.type) :
    equal v w = true ↔ Bare v ∧ Within v w := by
  refine iff_of_false ?_ fun hw => h hw.2.type_eq
  rw [equal.eq_def, if_pos (Ne.symm h)]
  simp

/-- Two objects, when the comparison of the first one's members is understood. -/
theorem equal_object_iff {ms : List (CString × Json N)}
    (ih : ∀ m ∈ ms, ∀ w, equal m.2 w = true ↔ Bare m.2 ∧ Within m.2 w)
    (ns : List (CString × Json N)) :
    equal (object ms) (object ns) = true ↔ Bare (object ms) ∧ Within (object ms) (object ns) := by
  have heq : equal (object ms) (object ns) = true ↔
      ∀ m ∈ ms, ∃ w, member ns m.1 = some w ∧ w ≠ .null ∧ equal m.2 w = true := by
    simp only [equal, type, ne_eq, not_true, if_false, empty, Bool.and_eq_true,
      List.isEmpty_iff]
    split_ifs with h
    · simp [h.2]
    · exact equalMembers_iff ms ns
  rw [heq]
  constructor
  · intro h
    refine ⟨.object (fun m hm hnull => ?_) fun m hm => ?_, .object (fun m hm => ?_) ?_⟩
    · obtain ⟨w, -, hw, heq⟩ := h m hm
      have htype := ((ih m hm w).mp heq).2.type_eq
      rw [hnull] at htype
      cases w <;> simp_all [type]
    · obtain ⟨w, -, -, heq⟩ := h m hm
      exact ((ih m hm w).mp heq).1
    · obtain ⟨w, hw, -⟩ := h m hm
      simp [hw]
    · intro m hm w' hw'
      obtain ⟨w, hw, -, heq⟩ := h m hm
      obtain rfl := Option.some.inj (hw.symm.trans hw')
      exact ((ih m hm w).mp heq).2
  · rintro ⟨hbare, hwithin⟩ m hm
    cases hbare with
    | object hnull hbare =>
    cases hwithin with
    | object hkeys hwithin =>
    obtain ⟨w, hw⟩ := Option.isSome_iff_exists.mp (hkeys m hm)
    have hin := hwithin m hm w hw
    refine ⟨w, hw, ?_, (ih m hm w).mpr ⟨hbare m hm, hin⟩⟩
    rintro rfl
    have htype := hin.type_eq
    have hne := hnull m hm
    cases hv : m.2 <;> simp_all [type]

/-- **What the comparison accepts.** -/
theorem equal_iff (v w : Json N) : equal v w = true ↔ Bare v ∧ Within v w := by
  induction v using Json.induction generalizing w with
  | hnull =>
    cases w with
    | null => exact iff_of_true (by simp [equal, type, empty]) ⟨.null, .null⟩
    | _ => exact equal_of_type_ne (by simp [type])
  | hbool b =>
    cases w with
    | bool c =>
      have heq : equal (bool b : Json N) (bool c) = true ↔ c = b := by
        cases b <;> cases c <;> simp [equal, type, empty]
      rw [heq]
      constructor
      · rintro rfl
        exact ⟨.bool c, .bool c⟩
      · rintro ⟨-, h⟩
        cases h
        rfl
    | _ => exact equal_of_type_ne (by simp [type])
  | hstring s =>
    cases w with
    | string s' =>
      have heq : equal (string s : Json N) (string s') = true ↔ s' = s := by
        have hempty : s'.bytes = [] → s.bytes = [] → s' = s := by
          intro h' h
          exact strEq_iff.mp (by simp [strEq, h, h'])
        simp only [equal, type, ne_eq, not_true, if_false, empty, Bool.and_eq_true,
          List.isEmpty_iff]
        split_ifs with h
        · simp [hempty h.1 h.2]
        · exact strEq_iff
      rw [heq]
      constructor
      · rintro rfl
        exact ⟨.string s', .string s'⟩
      · rintro ⟨-, h⟩
        cases h
        rfl
    | _ => exact equal_of_type_ne (by simp [type])
  | hnumber x =>
    cases w with
    | number y =>
      have heq : equal (number x) (number y) = true ↔ y = x := by simp [equal, type, empty]
      rw [heq]
      constructor
      · rintro rfl
        exact ⟨.number y, .number y⟩
      · rintro ⟨-, h⟩
        cases h
        rfl
    | _ => exact equal_of_type_ne (by simp [type])
  | harray xs ih =>
    cases w with
    | array ys =>
      cases xs with
      | nil =>
        refine iff_of_true ?_ ⟨.array, .array (Nat.zero_le _) (by simp)⟩
        cases ys <;> simp [equal, type, empty, equalElements]
      | cons x xs =>
        refine iff_of_false (by simp [equal, type, empty, equalElements]) ?_
        rintro ⟨h, -⟩
        cases h
    | _ => exact equal_of_type_ne (by simp [type])
  | hobject ms ih =>
    cases w with
    | object ns => exact equal_object_iff ih ns
    | _ => exact equal_of_type_ne (by simp [type])

/-- The comparison of two values is right. -/
def ComparedRight (v w : Json N) : Prop := equal v w = true ↔ Same v w

/-- **For which values the comparison is right.** -/
theorem comparedRight_iff (v w : Json N) : ComparedRight v w ↔
    (Same v w → Bare v ∧ Within v w) ∧ (Bare v → Within v w → Same v w) := by
  rw [ComparedRight, equal_iff]
  tauto

/-- A key. -/
def letter : CString := ⟨ascii "a", by decide⟩

/-- The array with the one number is not equal to itself; the empty one is equal to
it, but not the other way round.  An object with a null member is not equal to
itself, and the empty one is equal to an object with a member. -/
theorem not_comparedRight : ¬ComparedRight (array [number 1] : Json ℤ) (array [number 1]) ∧
    ¬ComparedRight (array [] : Json ℤ) (array [number 1]) ∧
    ¬ComparedRight (object [(letter, null)] : Json ℤ) (object [(letter, null)]) ∧
    ¬ComparedRight (object [] : Json ℤ) (object [(letter, number 1)]) := by
  refine ⟨fun h => ?_, fun h => ?_, fun h => ?_, fun h => ?_⟩
  · exact absurd (h.mpr (Same.refl _)) (by decide)
  · cases h.mp (by decide) with
    | array hlen _ => exact absurd hlen (by decide)
  · exact absurd (h.mpr (Same.refl _)) (by decide)
  · cases h.mp (by decide) with
    | object hkeys _ => exact absurd (hkeys letter) (by decide)

end Equal

end Json

end Suil
