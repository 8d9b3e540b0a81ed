/-
What `Base64::decode` looks at, and what it accepts.

The groups before the last one are checked as a whole.  In the last one the scan goes
on behind four characters that are all in the alphabet, and the length that is left is
an unsigned difference.  What is decoded is stored from the start of the buffer.

* `Valid.reserve_eq` — the size and the memory that a buffer has after `reserve`;
* `decodeEnd_open`, `decodeEnd_bad`, `decodeEnd_pad` — the last group, by its first
  character outside of the alphabet;
* `decodesSafely_iff` — the texts that are decoded as they should be.
-/
import Suil.Base64
import Suil.HeapBuffer

namespace Suil

/-! ### A buffer with more room -/

namespace HeapBuffer

/-- What `reserve` asks a growth for. -/
def wanted (b : HeapBuffer) (need : ℕ) : ℕ := max b.m_size ((need - b.room) % 2 ^ 32)

/-- The memory that `reserve` asks for is refused. -/
def Denied (b : HeapBuffer) (need : ℕ) (a : Alloc) : Prop :=
  b.room < need ∧ b.Refused (b.wanted need) a

/-- The size behind `reserve`, in 32 bits. -/
def sizeAfter (b : HeapBuffer) (need : ℕ) : ℕ :=
  if b.room < need then b.grown (b.wanted need) else b.m_size

/-- The bytes of memory behind `reserve`; it keeps what it has when the new size wraps around. -/
def heldAfter (b : HeapBuffer) (need : ℕ) : ℕ :=
  if b.room < need ∧ b.m_size + Suil.aligned (b.wanted need) % 2 ^ 32 < 2 ^ 32 then
    b.grown (b.wanted need) + 1
  else b.memory.length

/-- The size behind a growth by `want` of a buffer that has no room for `need` bytes. -/
def sizeGrown (b : HeapBuffer) (need want : ℕ) : ℕ :=
  if b.room < need then b.grown want else b.m_size

/-- The bytes of memory behind it. -/
def heldGrown (b : HeapBuffer) (need want : ℕ) : ℕ :=
  if b.room < need ∧ b.m_size + Suil.aligned want % 2 ^ 32 < 2 ^ 32 then b.grown want + 1
  else b.memory.length

/-- Bytes stored from the start of the memory on; none when they are not within it. -/
def fill (b : HeapBuffer) (d : Bytes) : Option HeapBuffer :=
  if d = [] then some b
  else if d.length ≤ b.memory.length then
    some { b with data := some (d ++ b.memory.drop d.length) }
  else none

instance (b : HeapBuffer) (need : ℕ) (a : Alloc) : Decidable (b.Denied need a) :=
  inferInstanceAs (Decidable (_ ∧ _))

variable {b b' : HeapBuffer} {d : Bytes}

/-- A growth that is not refused leaves the memory that it asks for, unless its size wraps. -/
theorem Valid.length_of_grow (h : b.Valid) {want : ℕ} (hwant : want ≠ 0) {a : Alloc}
    (hgrow : b.grow want a = .done b') :
    b'.memory.length = if b.m_size + Suil.aligned want % 2 ^ 32 < 2 ^ 32 then b.grown want + 1
      else b.memory.length := by
  have hlt := h.size_lt
  obtain ⟨k, hk⟩ := h.aligned
  obtain ⟨j, hj⟩ := dvd_aligned want
  have hns : (b.m_size + Suil.aligned want % 2 ^ 32 + 1) % 2 ^ 32 = b.grown want + 1 := by
    rw [grown]
    omega
  rw [grow_of_ne hwant, hns, reallocate, if_neg (Nat.succ_ne_zero _)] at hgrow
  by_cases hwrap : b.m_size + Suil.aligned want % 2 ^ 32 < 2 ^ 32
  · have hgrown : b.grown want = b.m_size + Suil.aligned want % 2 ^ 32 := Nat.mod_eq_of_lt hwrap
    rw [if_neg (show ¬ b.m_size > b.grown want + 1 by omega)] at hgrow
    rw [if_pos hwrap]
    cases a with
    | none => cases hgrow
    | some junk =>
      obtain rfl := Outcome.done.inj hgrow
      exact length_realloc
  · have hgrown : b.grown want + 2 ^ 32 = b.m_size + Suil.aligned want % 2 ^ 32 := by
      rw [grown]
      omega
    rw [if_pos (show b.m_size > b.grown want + 1 by omega)] at hgrow
    rw [if_neg hwrap, memory]
    cases hdata : b.data with
    | none =>
      rw [hdata] at hgrow
      cases hgrow
    | some mem =>
      rw [hdata] at hgrow
      obtain rfl := Outcome.done.inj hgrow
      rw [memory, hdata]

/-- `reserve` throws, or leaves the size told. -/
theorem Valid.reserve_grew (h : b.Valid) (need : ℕ) (a : Alloc) :
    b.reserve need a = .thrown { b with data := none } ∧ a = none ∨
      ∃ b', b.reserve need a = .done b' ∧ Grew b b' (b.sizeAfter need) := by
  rw [reserve, sizeAfter]
  split_ifs
  · rcases h.grow_eq (b.wanted need) a with ⟨hrefused, hgrow⟩ | ⟨-, b', hgrow, hgrew⟩
    · exact .inl ⟨hgrow, Option.isNone_iff_eq_none.mp hrefused.2.2⟩
    · exact .inr ⟨b', hgrow, hgrew⟩
  · exact .inr ⟨b, rfl, h.grew_self⟩

/-- **A growth for room** is refused, or leaves the size and the memory told. -/
theorem Valid.grows_eq (h : b.Valid) {need want : ℕ} (hwant : b.room < need → want ≠ 0)
    (a : Alloc) :
    ((b.room < need ∧ b.Refused want a) ∧
        (if b.room < need then b.grow want a else .done b) = .thrown { b with data := none }) ∨
      (¬ (b.room < need ∧ b.Refused want a) ∧
        ∃ b', (if b.room < need then b.grow want a else .done b) = .done b' ∧
          Grew b b' (b.sizeGrown need want) ∧ b'.memory.length = b.heldGrown need want) := by
  rw [sizeGrown, heldGrown]
  by_cases hroom : b.room < need
  · simp only [hroom, true_and, if_true]
    rcases h.grow_eq want a with ⟨hrefused, hgrow⟩ | ⟨hrefused, b', hgrow, hgrew⟩
    · exact .inl ⟨hrefused, hgrow⟩
    · exact .inr ⟨hrefused, b', hgrow, hgrew, h.length_of_grow (hwant hroom) hgrow⟩
  · rw [if_neg hroom, if_neg hroom, if_neg (fun hand => hroom hand.1)]
    exact .inr ⟨fun hdenied => hroom hdenied.1, b, rfl, h.grew_self, rfl⟩

/-- **`reserve`** is refused, or leaves the size and the memory told. -/
theorem Valid.reserve_eq (h : b.Valid) {need : ℕ} (hneed : need < 2 ^ 32) (a : Alloc) :
    (b.Denied need a ∧ b.reserve need a = .thrown { b with data := none }) ∨
      (¬ b.Denied need a ∧ ∃ b', b.reserve need a = .done b' ∧ Grew b b' (b.sizeAfter need) ∧
        b'.memory.length = b.heldAfter need) := by
  refine h.grows_eq (fun hroom => ?_) a
  rw [wanted]
  omega

theorem fill_eq (hfits : d.length ≤ b.memory.length) :
    ∃ b', b.fill d = some b' ∧ b'.m_size = b.m_size ∧ b'.m_offset = b.m_offset ∧
      b'.memory = d ++ b.memory.drop d.length := by
  rw [fill]
  by_cases hnil : d = []
  · rw [if_pos hnil, hnil]
    exact ⟨b, rfl, rfl, rfl, rfl⟩
  · rw [if_neg hnil, if_pos hfits]
    exact ⟨_, rfl, rfl, rfl, rfl⟩

theorem fill_of_lt (hover : b.memory.length < d.length) : b.fill d = none := by
  have hnil : d ≠ [] := List.ne_nil_of_length_pos (by omega)
  rw [fill, if_neg hnil, if_neg (by omega)]

end HeapBuffer

open HeapBuffer

namespace Base64

/-! ### Decoding -/

/-- How decoding ends. -/
inductive Ending where
  | done
  | thrown
  /-- It looks at a byte behind those in memory. -/
  | outside
deriving DecidableEq

/-- The bytes stored, in order, and how decoding ends. -/
structure Decoded where
  out : Bytes
  ending : Ending
deriving DecidableEq

/-- What was stored before. -/
def Decoded.before (bs : Bytes) (d : Decoded) : Decoded := { d with out := bs ++ d.out }

/-- The bytes of a group. -/
def first (a b : UInt8) : UInt8 := .ofNat (lookup a <<< 2 ||| lookup b >>> 4)

def second (b c : UInt8) : UInt8 := .ofNat (lookup b <<< 4 ||| lookup c >>> 2)

def third (c d : UInt8) : UInt8 := .ofNat (lookup c <<< 6 ||| lookup d)

/-- `while ((it[i] != '=') && (ASCII_LOOKUP[it[i]] != 64) && (i++ < 4))`, where the first argument
is the number of turns left; none when it looks behind the memory. -/
def scanned (mem : Bytes) : ℕ → ℕ → Option ℕ
  | 0, i => some i
  | n + 1, i =>
    match mem[i]? with
    | none => none
    | some c =>
      if c = 61 ∨ lookup c = 64 then some i
      else if i < 4 then scanned mem n (i + 1)
      else some (i + 1)

/-- `data[pos++] = f(it[x], it[y])` under a condition, and what comes after it. -/
def store (c : Bool) (f : UInt8 → UInt8 → UInt8) (x y : Option UInt8) (rest : Decoded) : Decoded :=
  if c then
    match x, y with
    | some x, some y => rest.before [f x y]
    | _, _ => ⟨[], .outside⟩
  else rest

/-- The last group.  `sz -= 4-i` is a subtraction of `size_t`. -/
def decodeEnd (mem : Bytes) (sz : ℕ) : Decoded :=
  match scanned mem 5 0 with
  | none => ⟨[], .outside⟩
  | some i =>
    match (if sz = i then some false else mem[i]?.map (· != 61)) with
    | none => ⟨[], .outside⟩
    | some true => ⟨[], .thrown⟩
    | some false =>
      let sz := if 4 ≤ sz + i then sz + i - 4 else sz + i + 2 ^ 64 - 4
      store (1 < sz) first mem[0]? mem[1]?
        (store (2 < sz) second mem[1]? mem[2]?
          (store (3 < sz) third mem[2]? mem[3]? ⟨[], .done⟩))

/-- `decode` of the first `sz` bytes of the memory. -/
def decodeText : Bytes → ℕ → Decoded
  | a :: b :: c :: d :: mem, sz + 5 =>
    if lookup a = 64 ∨ lookup b = 64 ∨ lookup c = 64 ∨ lookup d = 64 then ⟨[], .thrown⟩
    else (decodeText mem (sz + 1)).before [first a b, second b c, third c d]
  | _, _ + 5 => ⟨[], .outside⟩
  | mem, sz => decodeEnd mem sz

/-- What is decoded is stored in a buffer with room for `need` bytes, in 32 bits, from the start
of its memory on.  The sum in `seek` does not overflow. -/
def storeAll (ob : HeapBuffer) (need : ℕ) (d : Decoded) (a : Alloc) : Outcome :=
  (ob.reserve (need % 2 ^ 32) a).andThen fun ob =>
    match ob.fill d.out with
    | none => .undefined
    | some ob =>
      match d.ending with
      | .outside => .undefined
      | .thrown => .thrown ob
      | .done => ob.bseek (ob.m_offset + d.out.length)

/-- `decode(ob, in, size)`, with the memory at `in`. -/
def decodeInto (ob : HeapBuffer) (mem : Bytes) (size : ℕ) (a : Alloc) : Outcome :=
  storeAll ob (size / 4 * 3 + 4) (decodeText mem size) a

/-! ### The text -/

/-- The groups before the last one. -/
def groupsBefore (text : Bytes) : Bytes := text.take (4 * ((text.length - 1) / 4))

/-- The last group, of four characters or less. -/
def lastGroup (text : Bytes) : Bytes := text.drop (4 * ((text.length - 1) / 4))

/-- The index of the first character outside of the alphabet; the pad is outside of it, too. -/
def firstBad (l : Bytes) : ℕ := l.findIdx fun c => lookup c = 64

/-- A group before the last one has a character outside of the alphabet; or the last one has, and
the first is no pad, or begins one or two pads at the end of four characters. -/
def Legible (text : Bytes) : Prop :=
  let l := lastGroup text
  let i := firstBad l
  firstBad (groupsBefore text) < (groupsBefore text).length ∨
    i < l.length ∧ (l[i]? ≠ some 61 ∨ l.length = 4 ∧ (i = 3 ∨ i = 2 ∧ l[3]? = some 61))

/-- The last group is taken for one that has its pads, with four characters of which the first bad
one is a pad, or with three of which it is not the first. -/
def Closed (text : Bytes) : Prop :=
  let l := lastGroup text
  let i := firstBad l
  firstBad (groupsBefore text) = (groupsBefore text).length ∧ i < l.length ∧ l[i]? = some 61 ∧
    (l.length = 4 ∨ l.length = 3 ∧ 0 < i)

/-- How many bytes are stored: three for each group before the first bad one, and in a last group
that is closed one less than the characters before the pad. -/
def stores (text : Bytes) : ℕ :=
  3 * (firstBad (groupsBefore text) / 4) +
    if firstBad (groupsBefore text) = (groupsBefore text).length ∧
        (lastGroup text)[firstBad (lastGroup text)]? = some 61 then
      (lastGroup text).length + firstBad (lastGroup text) - 5
    else 0

/-- Characters of the alphabet and at most two pads, in groups of four, for `n` bytes. -/
def WellFormed (text : Bytes) (n : ℕ) : Prop :=
  4 ∣ text.length ∧ ∃ chars pads, text = chars ++ List.replicate pads 61 ∧ pads ≤ 2 ∧
    (∀ c ∈ chars, c ∈ b64table) ∧ n + pads = 3 * text.length / 4

/-- The call throws; or it returns, the text is well formed, and the buffer has so many bytes
more. -/
def DecodesSafely (b : HeapBuffer) (text : Bytes) (a : Alloc) : Prop :=
  match decodeInto b text text.length a with
  | .thrown _ => True
  | .done b' => ∃ n, b'.m_offset = b.m_offset + n ∧ WellFormed text n
  | .undefined => False

/-- What the buffer is asked to have room for. -/
def needed (text : Bytes) : ℕ := (text.length / 4 * 3 + 4) % 2 ^ 32

instance (text : Bytes) : Decidable (Legible text) :=
  inferInstanceAs (Decidable (_ ∨ _ ∧ (_ ∨ _ ∧ (_ ∨ _ ∧ _))))

instance (text : Bytes) : Decidable (Closed text) :=
  inferInstanceAs (Decidable (_ ∧ _ ∧ _ ∧ (_ ∨ _ ∧ _)))

/-- A text is a last group, or a group and a text. -/
theorem group_cases {P : Bytes → Prop} (hshort : ∀ l, l.length ≤ 4 → P l)
    (hgroup : ∀ a b c d e text, P (e :: text) → P (a :: b :: c :: d :: e :: text)) :
    ∀ text, P text
  | [] => hshort _ (by simp)
  | [_] => hshort _ (by simp)
  | [_, _] => hshort _ (by simp)
  | [_, _, _] => hshort _ (by simp)
  | [_, _, _, _] => hshort _ (by simp)
  | a :: b :: c :: d :: e :: text => hgroup a b c d e text (group_cases hshort hgroup (e :: text))

theorem groupsBefore_short {l : Bytes} (h : l.length ≤ 4) : groupsBefore l = [] := by
  rw [groupsBefore, show (l.length - 1) / 4 = 0 by omega]
  rfl

theorem lastGroup_short {l : Bytes} (h : l.length ≤ 4) : lastGroup l = l := by
  rw [lastGroup, show (l.length - 1) / 4 = 0 by omega]
  rfl

theorem groupsBefore_group (a b c d e : UInt8) (text : Bytes) :
    groupsBefore (a :: b :: c :: d :: e :: text) =
      a :: b :: c :: d :: groupsBefore (e :: text) := by
  have hlen : 4 * (((a :: b :: c :: d :: e :: text).length - 1) / 4) =
      4 * (((e :: text).length - 1) / 4) + 1 + 1 + 1 + 1 := by
    simp only [List.length_cons]
    omega
  rw [groupsBefore, hlen]
  rfl

theorem lastGroup_group (a b c d e : UInt8) (text : Bytes) :
    lastGroup (a :: b :: c :: d :: e :: text) = lastGroup (e :: text) := by
  have hlen : 4 * (((a :: b :: c :: d :: e :: text).length - 1) / 4) =
      4 * (((e :: text).length - 1) / 4) + 1 + 1 + 1 + 1 := by
    simp only [List.length_cons]
    omega
  rw [lastGroup, hlen]
  rfl

theorem length_lastGroup_le (text : Bytes) : (lastGroup text).length ≤ 4 := by
  rw [lastGroup, List.length_drop]
  omega

theorem groupsBefore_append (text : Bytes) : groupsBefore text ++ lastGroup text = text :=
  List.take_append_drop _ _

theorem length_groupsBefore (text : Bytes) :
    (groupsBefore text).length = 4 * ((text.length - 1) / 4) := by
  rw [groupsBefore, List.length_take]
  omega

theorem firstBad_le (l : Bytes) : firstBad l ≤ l.length := List.findIdx_le_length

theorem lookup_of_lt {l : Bytes} {j : ℕ} (hj : j < firstBad l) (hlen : j < l.length) :
    lookup l[j] ≠ 64 := by
  have hnot := List.not_of_lt_findIdx hj
  simpa using hnot

theorem lookup_firstBad {l : Bytes} (h : firstBad l < l.length) : lookup l[firstBad l] = 64 := by
  have hbad : decide (lookup l[firstBad l] = 64) = true := List.findIdx_getElem (w := h)
  exact of_decide_eq_true hbad

/-- The character at the place that is looked up for it. -/
theorem b64table_lookup {c : UInt8} (h : lookup c ≠ 64) : b64table[lookup c]? = some c := by
  have hall : ∀ n < 128, asciiLookup.getD n 64 ≠ 64 →
      (b64table[asciiLookup.getD n 64]?).map UInt8.toNat = some n := by
    rw [b64table_eq]
    decide
  have hlen : c.toNat < 128 := by
    by_contra hlong
    exact h (List.getD_eq_default _ _ (Nat.le_of_not_lt hlong))
  obtain ⟨d, hd, hdc⟩ := Option.map_eq_some_iff.mp (hall c.toNat hlen h)
  rw [lookup, hd, UInt8.toNat_inj.mp hdc]

theorem lookup_eq_iff (c : UInt8) : lookup c = 64 ↔ c ∉ b64table := by
  constructor
  · intro hlookup hmem
    obtain ⟨i, hi, rfl⟩ := List.mem_iff_getElem.mp hmem
    have hlt : i < 64 := hi
    have hnat : (UInt8.ofNat i).toNat = i := UInt8.toNat_ofNat_of_lt' (hlt.trans (by decide))
    have hback : lookup (b64 (.ofNat i)) = (UInt8.ofNat i).toNat := lookup_b64 (by omega)
    rw [b64, hnat, List.getD_eq_getElem _ _ hi, hlookup] at hback
    omega
  · intro hmem
    by_contra hlookup
    exact hmem (List.mem_of_getElem? (b64table_lookup hlookup))

/-! ### The last group -/

/-- The scan goes on to the first bad character. -/
theorem scanned_eq {l : Bytes} (hlen : l.length ≤ 4) {n i : ℕ} (hn : i + n = 5)
    (hi : i ≤ firstBad l) :
    scanned l n i = if firstBad l < l.length then some (firstBad l) else none := by
  have hle := firstBad_le l
  induction n generalizing i with
  | zero => omega
  | succ n ih =>
    rw [scanned]
    rcases Nat.eq_or_lt_of_le hi with rfl | hlt
    · by_cases hin : firstBad l < l.length
      · have hbad := lookup_firstBad hin
        rw [List.getElem?_eq_getElem hin]
        simp only [hbad, or_true, if_true, hin]
      · rw [List.getElem?_eq_none (not_lt.mp hin), if_neg hin]
    · have hin : i < l.length := hlt.trans_le hle
      have hgood := lookup_of_lt hlt hin
      have hpad : l[i] ≠ 61 := fun heq => hgood (by rw [heq]; decide)
      rw [List.getElem?_eq_getElem hin]
      simp only [hpad, hgood, or_false, if_false, show i < 4 by omega, if_true]
      exact ih (by omega) (by omega)

/-- A last group without a bad character is left behind. -/
theorem decodeEnd_open {l : Bytes} (hlen : l.length ≤ 4) (h : firstBad l = l.length) :
    decodeEnd l l.length = ⟨[], .outside⟩ := by
  rw [decodeEnd, scanned_eq hlen rfl (Nat.zero_le _), if_neg (by omega)]

/-- A bad character that is no pad is refused. -/
theorem decodeEnd_bad {l : Bytes} (hlen : l.length ≤ 4) (h : firstBad l < l.length)
    (hpad : l[firstBad l]? ≠ some 61) : decodeEnd l l.length = ⟨[], .thrown⟩ := by
  rw [List.getElem?_eq_getElem h] at hpad
  have hne : l[firstBad l] ≠ 61 := fun heq => hpad (congrArg some heq)
  have hread : (if l.length = firstBad l then some false else l[firstBad l]?.map (· != 61)) =
      some true := by
    rw [if_neg (by omega), List.getElem?_eq_getElem h, Option.map_some, bne_iff_ne.mpr hne]
  rw [decodeEnd, scanned_eq hlen rfl (Nat.zero_le _), if_pos h]
  simp only [hread]

/-- Behind a pad the rest of a group of four is taken as it is, and a shorter group may be left
behind. -/
theorem decodeEnd_pad {l : Bytes} (hlen : l.length ≤ 4) (h : firstBad l < l.length)
    (hpad : l[firstBad l]? = some 61) :
    if l.length = 4 ∨ l.length = 3 ∧ 0 < firstBad l then
      ∃ out, decodeEnd l l.length = ⟨out, .done⟩ ∧ out.length = l.length + firstBad l - 5
    else (decodeEnd l l.length).ending = .outside := by
  have hscan := scanned_eq hlen (n := 5) (i := 0) rfl (Nat.zero_le _)
  rw [if_pos h] at hscan
  have hread : (if l.length = firstBad l then some false else l[firstBad l]?.map (· != 61)) =
      some false := by
    rw [if_neg (by omega), hpad]
    rfl
  rw [decodeEnd, hscan]
  simp only [hread]
  clear hscan hread hpad
  generalize firstBad l = i at *
  rcases l with _ | ⟨a, _ | ⟨b, _ | ⟨c, _ | ⟨d, _ | ⟨e, l⟩⟩⟩⟩⟩
  · exact absurd h (Nat.not_lt_zero _)
  · obtain rfl : i = 0 := by simpa using h
    rfl
  · have hi : i < 2 := h
    interval_cases i <;> rfl
  · have hi : i < 3 := h
    interval_cases i
    · rfl
    · exact ⟨_, rfl, rfl⟩
    · exact ⟨_, rfl, rfl⟩
  · have hi : i < 4 := h
    interval_cases i
    all_goals exact ⟨_, rfl, rfl⟩
  · simp only [List.length_cons] at hlen
    omega

/-! ### The whole text -/

theorem decodeText_short {l : Bytes} (h : l.length ≤ 4) :
    decodeText l l.length = decodeEnd l l.length := by
  obtain ⟨n, hn⟩ : ∃ n, l.length = n := ⟨_, rfl⟩
  rw [hn] at h ⊢
  rw [decodeText]
  · intro sz hsz
    omega
  · intro sz hsz
    omega

theorem decodeText_group (a b c d e : UInt8) (text : Bytes) :
    decodeText (a :: b :: c :: d :: e :: text) (a :: b :: c :: d :: e :: text).length =
      if firstBad [a, b, c, d] < 4 then ⟨[], .thrown⟩
      else (decodeText (e :: text) (e :: text).length).before
        [first a b, second b c, third c d] := by
  have hbad : (lookup a = 64 ∨ lookup b = 64 ∨ lookup c = 64 ∨ lookup d = 64) ↔
      firstBad [a, b, c, d] < 4 := by
    show _ ↔ List.findIdx _ _ < [a, b, c, d].length
    rw [List.findIdx_lt_length]
    simp
  rw [show (a :: b :: c :: d :: e :: text).length = text.length + 5 from rfl, decodeText]
  simp only [hbad]
  rfl

theorem firstBad_append (l l' : Bytes) :
    firstBad (l ++ l') = if firstBad l < l.length then firstBad l else firstBad l' + l.length := by
  rw [firstBad, List.findIdx_append]
  rfl

/-- The groups before the first bad one are stored; then the text is refused there, or its last
group is reached. -/
theorem decodeText_eq : ∀ text : Bytes,
    ∃ out, out.length = 3 * (firstBad (groupsBefore text) / 4) ∧
      decodeText text text.length =
        (if firstBad (groupsBefore text) < (groupsBefore text).length then ⟨[], .thrown⟩
          else decodeEnd (lastGroup text) (lastGroup text).length : Decoded).before out := by
  refine group_cases (fun l hl => ?_) fun a b c d e text ih => ?_
  · refine ⟨[], ?_, ?_⟩
    · rw [groupsBefore_short hl]
      rfl
    · rw [decodeText_short hl, groupsBefore_short hl, lastGroup_short hl]
      rfl
  · obtain ⟨out, hlen, hout⟩ := ih
    have hfirst : firstBad (groupsBefore (a :: b :: c :: d :: e :: text)) =
        if firstBad [a, b, c, d] < 4 then firstBad [a, b, c, d]
        else firstBad (groupsBefore (e :: text)) + 4 := by
      rw [groupsBefore_group]
      exact firstBad_append [a, b, c, d] _
    have hlength : (groupsBefore (a :: b :: c :: d :: e :: text)).length =
        (groupsBefore (e :: text)).length + 4 := by
      rw [groupsBefore_group]
      rfl
    rw [decodeText_group, lastGroup_group, hout, hfirst, hlength]
    by_cases hbad : firstBad [a, b, c, d] < 4
    · -- nothing of this group or of the ones behind it is stored
      rw [if_pos hbad, if_pos hbad]
      refine ⟨[], by rw [Nat.div_eq_of_lt hbad]; rfl, ?_⟩
      rw [if_pos (by omega)]
      rfl
    · rw [if_neg hbad, if_neg hbad]
      refine ⟨first a b :: second b c :: third c d :: out, ?_, ?_⟩
      · rw [List.length_cons, List.length_cons, List.length_cons, hlen]
        omega
      · simp only [Nat.add_lt_add_iff_right]
        rfl

/-- **How a text is decoded**: it is left behind, refused, or read to the end. -/
theorem decodeText_cases (text : Bytes) :
    ((decodeText text text.length).ending = .outside ∧ ¬ Legible text ∧ ¬ Closed text) ∨
      ((decodeText text text.length).ending = .thrown ∧ Legible text ∧
        (decodeText text text.length).out.length = stores text) ∨
      ((decodeText text text.length).ending = .done ∧ Closed text ∧
        (decodeText text text.length).out.length = stores text) := by
  have hlast := length_lastGroup_le text
  obtain ⟨out, hlen, hout⟩ := decodeText_eq text
  rcases Nat.lt_or_eq_of_le (firstBad_le (groupsBefore text)) with hbefore | hclean
  · -- a bad group before the last one
    rw [hout, if_pos hbefore]
    refine .inr (.inl ⟨rfl, .inl hbefore, ?_⟩)
    rw [stores, if_neg fun h => hbefore.ne h.1, ← hlen]
    exact congrArg List.length (List.append_nil out)
  rw [hout, if_neg hclean.not_lt, stores]
  have hlegible : Legible text ↔ firstBad (lastGroup text) < (lastGroup text).length ∧
      ((lastGroup text)[firstBad (lastGroup text)]? ≠ some 61 ∨ (lastGroup text).length = 4 ∧
        (firstBad (lastGroup text) = 3 ∨ firstBad (lastGroup text) = 2 ∧
          (lastGroup text)[3]? = some 61)) := or_iff_right hclean.not_lt
  have hclosed : Closed text ↔ firstBad (lastGroup text) < (lastGroup text).length ∧
      (lastGroup text)[firstBad (lastGroup text)]? = some 61 ∧
        ((lastGroup text).length = 4 ∨ (lastGroup text).length = 3 ∧
          0 < firstBad (lastGroup text)) := and_iff_right hclean
  rw [hlegible, hclosed]
  generalize lastGroup text = l at *
  rcases Nat.lt_or_eq_of_le (firstBad_le l) with hlt | heq
  · by_cases hpad : l[firstBad l]? = some 61
    · have hend := decodeEnd_pad hlast hlt hpad
      split_ifs at hend with hfull
      · obtain ⟨out', hout', hlen'⟩ := hend
        rw [hout']
        refine .inr (.inr ⟨rfl, ⟨hlt, hpad, hfull⟩, ?_⟩)
        rw [if_pos ⟨hclean, hpad⟩, ← hlen, ← hlen']
        exact List.length_append
      · refine .inl ⟨hend, fun h => ?_, fun h => hfull h.2.2⟩
        exact h.2.elim (fun hne => hne hpad) fun hfour => hfull (.inl hfour.1)
    · rw [decodeEnd_bad hlast hlt hpad]
      refine .inr (.inl ⟨rfl, ⟨hlt, .inl hpad⟩, ?_⟩)
      rw [if_neg fun h => hpad h.2, ← hlen]
      exact congrArg List.length (List.append_nil out)
  · rw [decodeEnd_open hlast heq]
    exact .inl ⟨rfl, fun h => h.1.ne heq, fun h => h.1.ne heq⟩

/-- A text that is read to the end is well formed when it is legible. -/
theorem Closed.wellFormed_iff {text : Bytes} (h : Closed text) :
    WellFormed text (stores text) ↔ Legible text := by
  obtain ⟨hclean, hlt, hpad, hfull⟩ := h
  have hparts := groupsBefore_append text
  have hbefore := length_groupsBefore text
  have hlength : (groupsBefore text).length + (lastGroup text).length = text.length := by
    rw [← List.length_append, hparts]
  have hstores : stores text = 3 * (firstBad (groupsBefore text) / 4) +
      ((lastGroup text).length + firstBad (lastGroup text) - 5) := by
    rw [stores, if_pos ⟨hclean, hpad⟩]
  rw [hclean, hbefore] at hstores
  have hlegible : Legible text ↔ (lastGroup text).length = 4 ∧
      (firstBad (lastGroup text) = 3 ∨ firstBad (lastGroup text) = 2 ∧
        (lastGroup text)[3]? = some 61) := by
    refine (or_iff_right hclean.not_lt).trans ((and_iff_right hlt).trans (or_iff_right ?_))
    exact not_not.mpr hpad
  have hat : ∀ j, (lastGroup text)[j]? = text[(groupsBefore text).length + j]? := by
    intro j
    have hget : (groupsBefore text ++ lastGroup text)[(groupsBefore text).length + j]? =
        text[(groupsBefore text).length + j]? :=
      congrArg (·[(groupsBefore text).length + j]?) hparts
    rw [← hget, List.getElem?_append_right (Nat.le_add_right _ _), Nat.add_sub_cancel_left]
  rw [hlegible]
  constructor
  · rintro ⟨hdvd, chars, pads, htext, hpads, hchars, -⟩
    have hfour : (lastGroup text).length = 4 := by omega
    have hlen : chars.length + pads = text.length := by
      rw [htext, List.length_append, List.length_replicate]
    have hget : ∀ j : ℕ, text[j]? = (chars ++ List.replicate pads (61 : UInt8))[j]? :=
      fun j => congrArg (fun l : Bytes => l[j]?) htext
    -- the first pad of the last group is one of the two
    have hbehind : chars.length ≤ (groupsBefore text).length + firstBad (lastGroup text) := by
      by_contra hlt'
      rw [hat, hget, List.getElem?_append_left (by omega)] at hpad
      have hmem := hchars 61 (List.mem_of_getElem? hpad)
      exact absurd hmem (by decide)
    refine ⟨hfour, ?_⟩
    rcases Nat.eq_or_lt_of_le (show 2 ≤ firstBad (lastGroup text) by omega) with htwo | hthree
    · refine .inr ⟨htwo.symm, ?_⟩
      rw [hat, hget, List.getElem?_append_right (by omega), List.getElem?_replicate,
        if_pos (by omega)]
    · exact .inl (by omega)
  · rintro ⟨hfour, hend⟩
    have hgood : ∀ c ∈ groupsBefore text ++ (lastGroup text).take (firstBad (lastGroup text)),
        c ∈ b64table := by
      intro c hc
      rw [← not_not (a := c ∈ b64table), ← lookup_eq_iff]
      rcases List.mem_append.mp hc with hc | hc
      · obtain ⟨j, hj, rfl⟩ := List.mem_iff_getElem.mp hc
        exact lookup_of_lt (hclean ▸ hj) hj
      · obtain ⟨j, hj, rfl⟩ := List.mem_iff_getElem.mp hc
        rw [List.length_take] at hj
        rw [List.getElem_take]
        exact lookup_of_lt (by omega) (by omega)
    have hrest : (lastGroup text).drop (firstBad (lastGroup text)) =
        List.replicate (4 - firstBad (lastGroup text)) 61 := by
      refine List.ext_getElem? fun j => ?_
      rw [List.getElem?_drop, List.getElem?_replicate]
      split_ifs with hj
      · rcases hend with hthree | ⟨htwo, hsecond⟩
        · rw [show j = 0 by omega]
          exact hpad
        · rcases Nat.eq_zero_or_pos j with rfl | hpos
          · exact hpad
          · rw [show firstBad (lastGroup text) + j = 3 by omega]
            exact hsecond
      · exact List.getElem?_eq_none (by omega)
    refine ⟨by omega, _, 4 - firstBad (lastGroup text), ?_, by omega, hgood, by omega⟩
    rw [List.append_assoc, ← hrest, List.take_append_drop, hparts]

/-- **The texts that are decoded as they should be.** -/
theorem decodesSafely_iff {b : HeapBuffer} (h : b.Valid) (text : Bytes) (a : Alloc) :
    DecodesSafely b text a ↔ b.Denied (needed text) a ∨
      stores text ≤ b.heldAfter (needed text) ∧
        (Legible text ∨ Closed text ∧ b.sizeAfter (needed text) < b.m_offset + stores text) := by
  have hneed : needed text < 2 ^ 32 := Nat.mod_lt _ (by decide)
  rcases h.reserve_eq hneed a with ⟨hdenied, hreserve⟩ | ⟨hdenied, b', hreserve, hgrew, hheld⟩
  · refine iff_of_true ?_ (.inl hdenied)
    rw [DecodesSafely, decodeInto, storeAll,
      show (text.length / 4 * 3 + 4) % 2 ^ 32 = needed text from rfl, hreserve]
    trivial
  rw [or_iff_right hdenied, DecodesSafely, decodeInto, storeAll,
    show (text.length / 4 * 3 + 4) % 2 ^ 32 = needed text from rfl, hreserve]
  simp only [Outcome.andThen]
  rcases decodeText_cases text with ⟨hend, hlegible, hclosed⟩ | ⟨hend, hlegible, hlen⟩ |
    ⟨hend, hclosed, hlen⟩
  · -- it is left behind, if the memory is not left before
    refine iff_of_false ?_ fun hand => hand.2.elim hlegible fun hand => hclosed hand.1
    rcases le_or_gt (decodeText text text.length).out.length b'.memory.length with hfits | hover
    · obtain ⟨b'', hfill, -⟩ := fill_eq hfits
      rw [hfill, hend]
      exact id
    · rw [fill_of_lt hover]
      exact id
  · rw [and_iff_left (.inl hlegible), ← hlen, ← hheld]
    rcases le_or_gt (decodeText text text.length).out.length b'.memory.length with hfits | hover
    · obtain ⟨b'', hfill, -⟩ := fill_eq hfits
      rw [hfill, hend]
      exact iff_of_true trivial hfits
    · rw [fill_of_lt hover]
      exact iff_of_false id hover.not_ge
  · rw [and_iff_right hclosed, ← hheld]
    rcases le_or_gt (decodeText text text.length).out.length b'.memory.length with hfits | hover
    · obtain ⟨b'', hfill, hsize, hoffset, -⟩ := fill_eq hfits
      rw [hfill, hend, hlen, ← hclosed.wellFormed_iff, and_iff_right (hlen ▸ hfits)]
      show (match b''.bseek (b''.m_offset + stores text) with
        | .thrown _ => True
        | .done b' => ∃ n, b'.m_offset = b.m_offset + n ∧ WellFormed text n
        | .undefined => False) ↔ _
      rw [bseek, hsize, hoffset, hgrew.size_eq, hgrew.offset_eq]
      by_cases hin : b.m_offset + stores text ≤ b.sizeAfter (needed text)
      · rw [if_pos (by omega), or_iff_left (by omega)]
        constructor
        · rintro ⟨n, hn, hwell⟩
          have hn : ((b.m_offset : ℤ) + stores text).toNat = b.m_offset + n := hn
          rwa [show stores text = n by omega]
        · intro hwell
          exact ⟨stores text, by show ((b.m_offset : ℤ) + stores text).toNat = _; omega, hwell⟩
      · rw [if_neg (by omega)]
        exact iff_of_true trivial (.inr (by omega))
    · rw [fill_of_lt hover]
      exact iff_of_false id fun hand => absurd hand.1 (by omega)

theorem decodesSafely_padded :
    null.Valid ∧ DecodesSafely null (ascii "TWE=") (some fun _ => 0) :=
  ⟨valid_null, (decodesSafely_iff valid_null _ _).mpr
    (.inr ⟨by decide +kernel, .inl (by decide +kernel)⟩)⟩

/-- Behind a group without pads, and behind an empty text, the next byte is looked at; four pads, a
text whose pads are followed by a character and one of three characters are accepted. -/
theorem not_decodesSafely :
    ¬ DecodesSafely null (ascii "TWFu") (some fun _ => 0) ∧
      decodeText (ascii "TWFu") 4 = ⟨[], .outside⟩ ∧ decodeText [] 0 = ⟨[], .outside⟩ ∧
      decodeText (ascii "====") 4 = ⟨[], .done⟩ ∧ decodeText (ascii "TW=u") 4 = ⟨[77], .done⟩ ∧
      decodeText (ascii "TW=") 3 = ⟨[], .done⟩ := by
  refine ⟨fun h => ?_, rfl, rfl, rfl, rfl, rfl⟩
  have hrun : decodeInto null (ascii "TWFu") 4 (some fun _ => 0) = .undefined := rfl
  rw [DecodesSafely, show (ascii "TWFu").length = 4 from rfl, hrun] at h
  exact h

end Base64

end Suil
