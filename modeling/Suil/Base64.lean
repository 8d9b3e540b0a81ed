/-
Base64.

The encoder writes a group of four characters for every three bytes, and pads
the last one.  The decoder reads all groups but the last one in a loop and then
looks for the end of the last one; it takes four off the length that is left
also when there is no group at all.

* `loop_encodeText` — a text that is not empty is decoded to what it encodes;
* `encode_eq`, `decode_eq` — the buffers that both write to have room below a
  bound;
* `decode_encode_iff` — the byte strings that survive both.
-/
import Suil.Buffer

namespace Suil.Base64

def b64table : Bytes := ascii "ABCDEFGHIJKLMNOPQRSTUVWXYZabcdefghijklmnopqrstuvwxyz0123456789+/"

/-- `b64table[i]`. -/
def b64 (i : UInt8) : UInt8 := b64table.getD i.toNat 0

/-- The text of `encode`. -/
def encodeText : Bytes → Bytes
  | [] => []
  | [x] => [b64 ((x &&& 0xFC) >>> 2), b64 ((x &&& 0x03) <<< 4), 61, 61]
  | [x, y] =>
    [b64 ((x &&& 0xFC) >>> 2), b64 ((x &&& 0x03) <<< 4 ||| (y &&& 0xF0) >>> 4),
      b64 ((y &&& 0x0F) <<< 2), 61]
  | x :: y :: z :: data =>
    b64 ((x &&& 0xFC) >>> 2) :: b64 ((x &&& 0x03) <<< 4 ||| (y &&& 0xF0) >>> 4) ::
      b64 ((y &&& 0x0F) <<< 2 ||| (z &&& 0xC0) >>> 6) :: b64 (z &&& 0x3F) :: encodeText data

/-- `encode` into a buffer: the text and, not counted, a zero byte. -/
def encodeTo (ob : Buffer) (data : Bytes) : Option Buffer := do
  let ob ← ob.reserve (2 + (data.length + 2) / 3 * 4)
  let out := encodeText data
  if ob.bytes.length + out.length < ob.memory then
    let ob ← ob.copyIn out
    if ob.bytes.length ≤ ob.size then some ob else none
  else none

/-- `encode`.  Like the calls below it is `none` when the call throws or leaves the
buffer's memory. -/
def encode (data : Bytes) : Option Bytes := do
  let ob ← Buffer.new 0
  let ob ← encodeTo ob data
  some ob.bytes

def asciiLookup : List ℕ :=
  [64, 64, 64, 64, 64, 64, 64, 64, 64, 64, 64, 64, 64, 64, 64, 64,
   64, 64, 64, 64, 64, 64, 64, 64, 64, 64, 64, 64, 64, 64, 64, 64,
   64, 64, 64, 64, 64, 64, 64, 64, 64, 64, 64, 62, 64, 64, 64, 63,
   52, 53, 54, 55, 56, 57, 58, 59, 60, 61, 64, 64, 64, 64, 64, 64,
   64,  0,  1,  2,  3,  4,  5,  6,  7,  8,  9, 10, 11, 12, 13, 14,
   15, 16, 17, 18, 19, 20, 21, 22, 23, 24, 25, 64, 64, 64, 64, 64,
   64, 26, 27, 28, 29, 30, 31, 32, 33, 34, 35, 36, 37, 38, 39, 40,
   41, 42, 43, 44, 45, 46, 47, 48, 49, 50, 51, 64, 64, 64, 64, 64]

/-- `ASCII_LOOKUP[c]`; the second half of the table is 64 throughout. -/
def lookup (c : UInt8) : ℕ := asciiLookup.getD c.toNat 64

/-- The three bytes of a group. -/
def byte₀ (it : ℕ → UInt8) : UInt8 := .ofNat (lookup (it 0) <<< 2 ||| lookup (it 1) >>> 4)

def byte₁ (it : ℕ → UInt8) : UInt8 := .ofNat (lookup (it 1) <<< 4 ||| lookup (it 2) >>> 2)

def byte₂ (it : ℕ → UInt8) : UInt8 := .ofNat (lookup (it 2) <<< 6 ||| lookup (it 3))

/-- `while ((it[i] != '=') && (ASCII_LOOKUP[it[i]] != 64) && (i++ < 4))`, where the
first argument is the number of turns left. -/
def scan (it : ℕ → UInt8) : ℕ → ℕ → ℕ
  | 0, i => i
  | n + 1, i =>
    if it i = 61 ∨ lookup (it i) = 64 then i
    else if i < 4 then scan it n (i + 1)
    else i + 1

/-- The last group.  `sz -= 4-i` is a subtraction of `size_t`. -/
def decodeLast (it : ℕ → UInt8) (sz : ℕ) : Option Bytes :=
  let i := scan it 5 0
  if sz ≠ i ∧ it i ≠ 61 then none
  else
    let sz := if 4 ≤ sz + i then sz + i - 4 else sz + i + 2 ^ 64 - 4
    some ((if 1 < sz then [byte₀ it] else []) ++ (if 2 < sz then [byte₁ it] else []) ++
      (if 3 < sz then [byte₂ it] else []))

/-- What `decode` reads at `it`, where `sz` bytes are left. -/
def decodeLoop (it : ℕ → UInt8) : ℕ → Option Bytes
  | sz + 5 =>
    if lookup (it 0) = 64 ∨ lookup (it 1) = 64 ∨ lookup (it 2) = 64 ∨ lookup (it 3) = 64 then none
    else
      (decodeLoop (fun i => it (i + 4)) (sz + 1)).map fun data =>
        byte₀ it :: byte₁ it :: byte₂ it :: data
  | sz => decodeLast it sz

/-- `decode` of `size` bytes at `it`. -/
def decode (it : ℕ → UInt8) (size : ℕ) : Option Bytes := do
  let ob ← Buffer.new (size / 4 % 2 ^ 32 * 3 % 2 ^ 32)
  let ob ← ob.reserve ((size / 4 * 3 + 4) % 2 ^ 32)
  let data ← decodeLoop it size
  let ob ← ob.copyIn data
  if ob.bytes.length ≤ ob.size then some ob.bytes else none

/-- A string in memory: its bytes, a zero byte, and whatever lies behind. -/
def stored : Bytes → (ℕ → UInt8) → ℕ → UInt8
  | [], _, 0 => 0
  | [], behind, i + 1 => behind i
  | c :: _, _, 0 => c
  | _ :: text, behind, i + 1 => stored text behind i

/-- The groups of a text. -/
def groups (data : Bytes) : ℕ := (data.length + 2) / 3

/-! ### One group -/

/-- The characters of the table. -/
theorem b64table_eq : b64table =
    [65, 66, 67, 68, 69, 70, 71, 72, 73, 74, 75, 76, 77, 78, 79, 80, 81, 82, 83, 84,
    85, 86, 87, 88, 89, 90, 97, 98, 99, 100, 101, 102, 103, 104, 105, 106, 107, 108, 109, 110,
    111, 112, 113, 114, 115, 116, 117, 118, 119, 120, 121, 122, 48, 49, 50, 51, 52, 53, 54, 55,
    56, 57, 43, 47] := by
  decide +kernel

theorem lookup_b64 {i : UInt8} (h : i.toNat < 64) : lookup (b64 i) = i.toNat := by
  have hall : ∀ n < 64, asciiLookup.getD (b64table.getD n 0).toNat 64 = n := by
    rw [b64table_eq]
    decide
  exact hall i.toNat h

theorem b64_ne_pad {i : UInt8} (h : i.toNat < 64) : b64 i ≠ 61 ∧ lookup (b64 i) ≠ 64 := by
  have hlookup := lookup_b64 h
  refine ⟨fun heq => ?_, by omega⟩
  rw [heq, show lookup 61 = 64 from by decide] at hlookup
  omega

/-- The four indices that a group is split into. -/
theorem indices (x y z : UInt8) :
    ((x &&& 0xFC) >>> 2).toNat = x.toNat / 4 ∧
    ((x &&& 0x03) <<< 4).toNat = x.toNat % 4 * 16 ∧
    ((x &&& 0x03) <<< 4 ||| (y &&& 0xF0) >>> 4).toNat = x.toNat % 4 * 16 + y.toNat / 16 ∧
    ((y &&& 0x0F) <<< 2).toNat = y.toNat % 16 * 4 ∧
    ((y &&& 0x0F) <<< 2 ||| (z &&& 0xC0) >>> 6).toNat = y.toNat % 16 * 4 + z.toNat / 64 ∧
    (z &&& 0x3F).toNat = z.toNat % 64 := by
  have hmasks : ∀ n < 256, ((UInt8.ofNat n &&& 0xFC) >>> 2).toNat = n / 4 ∧
      ((UInt8.ofNat n &&& 0x03) <<< 4).toNat = n % 4 * 16 ∧
      ((UInt8.ofNat n &&& 0xF0) >>> 4).toNat = n / 16 ∧
      ((UInt8.ofNat n &&& 0x0F) <<< 2).toNat = n % 16 * 4 ∧
      ((UInt8.ofNat n &&& 0xC0) >>> 6).toNat = n / 64 ∧
      (UInt8.ofNat n &&& 0x3F).toNat = n % 64 := by decide +kernel
  obtain ⟨hx₀, hx₁, -⟩ := UInt8.ofNat_toNat (x := x) ▸ hmasks x.toNat x.toNat_lt
  obtain ⟨-, -, hy₀, hy₁, -⟩ := UInt8.ofNat_toNat (x := y) ▸ hmasks y.toNat y.toNat_lt
  obtain ⟨-, -, -, -, hz₀, hz₁⟩ := UInt8.ofNat_toNat (x := z) ▸ hmasks z.toNat z.toNat_lt
  -- the two parts of an index have no bit in common
  have hxy : ∀ a < 4, ∀ b < 16, a * 16 ||| b = a * 16 + b := by decide
  have hyz : ∀ a < 16, ∀ b < 4, a * 4 ||| b = a * 4 + b := by decide
  have hy := y.toNat_lt
  have hz := z.toNat_lt
  refine ⟨hx₀, hx₁, ?_, hy₁, ?_, hz₁⟩
  · rw [UInt8.toNat_or, hx₁, hy₀]
    exact hxy _ (by omega) _ (by omega)
  · rw [UInt8.toNat_or, hy₁, hz₀]
    exact hyz _ (by omega) _ (by omega)

/-- The bytes that the indices are put together to. -/
theorem ofNat_indices {i j k l : ℕ} (hj : j < 64) (hk : k < 64) (hl : l < 64) :
    UInt8.ofNat (i <<< 2 ||| j >>> 4) = UInt8.ofNat (i * 4 + j / 16) ∧
    UInt8.ofNat (j <<< 4 ||| k >>> 2) = UInt8.ofNat (j * 16 + k / 4) ∧
    UInt8.ofNat (k <<< 6 ||| l) = UInt8.ofNat (k * 64 + l) := by
  have hhigh : j >>> 4 = j / 16 := Nat.shiftRight_eq_div_pow j 4
  have hmid : k >>> 2 = k / 4 := Nat.shiftRight_eq_div_pow k 2
  refine ⟨?_, ?_, ?_⟩
  · rw [← Nat.shiftLeft_add_eq_or_of_lt (show j >>> 4 < 2 ^ 2 by omega), hhigh,
      Nat.shiftLeft_eq]
  · rw [← Nat.shiftLeft_add_eq_or_of_lt (show k >>> 2 < 2 ^ 4 by omega), hmid, Nat.shiftLeft_eq]
  · rw [← Nat.shiftLeft_add_eq_or_of_lt (show l < 2 ^ 6 by omega), Nat.shiftLeft_eq]

theorem ofNat_eq {n : ℕ} {x : UInt8} (h : n % 256 = x.toNat) : UInt8.ofNat n = x := by
  refine UInt8.toNat_inj.mp ?_
  rw [UInt8.toNat_ofNat']
  exact h

section Group

variable {it : ℕ → UInt8} {x y z i j k l : UInt8}

theorem byte₀_eq (h₀ : it 0 = b64 i) (h₁ : it 1 = b64 j) (hi : i.toNat = x.toNat / 4)
    (hj : j.toNat < 64) (hjx : j.toNat / 16 = x.toNat % 4) : byte₀ it = x := by
  have hx := x.toNat_lt
  rw [byte₀, h₀, h₁, lookup_b64 (by omega), lookup_b64 hj, (ofNat_indices hj hj hj).1]
  exact ofNat_eq (by omega)

theorem byte₁_eq (h₁ : it 1 = b64 j) (h₂ : it 2 = b64 k) (hj : j.toNat < 64)
    (hjy : j.toNat % 16 = y.toNat / 16) (hk : k.toNat < 64) (hky : k.toNat / 4 = y.toNat % 16) :
    byte₁ it = y := by
  have hy := y.toNat_lt
  rw [byte₁, h₁, h₂, lookup_b64 hj, lookup_b64 hk, (ofNat_indices (i := 0) hj hk hk).2.1]
  exact ofNat_eq (by omega)

theorem byte₂_eq (h₂ : it 2 = b64 k) (h₃ : it 3 = b64 l) (hk : k.toNat < 64)
    (hkz : k.toNat % 4 = z.toNat / 64) (hl : l.toNat = z.toNat % 64) : byte₂ it = z := by
  have hz := z.toNat_lt
  rw [byte₂, h₂, h₃, lookup_b64 hk, lookup_b64 (by omega),
    (ofNat_indices (i := 0) hk hk (show l.toNat < 64 by omega)).2.2]
  exact ofNat_eq (by omega)

/-- The scan stops at the first character that ends a group. -/
theorem scan_eq {n i k : ℕ} (hchars : ∀ j, i ≤ j → j < k → it j ≠ 61 ∧ lookup (it j) ≠ 64)
    (hend : it k = 61 ∨ lookup (it k) = 64) (hik : i ≤ k) (hk : k ≤ 4) (hn : k < i + n) :
    scan it n i = k := by
  induction n generalizing i with
  | zero => omega
  | succ n ih =>
    rw [scan]
    rcases hik.eq_or_lt with rfl | hlt
    · exact if_pos hend
    · obtain ⟨hpad, hvalid⟩ := hchars i le_rfl hlt
      rw [if_neg (by simp [hpad, hvalid]), if_pos (by omega)]
      exact ih (fun j hj => hchars j (by omega)) hlt (by omega)

end Group

/-! ### The text -/

theorem length_encodeText (data : Bytes) : (encodeText data).length = 4 * groups data := by
  induction data using encodeText.induct with
  | case1 => rfl
  | case2 x => simp [encodeText, groups]
  | case3 x y => simp [encodeText, groups]
  | case4 x y z data ih =>
    have hgroups : groups (x :: y :: z :: data) = groups data + 1 := by
      rw [groups, groups]
      simp only [List.length_cons]
      omega
    rw [encodeText, hgroups]
    simp only [List.length_cons]
    omega

/-- A group that is followed by others. -/
theorem decodeLoop_group {it : ℕ → UInt8} {i j k l : UInt8} {n : ℕ} (h₀ : it 0 = b64 i)
    (h₁ : it 1 = b64 j) (h₂ : it 2 = b64 k) (h₃ : it 3 = b64 l) (hi : i.toNat < 64)
    (hj : j.toNat < 64) (hk : k.toNat < 64) (hl : l.toNat < 64) (hn : 0 < n) :
    decodeLoop it (4 + n) = (decodeLoop (fun i => it (i + 4)) n).map fun data =>
      byte₀ it :: byte₁ it :: byte₂ it :: data := by
  obtain ⟨n, rfl⟩ := Nat.exists_eq_add_of_lt hn
  rw [show 4 + (0 + n + 1) = n + 5 by omega, show 0 + n + 1 = n + 1 by omega, decodeLoop, if_neg]
  rw [h₀, h₁, h₂, h₃]
  simp [(b64_ne_pad hi).2, (b64_ne_pad hj).2, (b64_ne_pad hk).2, (b64_ne_pad hl).2]

/-- The last group, by the place where it ends. -/
theorem decodeLast_eq {it : ℕ → UInt8} {n : ℕ} (hn : 0 < n) (hn4 : n ≤ 4)
    (hchars : ∀ j < n, it j ≠ 61 ∧ lookup (it j) ≠ 64)
    (hend : it n = 61 ∨ n = 4 ∧ lookup (it n) = 64) :
    decodeLast it 4 = some ((if 1 < n then [byte₀ it] else []) ++
      (if 2 < n then [byte₁ it] else []) ++ (if 3 < n then [byte₂ it] else [])) := by
  have hscan : scan it 5 0 = n := by
    refine scan_eq (fun j _ hj => hchars j hj) ?_ (Nat.zero_le n) hn4 (by omega)
    exact hend.imp_right And.right
  have hvalid : ¬(4 ≠ n ∧ it n ≠ 61) := by
    rintro ⟨hne, hpad⟩
    exact hend.elim hpad fun hfull => hne hfull.1.symm
  have hleft : (if 4 ≤ 4 + n then 4 + n - 4 else 4 + n + 2 ^ 64 - 4) = n := by
    rw [if_pos (by omega)]
    omega
  rw [decodeLast]
  simp only [hscan]
  rw [if_neg hvalid, hleft]

/-- **A text that is not empty** is decoded to what it encodes, whatever lies behind it. -/
theorem loop_encodeText (behind : ℕ → UInt8) {data : Bytes} (h : data ≠ []) :
    decodeLoop (stored (encodeText data) behind) (encodeText data).length = some data := by
  induction data using encodeText.induct with
  | case1 => exact absurd rfl h
  | case2 x =>
    obtain ⟨hi, hj, -⟩ := indices x 0 0
    have hx := x.toNat_lt
    show decodeLast _ 4 = _
    rw [decodeLast_eq (n := 2) (by omega) (by omega) ?_ (Or.inl rfl), if_pos (by omega),
      if_neg (by omega), if_neg (by omega)]
    · have hbyte : byte₀ (stored (encodeText [x]) behind) = x :=
        byte₀_eq rfl rfl hi (by omega) (by omega)
      rw [hbyte]
      rfl
    · intro m hm
      interval_cases m
      · exact b64_ne_pad (by omega)
      · exact b64_ne_pad (by omega)
  | case3 x y =>
    obtain ⟨hi, -, hj, hk, -⟩ := indices x y 0
    have hx := x.toNat_lt
    have hy := y.toNat_lt
    show decodeLast _ 4 = _
    rw [decodeLast_eq (n := 3) (by omega) (by omega) ?_ (Or.inl rfl), if_pos (by omega),
      if_pos (by omega), if_neg (by omega)]
    · have hbyte : byte₀ (stored (encodeText [x, y]) behind) = x :=
        byte₀_eq rfl rfl hi (by omega) (by omega)
      have hbyte' : byte₁ (stored (encodeText [x, y]) behind) = y :=
        byte₁_eq rfl rfl (by omega) (by omega) (by omega) (by omega)
      rw [hbyte, hbyte']
      rfl
    · intro m hm
      interval_cases m
      · exact b64_ne_pad (by omega)
      · exact b64_ne_pad (by omega)
      · exact b64_ne_pad (by omega)
  | case4 x y z data ih =>
    obtain ⟨hi, -, hj, -, hk, hl⟩ := indices x y z
    have hx := x.toNat_lt
    have hy := y.toNat_lt
    have hz := z.toNat_lt
    set it := stored (encodeText (x :: y :: z :: data)) behind with hit
    have hbyte : byte₀ it = x := byte₀_eq rfl rfl hi (by omega) (by omega)
    have hbyte' : byte₁ it = y := byte₁_eq rfl rfl (by omega) (by omega) (by omega) (by omega)
    have hbyte'' : byte₂ it = z := byte₂_eq rfl rfl (by omega) (by omega) hl
    rcases eq_or_ne data [] with rfl | hdata
    · have hzero : lookup (it 4) = 64 := by
        show lookup 0 = 64
        decide
      show decodeLast _ 4 = _
      rw [decodeLast_eq (n := 4) (by omega) (by omega) ?_ (Or.inr ⟨rfl, hzero⟩),
        if_pos (by omega), if_pos (by omega), if_pos (by omega), hbyte, hbyte', hbyte'']
      · rfl
      · intro m hm
        interval_cases m
        · exact b64_ne_pad (by omega)
        · exact b64_ne_pad (by omega)
        · exact b64_ne_pad (by omega)
        · exact b64_ne_pad (by omega)
    · have hlen : (encodeText (x :: y :: z :: data)).length = 4 + (encodeText data).length := by
        rw [encodeText]
        simp only [List.length_cons]
        omega
      have hpos : 0 < (encodeText data).length := by
        have hdata' := List.length_pos_iff.mpr hdata
        rw [length_encodeText, groups]
        omega
      rw [hlen, decodeLoop_group rfl rfl rfl rfl (by omega) (by omega) (by omega) (by omega) hpos,
        hbyte, hbyte', hbyte'']
      show ((decodeLoop (stored (encodeText data) behind) _).map _) = _
      rw [ih hdata]
      rfl

/-- Without a group three bytes are made of what lies behind. -/
theorem loop_nil (behind : ℕ → UInt8) :
    ∃ x y z, decodeLoop (stored [] behind) 0 = some [x, y, z] :=
  ⟨_, _, _, rfl⟩

/-! ### The buffers -/

/-- The buffer that the text is written to has room for it below 2^32. -/
theorem encode_eq (data : Bytes) :
    encode data = if 4 * groups data + 12 ≤ 2 ^ 32 then some (encodeText data) else none := by
  obtain ⟨ob, hnew, hbytes, hsize, hsound⟩ := Buffer.new_eq_some 0
  obtain ⟨ob', hnew', hbytes', hsize', hsound'⟩ :=
    Buffer.new_eq_some (2 + (data.length + 2) / 3 * 4)
  set n := 2 + (data.length + 2) / 3 * 4 with hn
  -- reserving in the empty buffer is making a new one
  have hempty : Buffer.new 0 = some (⟨[], 0, 0, le_rfl⟩ : Buffer) := rfl
  have hreserve : (⟨[], 0, 0, le_rfl⟩ : Buffer).reserve n = some ob' := by
    rw [← hnew', Buffer.new, if_neg (by omega), Buffer.reserve]
    simp only [Buffer.capacity, List.length_nil, le_refl, if_true, Nat.sub_zero, Nat.zero_max]
    exact if_pos (by omega)
  have hlen : (encodeText data).length = 4 * groups data := length_encodeText data
  have hgroups : n = 4 * groups data + 2 := by
    rw [hn, groups]
    omega
  have hspare := hsound'.spare
  rw [encode, hempty]
  simp only [Option.bind_eq_bind, Option.bind_some, encodeTo, ← hn, hreserve]
  rw [hbytes', List.length_nil, Nat.zero_add, hlen]
  rw [hgroups, Suil.aligned] at hsize'
  by_cases hroom : 4 * groups data + 12 ≤ 2 ^ 32
  · have hfits : 4 * groups data < ob'.memory := by omega
    rw [if_pos hroom, if_pos hfits]
    obtain ⟨ob'', hcopy, hbytes'', hsize'', hsound''⟩ :=
      hsound'.copyIn (d := encodeText data) (by rw [hbytes', hlen, List.length_nil]; omega)
    rw [hcopy, Option.bind_some, if_pos hsound''.within, Option.bind_some, hbytes'', hbytes']
    rfl
  · have hfull : ¬4 * groups data < ob'.memory := by omega
    rw [if_neg hroom, if_neg hfull]
    rfl

/-- The buffer that is decoded to has room for the text of `n` groups, and for the four bytes
more that it is asked for unless its size is 2^31 or more. -/
def Roomy (n : ℕ) : Prop := aligned (3 * n) < 2 ^ 31 ∨ 3 * n + 4 ≤ aligned (3 * n)

instance (n : ℕ) : Decidable (Roomy n) :=
  inferInstanceAs (Decidable (aligned (3 * n) < 2 ^ 31 ∨ 3 * n + 4 ≤ aligned (3 * n)))

/-- What is decoded is what the loop gives. -/
theorem loop_of_decode {it : ℕ → UInt8} {size : ℕ} {data : Bytes} (h : decode it size = some data) :
    decodeLoop it size = some data := by
  obtain ⟨ob, hnew, h⟩ := Option.bind_eq_some_iff.mp h
  obtain ⟨ob₁, hreserve, h⟩ := Option.bind_eq_some_iff.mp h
  obtain ⟨d, hloop, h⟩ := Option.bind_eq_some_iff.mp h
  obtain ⟨ob₂, hcopy, h⟩ := Option.bind_eq_some_iff.mp h
  rw [Option.ite_none_right_eq_some] at h
  obtain ⟨ob', hnew', hbytes', -⟩ := Buffer.new_eq_some (size / 4 % 2 ^ 32 * 3 % 2 ^ 32)
  obtain rfl := Option.some.inj (hnew.symm.trans hnew')
  have hbytes := (Buffer.copyIn_eq_some_iff.mp hcopy).2.1
  rw [Buffer.reserve_bytes hreserve, hbytes', List.nil_append] at hbytes
  rw [hloop, ← hbytes]
  exact congrArg some (Option.some.inj h.2)

/-- What is decoded is no longer than a buffer. -/
theorem decode_length_lt {it : ℕ → UInt8} {size : ℕ} {data : Bytes}
    (h : decode it size = some data) : data.length < 2 ^ 32 := by
  obtain ⟨ob, hnew, h⟩ := Option.bind_eq_some_iff.mp h
  obtain ⟨ob₁, hreserve, h⟩ := Option.bind_eq_some_iff.mp h
  obtain ⟨d, -, h⟩ := Option.bind_eq_some_iff.mp h
  obtain ⟨ob₂, hcopy, h⟩ := Option.bind_eq_some_iff.mp h
  obtain ⟨hfits, hdata⟩ := Option.ite_none_right_eq_some.mp h
  obtain ⟨ob', hnew', -, -, hsound⟩ := Buffer.new_eq_some (size / 4 % 2 ^ 32 * 3 % 2 ^ 32)
  obtain rfl := Option.some.inj (hnew.symm.trans hnew')
  have hsize : ob₁.size < 2 ^ 32 := by
    rw [Buffer.reserve] at hreserve
    split_ifs at hreserve
    · rcases Buffer.grow_bounds hreserve with heq | hlt
      · exact heq ▸ hsound.size_lt
      · exact hlt.1
    · exact Option.some.inj hreserve ▸ hsound.size_lt
  rw [← Option.some.inj hdata]
  have hkept := (Buffer.copyIn_eq_some_iff.mp hcopy).2.2.1
  omega

/-- The sizes that the decoder computes in 32 bits. -/
theorem sizes_of_length {size : ℕ} (h : size < 2 ^ 32) :
    size / 4 % 2 ^ 32 * 3 % 2 ^ 32 = 3 * (size / 4) ∧
      (size / 4 * 3 + 4) % 2 ^ 32 = 3 * (size / 4) + 4 := by
  constructor
  · rw [Nat.mod_eq_of_lt (show size / 4 < 2 ^ 32 by omega), Nat.mul_comm]
    exact Nat.mod_eq_of_lt (by omega)
  · rw [Nat.mul_comm]
    exact Nat.mod_eq_of_lt (by omega)

/-- A sound buffer with room takes the bytes. -/
theorem copyIn_seek {ob : Buffer} {data : Bytes} (h : ob.Sound) (hbytes : ob.bytes = [])
    (hroom : data.length ≤ ob.size) :
    ((ob.copyIn data).bind fun ob => if ob.bytes.length ≤ ob.size then some ob.bytes else none) =
      some data := by
  obtain ⟨ob', hcopy, hbytes', -, hsound'⟩ :=
    h.copyIn (d := data) (by rwa [hbytes, List.length_nil, Nat.zero_add])
  rw [hcopy, Option.bind_some, if_pos hsound'.within, hbytes', hbytes]
  rfl

/-- A buffer for what `n` groups give takes it when it is `Roomy`. -/
theorem room_eq {n : ℕ} {data : Bytes} (hn : aligned (3 * n) < 2 ^ 32)
    (hle : data.length ≤ 3 * n + 3) (hge : 3 * n ≤ data.length + 3) :
    ((Buffer.new (3 * n)).bind fun ob => (ob.reserve (3 * n + 4)).bind fun ob =>
      (ob.copyIn data).bind fun ob => if ob.bytes.length ≤ ob.size then some ob.bytes else none) =
      if Roomy n then some data else none := by
  have hup := le_aligned (3 * n)
  have hidem : aligned (aligned (3 * n)) = aligned (3 * n) := by
    obtain ⟨k, hk⟩ := dvd_aligned (3 * n)
    rw [hk, aligned]
    omega
  have hnear : aligned (3 * n) < 3 * n + 8 := aligned_lt (3 * n)
  obtain ⟨ob, hnew, hbytes, hsize, hsound⟩ := Buffer.new_eq_some (3 * n)
  rw [Nat.mod_eq_of_lt (show 3 * n < 2 ^ 32 by omega), Nat.mod_eq_of_lt hn] at hsize
  have hcap := hsound.capacity
  rw [hbytes, hsize, List.length_nil, Nat.sub_zero] at hcap
  have hroomy : Roomy n ↔ aligned (3 * n) < 2 ^ 31 ∨ 3 * n + 4 ≤ aligned (3 * n) := Iff.rfl
  rw [hnew, Option.bind_some, Buffer.reserve, hcap]
  have hdvd := dvd_aligned (3 * n)
  clear hcap
  generalize aligned (3 * n) = size at *
  by_cases hfits : 3 * n + 4 ≤ size
  · rw [if_neg (by omega), if_pos (hroomy.mpr (Or.inr hfits)), Option.bind_some]
    exact copyIn_seek hsound hbytes (by omega)
  rw [if_pos (by omega), hsize, Nat.mod_eq_of_lt (show 3 * n + 4 - size < 2 ^ 32 by omega)]
  set more := max size (3 * n + 4 - size) with hmore
  have hmore8 : aligned more = max size 8 ∧ 0 < more := by
    rw [hmore, aligned]
    omega
  by_cases hsmall : size < 2 ^ 31
  · rw [if_pos (hroomy.mpr (Or.inl hsmall))]
    obtain ⟨ob₁, hgrow, hbytes₁, hsize₁, hsound₁⟩ :=
      hsound.grow_ok (n := more) hmore8.2 (by rw [hsize, hmore8.1]; omega)
    rw [hgrow, Option.bind_some]
    exact copyIn_seek hsound₁ (hbytes₁.trans hbytes) (by omega)
  · rw [if_neg fun h => (hroomy.mp h).elim hsmall hfits, Option.bind_eq_none_iff]
    intro ob₁ hgrow
    have hsize₁ := Buffer.grow_size hgrow (by omega)
    rw [hsize, hmore8.1, Nat.mod_eq_of_lt (show max size 8 < 2 ^ 32 by omega)] at hsize₁
    rw [Option.bind_eq_none_iff]
    intro ob₂ hcopy₂
    obtain ⟨-, hbytes₂, hsize₂, -⟩ := Buffer.copyIn_eq_some_iff.mp hcopy₂
    -- the size that is recorded has wrapped, and `seek` sees it
    have hwrapped : (size + max size 8) % 2 ^ 32 = size + size - 2 ^ 32 := by omega
    have hlast : size ≤ 2 ^ 32 - 8 := by omega
    rw [if_neg]
    rw [hbytes₂, Buffer.grow_bytes hgrow, hbytes, List.nil_append, hsize₂, hsize₁, hwrapped]
    omega

/-- Decoding what the loop reads. -/
theorem decode_of_loop {it : ℕ → UInt8} {size : ℕ} {data : Bytes} (hsize : size < 2 ^ 32)
    (hloop : decodeLoop it size = some data) (hle : data.length ≤ 3 * (size / 4) + 3)
    (hge : 3 * (size / 4) ≤ data.length + 3) :
    decode it size = if Roomy (size / 4) then some data else none := by
  have hbig : aligned (3 * (size / 4)) < 2 ^ 32 := (aligned_lt _).trans_le (by omega)
  have hroom := room_eq hbig hle hge
  obtain ⟨hsize₀, hwant⟩ := sizes_of_length hsize
  simp only [decode, hsize₀, hwant, hloop, Option.bind_eq_bind, Option.bind_some]
  exact hroom

/-- Decoding `n` groups. -/
theorem decode_eq {it : ℕ → UInt8} {n : ℕ} {data : Bytes} (hn : 4 * n + 12 ≤ 2 ^ 32)
    (hloop : decodeLoop it (4 * n) = some data) (hle : data.length ≤ 3 * n)
    (hge : 3 * n ≤ data.length + 2) : decode it (4 * n) = if Roomy n then some data else none := by
  have hdiv : 4 * n / 4 = n := Nat.mul_div_cancel_left n (by norm_num)
  have hdecode := decode_of_loop (by omega) hloop (by omega) (by omega)
  rwa [hdiv] at hdecode

/-- The byte strings that survive both: not the empty one, nor one too long for the
buffers. -/
def Survives (data : Bytes) : Prop :=
  data ≠ [] ∧ 4 * groups data + 12 ≤ 2 ^ 32 ∧ Roomy (groups data)

/-- **Decoding what was encoded**, whatever lies behind it in memory. -/
theorem decode_encode_iff (data : Bytes) (behind : ℕ → UInt8) :
    ((encode data).bind fun text => decode (stored text behind) text.length) = some data ↔
      Survives data := by
  rw [Survives, encode_eq]
  by_cases hroom : 4 * groups data + 12 ≤ 2 ^ 32
  · rw [if_pos hroom, Option.bind_some]
    rcases eq_or_ne data [] with rfl | hdata
    · refine iff_of_false (fun h => ?_) fun h => h.1 rfl
      obtain ⟨x, y, z, hloop⟩ := loop_nil behind
      have hnil := loop_of_decode h
      rw [show encodeText [] = [] from rfl, List.length_nil, hloop] at hnil
      cases hnil
    · have hloop := loop_encodeText behind hdata
      have hpos := List.length_pos_iff.mpr hdata
      rw [length_encodeText] at hloop ⊢
      have hgroups : 0 < groups data ∧ data.length ≤ 3 * groups data ∧
          3 * groups data ≤ data.length + 2 := by
        rw [groups]
        omega
      rw [decode_eq hroom hloop hgroups.2.1 hgroups.2.2, Option.ite_none_right_eq_some]
      simp only [and_true]
      exact ⟨fun h => ⟨hdata, hroom, h⟩, fun h => h.2.2⟩
  · rw [if_neg hroom, Option.bind_none]
    exact iff_of_false (by simp) fun h => hroom h.2.1

example : ((encode (ascii "12345")).bind fun text => decode (stored text fun _ => 7) text.length) =
    some (ascii "12345") := by decide +kernel

/-- The empty string comes back as three bytes. -/
theorem not_decode_encode :
    ((encode []).bind fun text => decode (stored text fun _ => 0) text.length) =
      some [4, 16, 64] := by decide +kernel

end Suil.Base64
