/-
The output buffer.

A `Buffer` is a pointer, the size of the memory behind it and an offset, the
last two held in 32 bits.  It grows by at least its own size whenever a write
does not fit; nothing in it looks at an overflow of that sum.  Here the bytes
before the offset are a list, and the memory that is really allocated is kept
beside the recorded size, so that a write outside it can be told.

* `new_eq_some` — a new buffer is sound and empty;
* `append_of_fits`, `append_of_grows` — a write that fits, now or after a
  growth below 2^32, adds its bytes;
* `append_wrapped` — past 2^32 nothing is written, except one byte into the
  spare byte behind the buffer, and `append_spent` — after that nothing is;
* `addHex_of_fits`, `addHex_of_grows`, `addHex_short` — hexadecimal text is written in full or not
  at all, and past 2^32 it is not.
-/
import Suil.Strings

namespace Suil

/-- `__ALIGN`: rounded up to a multiple of `sizeof(void*)`. -/
def aligned (n : ℕ) : ℕ := (n + 7) / 8 * 8

theorem le_aligned (n : ℕ) : n ≤ aligned n := by
  rw [aligned]
  omega

theorem aligned_lt (n : ℕ) : aligned n < n + 8 := by
  rw [aligned]
  omega

theorem dvd_aligned (n : ℕ) : 8 ∣ aligned n := Dvd.intro_left _ rfl

/-- `reallocate`: asked for less than the recorded size `os` it keeps the memory
it has. -/
def reallocate (memory os ns : ℕ) : Option ℕ :=
  if ns = 0 then none else some (if os > ns then memory else ns)

/-- `bytes` are the bytes before `m_offset`, `size` is `m_size`, and `memory`
the number of bytes behind `m_data`. -/
structure Buffer where
  bytes : Bytes
  size : ℕ
  memory : ℕ
  held : bytes.length ≤ memory

namespace Buffer

variable {b b' : Buffer} {d : Bytes} {n : ℕ}

/-- `m_size - m_offset`, in 32 bits. -/
def capacity (b : Buffer) : ℕ :=
  if b.bytes.length ≤ b.size then b.size - b.bytes.length else b.size + 2 ^ 32 - b.bytes.length

/-- `Buffer::grow`.  Like the calls below it is `none` when the call throws or
leaves the buffer's memory. -/
def grow (b : Buffer) (add : ℕ) : Option Buffer :=
  if add = 0 then some b
  else
    let add := aligned add % 2 ^ 32
    match reallocate b.memory b.size ((b.size + add + 1) % 2 ^ 32) with
    | none => none
    | some memory =>
      if h : b.bytes.length ≤ memory then some ⟨b.bytes, (b.size + add) % 2 ^ 32, memory, h⟩
      else none

/-- Bytes copied to the offset, which moves behind them. -/
def copyIn (b : Buffer) (d : Bytes) : Option Buffer :=
  if h : b.bytes.length + d.length ≤ b.memory then
    some ⟨b.bytes ++ d, b.size, b.memory, by rwa [List.length_append]⟩
  else none

/-- `Buffer::append`. -/
def append (b : Buffer) (d : Bytes) : Option Buffer :=
  let roomy := if b.capacity < d.length then b.grow (max b.size (d.length % 2 ^ 32)) else some b
  roomy.bind fun b => b.copyIn d

/-- `Buffer::reserve`. -/
def reserve (b : Buffer) (n : ℕ) : Option Buffer :=
  if b.capacity < n then b.grow (max b.size ((n - b.capacity) % 2 ^ 32)) else some b

/-- `hexstr` into the reserved memory, and `Buffer::seek` behind what it wrote. -/
def addHex (b : Buffer) (data : Bytes) : Option Buffer := do
  let b ← b.reserve (2 * data.length)
  let b ← b.copyIn (hexstr data b.capacity)
  if b.bytes.length ≤ b.size then some b else none

/-- The buffer made with room for `is` bytes. -/
def new (is : ℕ) : Option Buffer :=
  let b : Buffer := ⟨[], 0, 0, le_rfl⟩
  if is = 0 then some b else b.grow (is % 2 ^ 32)

/-- The state between calls: the bytes are within the size, and one spare byte is
behind it. -/
structure Sound (b : Buffer) : Prop where
  within : b.bytes.length ≤ b.size
  aligned : 8 ∣ b.size
  size_lt : b.size < 2 ^ 32
  spare : b.memory = b.size + 1 ∨ b.size = 0 ∧ b.memory = 0

/-- The state after a growth past 2^32 whose write took the spare byte. -/
structure Spent (b : Buffer) : Prop where
  outside : b.size < b.bytes.length
  full : b.memory = b.bytes.length
  length_lt : b.bytes.length < 2 ^ 32

/-- The size after a growth by `want` bytes, had it no bound. -/
def grown (size want : ℕ) : ℕ := size + Suil.aligned (max size want)

theorem Sound.capacity (h : b.Sound) : b.capacity = b.size - b.bytes.length :=
  if_pos h.within

theorem Spent.capacity (h : b.Spent) : b.capacity = b.size + 2 ^ 32 - b.bytes.length :=
  if_neg (not_le.mpr h.outside)

theorem copyIn_eq_some_iff :
    b.copyIn d = some b' ↔ b.bytes.length + d.length ≤ b.memory ∧
      b'.bytes = b.bytes ++ d ∧ b'.size = b.size ∧ b'.memory = b.memory := by
  obtain ⟨bytes, size, memory, held⟩ := b'
  rw [copyIn]
  split_ifs with hfits
  · simp only [Option.some.injEq, mk.injEq, hfits, true_and]
    exact ⟨fun ⟨h₁, h₂, h₃⟩ => ⟨h₁.symm, h₂.symm, h₃.symm⟩,
      fun ⟨h₁, h₂, h₃⟩ => ⟨h₁.symm, h₂.symm, h₃.symm⟩⟩
  · simp [hfits]

theorem exists_copyIn_iff :
    (∃ b', b.copyIn d = some b') ↔ b.bytes.length + d.length ≤ b.memory := by
  rw [copyIn]
  split_ifs with hfits <;> simp [hfits]

theorem grow_bytes (h : b.grow n = some b') : b'.bytes = b.bytes := by
  rw [grow] at h
  split_ifs at h
  · rw [Option.some.inj h]
  · simp only at h
    split at h
    · cases h
    · split_ifs at h
      rw [← Option.some.inj h]

/-- A growth changes nothing or leaves a 32-bit size. -/
theorem grow_bounds (h : b.grow n = some b') :
    b' = b ∨ b'.size < 2 ^ 32 ∧ (b'.memory = b.memory ∨ b'.memory < 2 ^ 32) := by
  rw [grow] at h
  split_ifs at h
  · exact Or.inl (Option.some.inj h).symm
  · simp only at h
    split at h
    · cases h
    · next memory hmem =>
      split_ifs at h
      obtain rfl := Option.some.inj h
      refine Or.inr ⟨Nat.mod_lt _ (by decide), ?_⟩
      rw [reallocate] at hmem
      split_ifs at hmem
      · exact Or.inl (Option.some.inj hmem).symm
      · exact Or.inr (Option.some.inj hmem ▸ Nat.mod_lt _ (by decide))

/-- The size after a growth is the sum in 32 bits. -/
theorem grow_size (h : b.grow n = some b') (hn : 0 < n) :
    b'.size = (b.size + Suil.aligned n % 2 ^ 32) % 2 ^ 32 := by
  rw [grow, if_neg (by omega)] at h
  simp only at h
  split at h
  · cases h
  · split_ifs at h
    rw [← Option.some.inj h]

/-- A growth that stays below 2^32. -/
theorem Sound.grow_ok (h : b.Sound) (hn : 0 < n) (hlt : b.size + Suil.aligned n < 2 ^ 32) :
    ∃ b', b.grow n = some b' ∧ b'.bytes = b.bytes ∧
      b'.size = b.size + Suil.aligned n ∧ b'.Sound := by
  have hwithin := h.within
  have hdvd := dvd_add h.aligned (dvd_aligned n)
  have hpos := le_aligned n
  have hns : (b.size + Suil.aligned n + 1) % 2 ^ 32 = b.size + Suil.aligned n + 1 :=
    Nat.mod_eq_of_lt (by omega)
  have hmem : reallocate b.memory b.size (b.size + Suil.aligned n + 1)
      = some (b.size + Suil.aligned n + 1) := by
    rw [reallocate, if_neg (by omega), if_neg (by omega)]
  refine ⟨⟨b.bytes, b.size + Suil.aligned n, b.size + Suil.aligned n + 1, by omega⟩, ?_, rfl,
    rfl, ⟨by simp only; omega, hdvd, hlt, Or.inl rfl⟩⟩
  rw [grow, if_neg (by omega)]
  simp only [Nat.mod_eq_of_lt (show Suil.aligned n < 2 ^ 32 by omega), hns, hmem,
    Nat.mod_eq_of_lt hlt]
  rw [dif_pos (by omega)]

/-- A growth past 2^32 lowers the recorded size and keeps the memory. -/
theorem Sound.grow_wrapped (h : b.Sound) (hn : 0 < n) (hn32 : n < 2 ^ 32)
    (hwrap : 2 ^ 32 ≤ b.size + Suil.aligned n) :
    ∃ b', b.grow n = some b' ∧ b'.bytes = b.bytes ∧ b'.size ≤ b.size ∧
      b'.memory = b.size + 1 := by
  have hwithin := h.within
  have hsize := h.size_lt
  obtain ⟨k, hk⟩ := h.aligned
  have hle := le_aligned n
  have htop : Suil.aligned n ≤ 2 ^ 32 := by
    rw [Suil.aligned]
    omega
  have hsum : (b.size + Suil.aligned n % 2 ^ 32) % 2 ^ 32 ≤ b.size := by omega
  have hmem : reallocate b.memory b.size ((b.size + Suil.aligned n % 2 ^ 32 + 1) % 2 ^ 32)
      = some (b.size + 1) := by
    obtain ⟨j, hj⟩ := dvd_aligned n
    rw [reallocate, if_neg (by omega)]
    rcases htop.eq_or_lt with htop | htop
    · rw [if_neg (by omega)]
      congr 1
      omega
    · rw [if_pos (by omega)]
      rcases h.spare with hspare | ⟨hzero, -⟩
      · rw [hspare]
      · omega
  refine ⟨⟨b.bytes, (b.size + Suil.aligned n % 2 ^ 32) % 2 ^ 32, b.size + 1, by omega⟩, ?_, rfl,
    hsum, rfl⟩
  rw [grow, if_neg (by omega)]
  simp only [hmem]
  rw [dif_pos (by omega)]

theorem append_bytes (h : b.append d = some b') : b'.bytes = b.bytes ++ d := by
  obtain ⟨b₁, hroomy, hcopy⟩ := Option.bind_eq_some_iff.mp h
  have hbytes : b₁.bytes = b.bytes := by
    split_ifs at hroomy
    · exact grow_bytes hroomy
    · rw [Option.some.inj hroomy]
  rw [(copyIn_eq_some_iff.mp hcopy).2.1, hbytes]

theorem reserve_bytes (h : b.reserve n = some b') : b'.bytes = b.bytes := by
  rw [reserve] at h
  split_ifs at h
  · exact grow_bytes h
  · rw [Option.some.inj h]

/-- Bytes that fit are copied in, and a sound buffer stays sound. -/
theorem Sound.copyIn (h : b.Sound) (hfits : b.bytes.length + d.length ≤ b.size) :
    ∃ b', b.copyIn d = some b' ∧ b'.bytes = b.bytes ++ d ∧ b'.size = b.size ∧ b'.Sound := by
  have hmem : b.bytes.length + d.length ≤ b.memory := by
    rcases h.spare with hspare | hspare <;> omega
  obtain ⟨b', hb'⟩ := exists_copyIn_iff.mpr hmem
  obtain ⟨-, hbytes, hsize, hmemory⟩ := copyIn_eq_some_iff.mp hb'
  refine ⟨b', hb', hbytes, hsize, ⟨?_, hsize ▸ h.aligned, hsize ▸ h.size_lt, ?_⟩⟩
  · rwa [hbytes, hsize, List.length_append]
  · rw [hsize, hmemory]
    exact h.spare

theorem append_of_fits (h : b.Sound) (hfits : b.bytes.length + d.length ≤ b.size) :
    ∃ b', b.append d = some b' ∧ b'.bytes = b.bytes ++ d ∧ b'.size = b.size ∧ b'.Sound := by
  rw [append, if_neg (by rw [h.capacity]; omega)]
  exact h.copyIn hfits

theorem append_of_grows (h : b.Sound) (hfull : b.size < b.bytes.length + d.length)
    (hlt : grown b.size d.length < 2 ^ 32) :
    ∃ b', b.append d = some b' ∧ b'.bytes = b.bytes ++ d ∧
      b'.size = grown b.size d.length ∧ b'.Sound := by
  have hwithin := h.within
  have hlen := le_aligned (max b.size d.length)
  rw [grown] at hlt ⊢
  obtain ⟨b₁, hgrow, hbytes, hsize, hsound⟩ :=
    h.grow_ok (n := max b.size d.length) (by omega) hlt
  rw [append, if_pos (by rw [h.capacity]; omega),
    Nat.mod_eq_of_lt (show d.length < 2 ^ 32 by omega), hgrow, ← hbytes, ← hsize]
  exact hsound.copyIn (by rw [hbytes, hsize]; omega)

/-- Past 2^32 an append succeeds only where it ends on the spare byte. -/
theorem append_wrapped (h : b.Sound) (hfull : b.size < b.bytes.length + d.length)
    (hwrap : 2 ^ 32 ≤ grown b.size d.length) :
    (∀ b', b.append d = some b' → b'.Spent) ∧
      ((∃ b', b.append d = some b') ↔ b.bytes.length + d.length = b.size + 1) := by
  have hwithin := h.within
  have hsize := h.size_lt
  obtain ⟨k, hk⟩ := h.aligned
  rw [grown] at hwrap
  rw [append, if_pos (by rw [h.capacity]; omega)]
  rcases lt_or_ge d.length (2 ^ 32) with h32 | h32
  · rw [Nat.mod_eq_of_lt h32]
    obtain ⟨b₁, hgrow, hbytes, hlow, hmem⟩ :=
      h.grow_wrapped (n := max b.size d.length) (by omega) (by omega) hwrap
    rw [hgrow, Option.bind_some]
    constructor
    · intro b' hcopy
      obtain ⟨hroom, hb', hs', hm'⟩ := copyIn_eq_some_iff.mp hcopy
      rw [hbytes, hmem] at hroom
      refine ⟨?_, ?_, ?_⟩
      · rw [hb', hs', hbytes, List.length_append]
        omega
      · rw [hm', hmem, hb', hbytes, List.length_append]
        omega
      · rw [hb', hbytes, List.length_append]
        omega
    · rw [exists_copyIn_iff, hbytes, hmem]
      omega
  · -- more than 32 bits of bytes never fit the memory of any growth
    have hnone : ∀ b', (b.grow (max b.size (d.length % 2 ^ 32))).bind
        (fun b => b.copyIn d) ≠ some b' := by
      intro b' hb'
      obtain ⟨b₁, hgrow, hcopy⟩ := Option.bind_eq_some_iff.mp hb'
      have hroom := (copyIn_eq_some_iff.mp hcopy).1
      have hspare : b.memory ≤ b.size + 1 := by
        rcases h.spare with hspare | hspare <;> omega
      rcases grow_bounds hgrow with rfl | ⟨-, hmem | hmem⟩ <;> omega
    exact ⟨fun b' hb' => absurd hb' (hnone b'), iff_of_false (fun ⟨b', hb'⟩ => hnone b' hb')
      (by omega)⟩

/-- Behind the spare byte nothing can be appended. -/
theorem append_spent (h : b.Spent) (hd : d ≠ []) : b.append d ≠ some b' := by
  intro hb'
  have hpos := List.length_pos_iff.mpr hd
  have houtside := h.outside
  have hmemory := h.full
  have hlen := h.length_lt
  obtain ⟨b₁, hroomy, hcopy⟩ := Option.bind_eq_some_iff.mp hb'
  have hroom := (copyIn_eq_some_iff.mp hcopy).1
  rw [h.capacity] at hroomy
  split_ifs at hroomy
  · rw [grow_bytes hroomy] at hroom
    rcases grow_bounds hroomy with rfl | ⟨-, hmem | hmem⟩ <;> omega
  · rw [← Option.some.inj hroomy] at hroom
    omega

/-- Hexadecimal text is written in full or not at all. -/
theorem addHex_bytes (h : b.addHex d = some b') :
    b'.bytes = b.bytes ++ hexText d ∧ b'.bytes.length ≤ b'.size ∨
      b'.bytes.length < b.bytes.length + 2 * d.length := by
  obtain ⟨b₁, hreserve, h⟩ := Option.bind_eq_some_iff.mp h
  obtain ⟨b₂, hcopy, h⟩ := Option.bind_eq_some_iff.mp h
  rw [Option.ite_none_right_eq_some] at h
  obtain ⟨hseek, h⟩ := h
  obtain rfl := Option.some.inj h
  have hbytes := (copyIn_eq_some_iff.mp hcopy).2.1
  rw [reserve_bytes hreserve, hexstr_eq] at hbytes
  split_ifs at hbytes with hsmall
  · right
    rw [hbytes, List.append_nil]
    omega
  · exact Or.inl ⟨hbytes, hseek⟩

theorem addHex_of_fits (h : b.Sound) (hfits : b.bytes.length + 2 * d.length ≤ b.size) :
    ∃ b', b.addHex d = some b' ∧ b'.bytes = b.bytes ++ hexText d ∧ b'.size = b.size ∧
      b'.Sound := by
  have hlen := length_hexText d
  obtain ⟨b', hcopy, hbytes, hsize, hsound⟩ := h.copyIn (d := hexText d) (by omega)
  refine ⟨b', ?_, hbytes, hsize, hsound⟩
  have hcap := h.capacity
  rw [addHex, reserve, if_neg (by omega), Option.bind_eq_bind, Option.bind_some, hexstr_eq,
    if_neg (by omega), hcopy, Option.bind_some, if_pos hsound.within]

theorem addHex_of_grows (h : b.Sound) (hfull : b.size < b.bytes.length + 2 * d.length)
    (hlt : grown b.size (2 * d.length - (b.size - b.bytes.length)) < 2 ^ 32) :
    ∃ b', b.addHex d = some b' ∧ b'.bytes = b.bytes ++ hexText d ∧
      b'.size = grown b.size (2 * d.length - (b.size - b.bytes.length)) ∧ b'.Sound := by
  set want := 2 * d.length - (b.size - b.bytes.length) with hwant
  have hwithin := h.within
  have hlen := le_aligned (max b.size want)
  rw [grown] at hlt ⊢
  obtain ⟨b₁, hgrow, hbytes, hsize, hsound⟩ := h.grow_ok (n := max b.size want) (by omega) hlt
  obtain ⟨b', hadd, hbytes', hsize', hsound'⟩ :=
    addHex_of_fits (d := d) hsound (by rw [hbytes, hsize]; omega)
  refine ⟨b', ?_, by rw [hbytes', hbytes], by rw [hsize', hsize], hsound'⟩
  have hcap := hsound.capacity
  rw [addHex, reserve, if_neg (by rw [hcap, hbytes, hsize]; omega)] at hadd
  rw [addHex, reserve, h.capacity, if_pos (by omega), ← hwant,
    Nat.mod_eq_of_lt (show want < 2 ^ 32 by omega), hgrow]
  exact hadd

/-- Past 2^32 the text is never written in full. -/
theorem addHex_short (hb : b.Spent ∨ b.Sound ∧ b.size < b.bytes.length + 2 * d.length ∧
      2 ^ 32 ≤ grown b.size (2 * d.length - (b.size - b.bytes.length)))
    (h : b.addHex d = some b') : b'.bytes.length < b.bytes.length + 2 * d.length := by
  rcases addHex_bytes h with ⟨hfull, hseek⟩ | hshort
  · obtain ⟨b₁, hreserve, h⟩ := Option.bind_eq_some_iff.mp h
    obtain ⟨b₂, hcopy, h⟩ := Option.bind_eq_some_iff.mp h
    rw [Option.ite_none_right_eq_some] at h
    obtain rfl := Option.some.inj h.2
    rw [(copyIn_eq_some_iff.mp hcopy).2.2.1, hfull, List.length_append, length_hexText] at hseek
    rw [reserve] at hreserve
    -- the size after the growth is below the end of the text
    rcases hb with hspent | ⟨hsound, hover, hwrap⟩
    · have houtside := hspent.outside
      rw [hspent.capacity] at hreserve
      split_ifs at hreserve with hroom
      · rcases grow_bounds hreserve with rfl | ⟨hlt, -⟩ <;> omega
      · obtain rfl := Option.some.inj hreserve
        omega
    · have hwithin := hsound.within
      set want := 2 * d.length - (b.size - b.bytes.length)
      rw [hsound.capacity, if_pos (by omega)] at hreserve
      rcases lt_or_ge want (2 ^ 32) with h32 | h32
      · rw [Nat.mod_eq_of_lt h32] at hreserve
        have hsize := hsound.size_lt
        obtain ⟨b₃, hgrow, -, hlow, -⟩ :=
          hsound.grow_wrapped (n := max b.size want) (by omega) (by omega) hwrap
        rw [hgrow] at hreserve
        obtain rfl := Option.some.inj hreserve
        omega
      · rcases grow_bounds hreserve with rfl | ⟨hlt, -⟩ <;> omega
  · exact hshort

theorem new_eq_some (is : ℕ) :
    ∃ b, new is = some b ∧ b.bytes = [] ∧ b.size = Suil.aligned (is % 2 ^ 32) % 2 ^ 32 ∧
      b.Sound := by
  have hempty : (⟨[], 0, 0, le_rfl⟩ : Buffer).Sound :=
    ⟨le_rfl, dvd_zero 8, by decide, Or.inr ⟨rfl, rfl⟩⟩
  have hnew : new is = (⟨[], 0, 0, le_rfl⟩ : Buffer).grow (is % 2 ^ 32) := by
    rw [new]
    split_ifs with hzero
    · rw [hzero]
      rfl
    · rfl
  rw [hnew]
  have hlt := Nat.mod_lt is (show 0 < 2 ^ 32 by decide)
  rcases Nat.eq_zero_or_pos (is % 2 ^ 32) with hzero | hpos
  · rw [hzero]
    exact ⟨_, rfl, rfl, rfl, hempty⟩
  · rcases lt_or_ge (Suil.aligned (is % 2 ^ 32)) (2 ^ 32) with hsmall | hbig
    · obtain ⟨b, hgrow, hbytes, hsize, hsound⟩ := hempty.grow_ok hpos (by simpa using hsmall)
      refine ⟨b, hgrow, hbytes, ?_, hsound⟩
      rw [hsize, Nat.mod_eq_of_lt hsmall]
      exact Nat.zero_add _
    · obtain ⟨b, hgrow, hbytes, hsize, hmem⟩ :=
        hempty.grow_wrapped hpos hlt (by simpa using hbig)
      have hzero : b.size = 0 := Nat.le_zero.mp hsize
      refine ⟨b, hgrow, hbytes, ?_, ⟨?_, ?_, ?_, ?_⟩⟩
      · rw [hzero, Suil.aligned]
        rw [Suil.aligned] at hbig
        omega
      · rw [hbytes]
        exact Nat.zero_le _
      · rw [hzero]
        exact dvd_zero 8
      · rw [hzero]
        decide
      · exact Or.inl (by rw [hmem, hzero])

end Buffer
end Suil
