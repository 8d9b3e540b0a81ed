/-
A file read into memory (`FileServer::readFile`).

A small file is read into a buffer whose offset stays zero: behind a short read the index of
the next one is refused by an exception, and `isReloading` stays set.  A read of nothing is
tried again without end, so a file that shrank is never finished.

* `readLoop_idle` — the turns that read nothing;
* `heaps_of_last`, `last_of_heaps` — the loop through the first turn that reads something;
* `readFile_iff` — the files that are read, and those that are given up with the flag cleared.
-/
import Suil.Buffer

namespace Suil

namespace FileReading

/-- What a call of `read` for `count` bytes returns; after EAGAIN, whether `fdwait` finds the
file readable. -/
inductive Read (count : ℕ) where
  | bytes (bs : { bs : Bytes // bs.length ≤ count })
  | again (readable : Bool)
  | failed

/-- What `data` points to. -/
inductive Data where
  | heap (bs : Bytes)
  | mapped (totalSize : ℕ)
  | mapFailed

structure CachedFile where
  fd : ℤ
  data : Option Data := none
  size : ℕ := 0
  isMapped : Bool := false
  isReloading : Bool := false

/-- What the system does: whether `mmap` maps, whether memory for the buffer is given, whether
warnings are logged, and the result of each turn's `read`. -/
structure World where
  pagesize : ℕ
  maps : Bool
  allocates : Bool
  warns : Bool
  read : ℕ → (count : ℕ) → Read count

inductive Thrown where
  | IndexOutOfBounds
  | MemoryAllocationFailure
  | OutOfRange
deriving DecidableEq, Repr

/-- The loop of `readFile`, with so many turns to go; none when they do not suffice.  `got` is
what was read so far, and lies at the front of the buffer.  The warnings hand the descriptor to
a `%s`. -/
def readLoop (w : World) (b : Buffer) (toRead turn : ℕ) : ℕ → Bytes → Option (Call Thrown Bytes)
  | 0, _ => none
  | turns + 1, got =>
    -- Buffer::operator[]
    if b.bytes.length < got.length then some (.error (.raised .IndexOutOfBounds))
    else
      match w.read turn (toRead - got.length) with
      | .failed => some (if w.warns then .error .crash else .ok got)
      | .again readable =>
        if readable then
          if got.length < toRead then readLoop w b toRead (turn + 1) turns got else some (.ok got)
        else some (if w.warns then .error .crash else .ok got)
      | .bytes bs =>
        if b.memory < got.length + bs.1.length then some (.error .crash)
        else if (got ++ bs.1).length < toRead then
          readLoop w b toRead (turn + 1) turns (got ++ bs.1)
        else some (.ok (got ++ bs.1))

/-- Behind the loop: the flag is cleared unless an exception leaves. -/
def finish (cf : CachedFile) (b : Buffer) (toRead : ℕ) :
    Call Thrown Bytes → Call Thrown (Bool × Bytes) × CachedFile
  | .error e => (.error e, cf)
  | .ok got =>
    if got.length = toRead then
      -- Buffer::seek
      if b.size < got.length then (.error (.raised .OutOfRange), cf)
      else
        (.ok (true, got), { cf with
          data := some (.heap got), size := toRead + 8, isMapped := false, isReloading := false })
    else (.ok (false, got), { cf with isReloading := false })

/-- `FileServer::readFile`, in so many turns of its loop.  Beside what it returns stands what
the calls of `read` gave.  A size is below 2^63, so no sum here overflows. -/
def readFile (mappedMin : ℕ) (w : World) (turns : ℕ) (cf : CachedFile) (st_size : ℕ) :
    Option (Call Thrown (Bool × Bytes) × CachedFile) :=
  if cf.fd < 0 then some (.ok (false, []), cf)
  else if mappedMin < st_size then
    let totalSize := st_size + (w.pagesize - st_size % w.pagesize)
    if w.maps then
      some (.ok (true, []),
        { cf with data := some (.mapped totalSize), isMapped := true, size := totalSize })
    else some (.ok (false, []), { cf with data := some .mapFailed })
  else
    let cf := { cf with isReloading := true }
    match (if w.allocates then Buffer.new (st_size + 8) else none) with
    | none => some (.error (.raised .MemoryAllocationFailure), cf)
    | some b => (readLoop w b st_size 0 turns []).map (finish cf b st_size)

/-! ### What should be done -/

/-- All bytes of the file are in `data`: a mapping of its size, or what was read. -/
def Stored (mappedMin : ℕ) (fd : ℤ) (st_size : ℕ) (got : Bytes) (cf : CachedFile) : Prop :=
  0 ≤ fd ∧
    if mappedMin < st_size then ∃ n, st_size ≤ n ∧ cf.data = some (.mapped n)
    else got.length = st_size ∧ cf.data = some (.heap got)

/-- **What is promised**: the call comes to an end, by a return or an exception; it returns true
exactly when the file is stored; and the flag is clear. -/
def Loads (mappedMin : ℕ) (w : World) (cf : CachedFile) (st_size : ℕ) : Prop :=
  ∃ turns result cf', readFile mappedMin w turns cf st_size = some (result, cf') ∧
    result ≠ .error .crash ∧
    (∀ b got, result = .ok (b, got) → (b = true ↔ Stored mappedMin cf.fd st_size got cf')) ∧
    cf'.isReloading = false

/-- Nothing was read, and the code reads again. -/
def Read.Idle {count : ℕ} : Read count → Prop
  | .bytes bs => bs.1 = []
  | .again readable => readable = true
  | .failed => False

/-- The loop is left as it should: with all bytes in a buffer that holds them, or with an error
that no warning tells of. -/
def Read.Last (w : World) {count : ℕ} : Read count → Prop
  | .bytes bs => bs.1.length = count ∧ count + 16 ≤ 2 ^ 32
  | .again readable => if readable then count = 0 else w.warns = false
  | .failed => w.warns = false

/-- The first turn that reads something reads all, or fails without a warning. -/
def AtOnce (w : World) (st_size : ℕ) : Prop :=
  ∃ n, (∀ m < n, (w.read m st_size).Idle) ∧ (w.read n st_size).Last w

/-- The descriptor is closed or the file is mapped, and the flag was clear; or there is memory for
the buffer, and the file is read at once. -/
def Fine (mappedMin : ℕ) (w : World) (cf : CachedFile) (st_size : ℕ) : Prop :=
  if cf.fd < 0 ∨ mappedMin < st_size then cf.isReloading = false
  else w.allocates = true ∧ AtOnce w st_size

/-! ### The buffer -/

/-- The buffer has no offset, and holds the file if its size leaves 32 bits by less than 16. -/
theorem new_holds (st_size : ℕ) :
    ∃ b, Buffer.new (st_size + 8) = some b ∧ b.bytes = [] ∧ b.size ≤ b.memory ∧
      (st_size ≤ b.size ↔ st_size + 16 ≤ 2 ^ 32) := by
  obtain ⟨b, hnew, hbytes, hsize, hsound⟩ := Buffer.new_eq_some (st_size + 8)
  refine ⟨b, hnew, hbytes, ?_, ?_⟩
  · rcases hsound.spare with hspare | ⟨hzero, -⟩ <;> omega
  · rw [hsize, aligned]
    omega

/-! ### The loop -/

variable {w : World} {b : Buffer} {st_size turn turns : ℕ} {got : Bytes}

theorem readLoop_failed (h : w.read turn st_size = .failed) :
    readLoop w b st_size turn (turns + 1) [] =
      some (if w.warns then .error .crash else .ok []) := by
  have hread : w.read turn (st_size - ([] : Bytes).length) = .failed := h
  rw [readLoop, if_neg (by simp), hread]

theorem readLoop_again {readable : Bool} (h : w.read turn st_size = .again readable) :
    readLoop w b st_size turn (turns + 1) [] =
      if readable then
        if 0 < st_size then readLoop w b st_size (turn + 1) turns [] else some (.ok [])
      else some (if w.warns then .error .crash else .ok []) := by
  have hread : w.read turn (st_size - ([] : Bytes).length) = .again readable := h
  rw [readLoop, if_neg (by simp), hread]
  rfl

theorem readLoop_bytes {bs : { bs : Bytes // bs.length ≤ st_size }}
    (h : w.read turn st_size = .bytes bs) :
    readLoop w b st_size turn (turns + 1) [] =
      if b.memory < bs.1.length then some (.error .crash)
      else if bs.1.length < st_size then readLoop w b st_size (turn + 1) turns bs.1
      else some (.ok bs.1) := by
  have hread : w.read turn (st_size - ([] : Bytes).length) = .bytes bs := h
  rw [readLoop, if_neg (by simp), hread]
  simp only [List.length_nil, Nat.zero_add, List.nil_append]

/-- **After a short read** there is no further one. -/
theorem readLoop_short (hb : b.bytes = []) (hgot : got ≠ []) {result : Bytes} :
    readLoop w b st_size turn turns got ≠ some (.ok result) := by
  cases turns with
  | zero => simp [readLoop]
  | succ turns =>
    rw [readLoop, if_pos (by simpa [hb, List.length_pos_iff] using hgot)]
    simp

theorem readLoop_idle_step (hpos : 0 < st_size) (h : (w.read turn st_size).Idle) :
    readLoop w b st_size turn (turns + 1) [] = readLoop w b st_size (turn + 1) turns [] := by
  cases hread : w.read turn st_size with
  | bytes bs =>
    rw [hread] at h
    have hnil : bs.1 = [] := h
    rw [readLoop_bytes hread, hnil, if_neg (by simp), if_pos (by simpa using hpos)]
  | again readable =>
    rw [hread] at h
    have hreadable : readable = true := h
    rw [readLoop_again hread, if_pos hreadable, if_pos hpos]
  | failed =>
    rw [hread] at h
    exact absurd h id

/-- The turns that read nothing. -/
theorem readLoop_idle (hpos : 0 < st_size) {n : ℕ}
    (h : ∀ m < n, (w.read (turn + m) st_size).Idle) :
    readLoop w b st_size turn (n + turns) [] = readLoop w b st_size (turn + n) turns [] := by
  induction n generalizing turn with
  | zero => rw [Nat.zero_add, Nat.add_zero]
  | succ n ih =>
    have hrest : ∀ m < n, (w.read (turn + 1 + m) st_size).Idle := by
      intro m hm
      rw [Nat.add_assoc, Nat.add_comm 1 m]
      exact h (m + 1) (by omega)
    have hfirst : (w.read turn st_size).Idle := h 0 n.succ_pos
    rw [Nat.add_right_comm, readLoop_idle_step hpos hfirst, ih hrest, Nat.add_assoc,
      Nat.add_comm 1 n]

/-- **A file that shrank**: when each further turn reads nothing, the loop has no end. -/
theorem readLoop_endless (hpos : 0 < st_size) (h : ∀ m, (w.read (turn + m) st_size).Idle) :
    readLoop w b st_size turn turns [] = none := by
  rw [← Nat.add_zero turns, readLoop_idle hpos fun m _ => h m]
  rfl

/-- Of an empty file the first turn is the last one. -/
theorem last_of_idle {r : Read 0} (h : r.Idle) : r.Last w := by
  cases r with
  | bytes bs => exact ⟨Nat.le_zero.mp bs.2, by decide⟩
  | again readable =>
    have hreadable : readable = true := h
    rw [hreadable]
    exact rfl
  | failed => exact absurd h id

/-- The last turn. -/
theorem readLoop_last (hsize : b.size ≤ b.memory)
    (hfits : st_size ≤ b.size ↔ st_size + 16 ≤ 2 ^ 32) (h : (w.read turn st_size).Last w) :
    ∃ got, readLoop w b st_size turn 1 [] = some (.ok got) ∧
      (got.length = st_size → st_size ≤ b.size) := by
  have hnil : ([] : Bytes).length = st_size → st_size ≤ b.size := by
    intro hzero
    rw [← hzero]
    exact Nat.zero_le b.size
  cases hread : w.read turn st_size with
  | bytes bs =>
    rw [hread] at h
    obtain ⟨hlen, hbound⟩ := h
    have hheld := hfits.mpr hbound
    refine ⟨bs.1, ?_, fun _ => hheld⟩
    rw [readLoop_bytes hread, if_neg (by omega), if_neg (by omega)]
  | again readable =>
    rw [hread] at h
    refine ⟨[], ?_, hnil⟩
    rw [readLoop_again hread]
    cases readable with
    | true =>
      have hzero : st_size = 0 := h
      rw [if_pos rfl, if_neg (by omega)]
    | false =>
      have hquiet : w.warns = false := h
      rw [if_neg (by simp), hquiet]
      rfl
  | failed =>
    rw [hread] at h
    have hquiet : w.warns = false := h
    refine ⟨[], ?_, hnil⟩
    rw [readLoop_failed hread, hquiet]
    rfl

/-- A loop that was left as it should read nothing before its last turn. -/
theorem last_of_readLoop (hb : b.bytes = [])
    (hfits : st_size ≤ b.size ↔ st_size + 16 ≤ 2 ^ 32)
    (h : readLoop w b st_size turn turns [] = some (.ok got))
    (hheld : got.length = st_size → st_size ≤ b.size) :
    ∃ n, (∀ m < n, (w.read (turn + m) st_size).Idle) ∧ (w.read (turn + n) st_size).Last w := by
  induction turns generalizing turn with
  | zero => simp [readLoop] at h
  | succ turns ih =>
    -- one more turn before those of the induction hypothesis
    have hnext : (w.read turn st_size).Idle → readLoop w b st_size (turn + 1) turns [] =
        some (.ok got) → ∃ n, (∀ m < n, (w.read (turn + m) st_size).Idle) ∧
          (w.read (turn + n) st_size).Last w := by
      intro hidle hrest
      obtain ⟨n, hn, hlast⟩ := ih hrest
      refine ⟨n + 1, fun m hm => ?_, ?_⟩
      · cases m with
        | zero => exact hidle
        | succ m =>
          rw [Nat.add_comm m 1, ← Nat.add_assoc]
          exact hn m (by omega)
      · rw [Nat.add_comm n 1, ← Nat.add_assoc]
        exact hlast
    have hhere : (w.read turn st_size).Last w → ∃ n, (∀ m < n, (w.read (turn + m) st_size).Idle) ∧
        (w.read (turn + n) st_size).Last w :=
      fun hlast => ⟨0, fun m hm => absurd hm m.not_lt_zero, hlast⟩
    -- this turn reads nothing, or is the last one
    cases hread : w.read turn st_size with
    | bytes bs =>
      rw [hread] at hnext hhere
      rw [readLoop_bytes hread] at h
      split_ifs at h with hmem hshort
      · exact absurd h (by simp)
      · by_cases hnil : bs.1 = []
        · rw [hnil] at h
          exact hnext hnil h
        · exact absurd h (readLoop_short hb hnil)
      · have hgot : bs.1 = got := by simpa using h
        have hlen : bs.1.length = st_size := le_antisymm bs.2 (not_lt.mp hshort)
        exact hhere ⟨hlen, hfits.mp (hheld (hgot ▸ hlen))⟩
    | again readable =>
      rw [hread] at hnext hhere
      rw [readLoop_again hread] at h
      cases readable with
      | true =>
        rw [if_pos rfl] at h
        by_cases hpos : 0 < st_size
        · rw [if_pos hpos] at h
          exact hnext rfl h
        · exact hhere (Nat.eq_zero_of_not_pos hpos)
      | false =>
        rw [if_neg (by simp)] at h
        refine hhere ?_
        by_contra hwarns
        rw [if_pos (by simpa [Read.Last] using hwarns)] at h
        exact absurd h (by simp)
    | failed =>
      rw [hread] at hhere
      rw [readLoop_failed hread] at h
      refine hhere ?_
      by_contra hwarns
      rw [if_pos (by simpa [Read.Last] using hwarns)] at h
      exact absurd h (by simp)

/-- **The loop** is left with nothing or with the whole file exactly when it is read at once. -/
theorem readLoop_iff (hb : b.bytes = []) (hsize : b.size ≤ b.memory)
    (hfits : st_size ≤ b.size ↔ st_size + 16 ≤ 2 ^ 32) :
    (∃ turns got, readLoop w b st_size 0 turns [] = some (.ok got) ∧
      (got.length = st_size → st_size ≤ b.size)) ↔ AtOnce w st_size := by
  constructor
  · rintro ⟨turns, got, h, hheld⟩
    obtain ⟨n, hidle, hlast⟩ := last_of_readLoop hb hfits h hheld
    simp only [Nat.zero_add] at hidle hlast
    exact ⟨n, hidle, hlast⟩
  · rintro ⟨n, hidle, hlast⟩
    rcases Nat.eq_zero_or_pos st_size with hzero | hpos
    · -- the loop tests behind its body, so that there is one turn
      have hfirst : (w.read 0 st_size).Last w := by
        rcases Nat.eq_zero_or_pos n with hn | hn
        · rwa [hn] at hlast
        · subst hzero
          exact last_of_idle (hidle 0 hn)
      obtain ⟨got, hloop, hheld⟩ := readLoop_last hsize hfits hfirst
      exact ⟨1, got, hloop, hheld⟩
    · obtain ⟨got, hloop, hheld⟩ := readLoop_last hsize hfits hlast
      refine ⟨n + 1, got, ?_, hheld⟩
      rw [readLoop_idle hpos (by simpa only [Nat.zero_add] using hidle), Nat.zero_add, hloop]

/-! ### Files -/

/-- What is promised of a way out. -/
theorem finish_iff {mappedMin : ℕ} (b : Buffer) (cf : CachedFile) (result : Call Thrown Bytes)
    (hfd : 0 ≤ cf.fd) (hsmall : ¬mappedMin < st_size) (hflag : cf.isReloading = true) :
    ((finish cf b st_size result).1 ≠ .error .crash ∧
      (∀ v got, (finish cf b st_size result).1 = .ok (v, got) →
        (v = true ↔ Stored mappedMin cf.fd st_size got (finish cf b st_size result).2)) ∧
      (finish cf b st_size result).2.isReloading = false) ↔
      ∃ got, result = .ok got ∧ (got.length = st_size → st_size ≤ b.size) := by
  cases result with
  | error e =>
    refine iff_of_false ?_ (by simp)
    rintro ⟨-, -, hclear⟩
    exact absurd (hflag.symm.trans hclear) (by decide)
  | ok got =>
    simp only [finish]
    by_cases hlen : got.length = st_size
    · rw [if_pos hlen]
      by_cases hseek : b.size < got.length
      · rw [if_pos hseek]
        refine iff_of_false ?_ ?_
        · rintro ⟨-, -, hclear⟩
          exact absurd (hflag.symm.trans hclear) (by decide)
        · rintro ⟨got', heq, hheld⟩
          obtain rfl := Except.ok.inj heq
          have := hheld hlen
          omega
      · rw [if_neg hseek]
        refine iff_of_true ⟨by simp, ?_, rfl⟩ ⟨got, rfl, fun _ => by omega⟩
        rintro v got' heq
        obtain ⟨rfl, rfl⟩ := Prod.mk.inj (Except.ok.inj heq)
        rw [Stored, if_neg hsmall]
        simp [hfd, hlen]
    · rw [if_neg hlen]
      refine iff_of_true ⟨by simp, ?_, rfl⟩ ⟨got, rfl, fun h => absurd h hlen⟩
      rintro v got' heq
      obtain ⟨rfl, rfl⟩ := Prod.mk.inj (Except.ok.inj heq)
      rw [Stored, if_neg hsmall]
      simp [hlen]

variable {mappedMin : ℕ} {cf : CachedFile}

/-- A way out that leaves the flag as it is. -/
theorem loads_of_kept {v : Bool} {cf' : CachedFile}
    (h : ∀ turns, readFile mappedMin w turns cf st_size = some (.ok (v, []), cf'))
    (htold : v = true ↔ Stored mappedMin cf.fd st_size [] cf')
    (hkept : cf'.isReloading = cf.isReloading) :
    Loads mappedMin w cf st_size ↔ cf.isReloading = false := by
  constructor
  · rintro ⟨turns, result, cf'', heq, -, -, hclear⟩
    rw [h turns] at heq
    rw [← hkept, (Prod.mk.inj (Option.some.inj heq)).2]
    exact hclear
  · intro hclear
    refine ⟨0, .ok (v, []), cf', h 0, by simp, fun v' got heq => ?_, hkept.trans hclear⟩
    obtain ⟨rfl, rfl⟩ := Prod.mk.inj (Except.ok.inj heq)
    exact htold

theorem loads_closed (hfd : cf.fd < 0) :
    Loads mappedMin w cf st_size ↔ cf.isReloading = false := by
  refine loads_of_kept (fun turns => if_pos hfd) ?_ rfl
  exact iff_of_false (by simp) fun h => absurd hfd (not_lt.mpr h.1)

theorem loads_mapped (hfd : 0 ≤ cf.fd) (hmap : mappedMin < st_size) :
    Loads mappedMin w cf st_size ↔ cf.isReloading = false := by
  have hout : ∀ turns, readFile mappedMin w turns cf st_size =
      if w.maps then
        some (.ok (true, []), { cf with
          data := some (.mapped (st_size + (w.pagesize - st_size % w.pagesize))),
          isMapped := true, size := st_size + (w.pagesize - st_size % w.pagesize) })
      else some (.ok (false, []), { cf with data := some .mapFailed }) := by
    intro turns
    rw [readFile, if_neg (not_lt.mpr hfd), if_pos hmap]
  cases hmaps : w.maps with
  | true =>
    refine loads_of_kept (fun turns => (hout turns).trans (if_pos hmaps)) ?_ rfl
    rw [Stored, if_pos hmap]
    exact iff_of_true rfl ⟨hfd, _, Nat.le_add_right _ _, rfl⟩
  | false =>
    refine loads_of_kept (fun turns => (hout turns).trans (if_neg (by simp [hmaps]))) ?_ rfl
    rw [Stored, if_pos hmap]
    simp

/-- A file that is read into memory. -/
theorem loads_read (hfd : 0 ≤ cf.fd) (hsmall : ¬mappedMin < st_size) :
    Loads mappedMin w cf st_size ↔ w.allocates = true ∧ AtOnce w st_size := by
  obtain ⟨b, hnew, hbytes, hsize, hfits⟩ := new_holds st_size
  rw [← readLoop_iff hbytes hsize hfits]
  cases hmem : w.allocates with
  | false =>
    -- the exception leaves the flag set
    have hout : ∀ turns, readFile mappedMin w turns cf st_size =
        some (.error (.raised .MemoryAllocationFailure), { cf with isReloading := true }) := by
      intro turns
      rw [readFile, if_neg (not_lt.mpr hfd), if_neg hsmall, hmem]
      rfl
    refine iff_of_false ?_ (by simp)
    rintro ⟨turns, result, cf', heq, -, -, hclear⟩
    rw [hout turns] at heq
    rw [← (Prod.mk.inj (Option.some.inj heq)).2] at hclear
    exact absurd hclear (by simp)
  | true =>
    have hout : ∀ turns, readFile mappedMin w turns cf st_size =
        (readLoop w b st_size 0 turns []).map
          (finish { cf with isReloading := true } b st_size) := by
      intro turns
      rw [readFile, if_neg (not_lt.mpr hfd), if_neg hsmall, hmem, if_pos rfl, hnew]
    constructor
    · rintro ⟨turns, result, cf', heq, hright⟩
      rw [hout turns] at heq
      obtain ⟨loop, hloop, hfinish⟩ := Option.map_eq_some_iff.mp heq
      have hiff := finish_iff b { cf with isReloading := true } loop hfd hsmall rfl
      rw [hfinish] at hiff
      obtain ⟨got, hgot, hheld⟩ := hiff.mp hright
      rw [hgot] at hloop
      exact ⟨rfl, turns, got, hloop, hheld⟩
    · rintro ⟨-, turns, got, hloop, hheld⟩
      have hright := (finish_iff b { cf with isReloading := true } (.ok got) hfd hsmall rfl).mpr
        ⟨got, rfl, hheld⟩
      refine ⟨turns, _, _, ?_, hright⟩
      rw [hout turns, hloop, Option.map_some]

/-- **The files that are read** as they should, or given up. -/
theorem readFile_iff (mappedMin : ℕ) (w : World) (cf : CachedFile) (st_size : ℕ) :
    Loads mappedMin w cf st_size ↔ Fine mappedMin w cf st_size := by
  rw [Fine]
  by_cases hfd : cf.fd < 0
  · rw [if_pos (.inl hfd), loads_closed hfd]
  · by_cases hmap : mappedMin < st_size
    · rw [if_pos (.inr hmap), loads_mapped (not_lt.mp hfd) hmap]
    · rw [if_neg (by simp [hfd, hmap]), loads_read (not_lt.mp hfd) hmap]

/-- Bytes that come one by one: behind the first the flag stays set. -/
def oneByOne : World where
  pagesize := 4096
  maps := true
  allocates := true
  warns := false
  read _ count := if h : 1 ≤ count then .bytes ⟨[104], h⟩ else .bytes ⟨[], count.zero_le⟩

theorem not_loads :
    ¬∀ mappedMin w cf st_size, cf.isReloading = false → Loads mappedMin w cf st_size := by
  intro h
  have hloads := h 16384 oneByOne { fd := 3 } 2 rfl
  rw [loads_read (by decide) (by decide)] at hloads
  obtain ⟨-, n, hidle, hlast⟩ := hloads
  cases n with
  | zero => exact absurd hlast.1 (by decide)
  | succ n =>
    have hnil : [104] = ([] : Bytes) := hidle 0 n.succ_pos
    exact absurd hnil (by decide)

end FileReading

end Suil
