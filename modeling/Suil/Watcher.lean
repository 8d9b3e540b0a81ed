/-
File events (`suil::fs::Watcher::handleEvents`).

What the kernel wrote is a row of records, each with a name behind it whose length stands
in the record.  The handler of a descriptor is looked up in a map that handlers may
change; when it is not there, the watch is removed, and then the handler is called all
the same.

* `readEvent_bytes` — the record at its place in the buffer;
* `emission_eq` — a signal that is destroyed by one of its own callbacks;
* `handleEvents_iff` — the buffers that are handled as they should be.
-/
import Suil.Core
import Suil.Lib.LittleEndian

open LittleEndian

namespace Suil

namespace Watcher

def IN_ALL_EVENTS : UInt32 := 0xfff

def IN_UNMOUNT : UInt32 := 0x2000

def IN_Q_OVERFLOW : UInt32 := 0x4000

def IN_IGNORED : UInt32 := 0x8000

def IN_ISDIR : UInt32 := 0x40000000

/-- `inotify_event`; the descriptor by its bits, and the name as long as `len` says, with the
zero bytes that fill it up. -/
@[ext] structure InotifyEvent where
  wd : UInt32
  mask : UInt32
  cookie : UInt32
  name : Bytes
  fits : name.length < 2 ^ 32

/-- `Event` -/
structure Event where
  event : UInt32
  cookie : UInt32
  name : Bytes
  isDir : Bool
  isUnMount : Bool
deriving DecidableEq, Repr

namespace InotifyEvent

/-- As the kernel writes it. -/
def bytes (ev : InotifyEvent) : Bytes :=
  bytesLE 4 ev.wd.toNat ++ bytesLE 4 ev.mask.toNat ++ bytesLE 4 ev.cookie.toNat ++
    bytesLE 4 ev.name.length ++ ev.name

def has (ev : InotifyEvent) (flag : UInt32) : Bool := ev.mask &&& flag == flag

/-- What a handler is called with. -/
def event (ev : InotifyEvent) : Event where
  event := ev.mask &&& IN_ALL_EVENTS
  cookie := ev.cookie
  name := ev.name
  isDir := ev.has IN_ISDIR
  isUnMount := ev.has IN_UNMOUNT

end InotifyEvent

/-- What a callback asks of the watcher: `unwatch(wd)`, or a `watch` that yields a descriptor
and adds a callback, or none, to its signal. -/
inductive Request (H : Type) where
  | unwatch (wd : UInt32)
  | watch (wd : UInt32) (add : H → H)

/-- `_signals`, and whatever else there is. -/
structure State (H W : Type) where
  signals : UInt32 → Option H
  world : W

/-- The handlers: an empty signal; the callbacks that a signal calls for an event, each with
what it asks and whether it goes on; and the overflow handler, if there is one. -/
structure Handlers (H W : Type) where
  empty : H
  emit : H → Event → State H W → List (List (Request H) × Bool) × W
  overflow : Option (State H W → List (Request H) × W)

/-- A call of a handler. -/
structure Called (H : Type) where
  wd : UInt32
  handler : H
  event : Event

/-- How `handleEvents` ends when it does not return: by the exception for an overflow, by a
handler that is not in the map, by a signal that was destroyed, or behind the buffer. -/
inductive Fault where
  | overflowed
  | missing
  | destroyed
  | outside
  | spent
deriving DecidableEq, Repr

section Handle

variable {H W : Type} (b : Handlers H W)

def request (signals : UInt32 → Option H) : Request H → UInt32 → Option H
  | .unwatch wd => Function.update signals wd none
  | .watch wd add => Function.update signals wd (some (add ((signals wd).getD b.empty)))

def requests (signals : UInt32 → Option H) (reqs : List (Request H)) : UInt32 → Option H :=
  reqs.foldl (request b) signals

/-- A callback removes the descriptor. -/
def removes (wd : UInt32) (reqs : List (Request H)) : Bool :=
  reqs.any fun req =>
    match req with
    | .unwatch w => w == wd
    | .watch _ _ => false

/-- `Signal::operator()`: the list of a signal that is no longer in the map is gone, so that
the next callback cannot be looked for. -/
def emission (wd : UInt32) :
    List (List (Request H) × Bool) → (UInt32 → Option H) → Option (UInt32 → Option H)
  | [], signals => some signals
  | (reqs, goOn) :: calls, signals =>
    if goOn then
      if removes wd reqs then none else emission wd calls (requests b signals reqs)
    else some (requests b signals reqs)

/-- What is done about an overflow. -/
def announce (s : State H W) (ev : InotifyEvent) : Except Fault (State H W) :=
  if ev.has IN_Q_OVERFLOW then
    match b.overflow with
    | none => .error .overflowed
    | some f => .ok ⟨requests b s.signals (f s).1, (f s).2⟩
  else .ok s

/-- The call of the handler; when there is none, the end of the map is called behind
`unwatch`. -/
def call (s : State H W) (ev : InotifyEvent) : Except Fault (List (Called H) × State H W) :=
  match s.signals ev.wd with
  | none => .error .missing
  | some h =>
    match emission b ev.wd (b.emit h ev.event s).1 s.signals with
    | none => .error .destroyed
    | some signals => .ok ([⟨ev.wd, h, ev.event⟩], ⟨signals, (b.emit h ev.event s).2⟩)

/-- The body of the loop: the handler that is called, and the state after it. -/
def body (s : State H W) (ev : InotifyEvent) : Except Fault (List (Called H) × State H W) :=
  if ev.has IN_IGNORED then .ok ([], s)
  else do
    let s ← announce b s ev
    call b s ev

/-- Four bytes of the buffer. -/
def read32 (buf : Bytes) (i : ℕ) : UInt32 := UInt32.ofNat (valueLE ((buf.drop i).take 4))

/-- The record at a place of the buffer; none when it reaches over the end. -/
def readEvent (buf : Bytes) (i : ℕ) : Option InotifyEvent :=
  if i + 16 + (read32 buf (i + 12)).toNat ≤ buf.length then
    some ⟨read32 buf i, read32 buf (i + 4), read32 buf (i + 8),
      (buf.drop (i + 16)).take (read32 buf (i + 12)).toNat, by
        have hlt := (read32 buf (i + 12)).toNat_lt
        rw [List.length_take]
        omega⟩
  else none

/-- The loop of `handleEvents`, which may take so many turns; its counter is an `int`, and a
read is of 4096 bytes at most. -/
def loop (buf : Bytes) : ℕ → ℕ → State H W → Except Fault (List (Called H) × State H W)
  | 0, i, s => if i < buf.length then .error .spent else .ok ([], s)
  | turns + 1, i, s =>
    if i < buf.length then
      match readEvent buf i with
      | none => .error .outside
      | some ev => do
        let (called, s) ← body b s ev
        let (more, s) ← loop buf turns (i + (16 + ev.name.length)) s
        .ok (called ++ more, s)
    else .ok ([], s)

/-- `handleEvents(events, len)`: the calls that it makes, and the state after them. -/
def handleEvents (events : Bytes) (s : State H W) : Except Fault (List (Called H) × State H W) :=
  loop b events events.length 0 s

/-! ### The events -/

/-- The state when the handler of an event is looked up. -/
def announced (s : State H W) (ev : InotifyEvent) : State H W :=
  if ev.has IN_Q_OVERFLOW then
    match b.overflow with
    | none => s
    | some f => ⟨requests b s.signals (f s).1, (f s).2⟩
  else s

/-- The map when all callbacks were called up to the first that does not go on. -/
def emitted : List (List (Request H) × Bool) → (UInt32 → Option H) → UInt32 → Option H
  | [], signals => signals
  | (reqs, goOn) :: calls, signals =>
    if goOn then emitted calls (requests b signals reqs) else requests b signals reqs

/-- **What should be done**: each event in its turn, the handler registered for it called with its
fields, and nothing when there is none. -/
def visit : List InotifyEvent → State H W → List (Called H) × State H W
  | [], s => ([], s)
  | ev :: evs, s =>
    if ev.has IN_IGNORED then visit evs s
    else
      let s := announced b s ev
      match s.signals ev.wd with
      | none => visit evs s
      | some h =>
        let s' := ⟨emitted b (b.emit h ev.event s).1 s.signals, (b.emit h ev.event s).2⟩
        (⟨ev.wd, h, ev.event⟩ :: (visit evs s').1, (visit evs s').2)

/-- No callback that goes on has removed its own descriptor. -/
def Stays (wd : UInt32) (calls : List (List (Request H) × Bool)) : Prop :=
  ∀ c ∈ calls.takeWhile fun c => c.2, removes wd c.1 = false

/-- Every event that is not ignored finds a handler that stays while it is called, and an
overflow finds the overflow handler. -/
def Orderly : List InotifyEvent → State H W → Prop
  | [], _ => True
  | ev :: evs, s =>
    if ev.has IN_IGNORED then Orderly evs s
    else (ev.has IN_Q_OVERFLOW = true → b.overflow.isSome) ∧
      ∃ h, (announced b s ev).signals ev.wd = some h ∧
        Stays ev.wd (b.emit h ev.event (announced b s ev)).1 ∧
        Orderly evs ⟨emitted b (b.emit h ev.event (announced b s ev)).1 (announced b s ev).signals,
          (b.emit h ev.event (announced b s ev)).2⟩

end Handle

/-! ### The record -/

/-- A number is read behind what stands before it. -/
theorem read32_behind {buf : Bytes} (front : Bytes) {n i : ℕ} (h : n < 2 ^ 32)
    (hi : front.length = i) (hbuf : front ++ bytesLE 4 n <+: buf) :
    read32 buf i = UInt32.ofNat n := by
  obtain ⟨rest, rfl⟩ := hbuf
  have hfour : (bytesLE 4 n ++ rest).take 4 = bytesLE 4 n := List.take_left' (length_bytesLE 4 n)
  rw [← hi, List.append_assoc, read32, List.drop_left, hfour,
    valueLE_bytesLE_of_lt (by norm_num; exact h)]

/-- **A record is read at its place.** -/
theorem readEvent_bytes (a c : Bytes) (ev : InotifyEvent) :
    readEvent (a ++ (ev.bytes ++ c)) a.length = some ev := by
  have hfits := ev.fits
  obtain ⟨front, hfront⟩ : ∃ front, front = a ++ bytesLE 4 ev.wd.toNat ++
      bytesLE 4 ev.mask.toNat ++ bytesLE 4 ev.cookie.toNat ++ bytesLE 4 ev.name.length := ⟨_, rfl⟩
  have hsplit : a ++ (ev.bytes ++ c) = front ++ (ev.name ++ c) := by
    simp only [hfront, InotifyEvent.bytes, List.append_assoc]
  have hlen : front.length = a.length + 16 := by
    simp [hfront]
  rw [hsplit]
  -- the four numbers, each behind what stands before it
  have hwd : read32 (front ++ (ev.name ++ c)) a.length = UInt32.ofNat ev.wd.toNat := by
    refine read32_behind a ev.wd.toNat_lt rfl ?_
    simp only [hfront, List.append_assoc, List.prefix_append_right_inj, List.prefix_append]
  have hmask : read32 (front ++ (ev.name ++ c)) (a.length + 4) = UInt32.ofNat ev.mask.toNat := by
    refine read32_behind (a ++ bytesLE 4 ev.wd.toNat) ev.mask.toNat_lt (by simp) ?_
    simp only [hfront, List.append_assoc, List.prefix_append_right_inj, List.prefix_append]
  have hcookie : read32 (front ++ (ev.name ++ c)) (a.length + 8) =
      UInt32.ofNat ev.cookie.toNat := by
    refine read32_behind (a ++ bytesLE 4 ev.wd.toNat ++ bytesLE 4 ev.mask.toNat)
      ev.cookie.toNat_lt (by simp) ?_
    simp only [hfront, List.append_assoc, List.prefix_append_right_inj, List.prefix_append]
  have hname : read32 (front ++ (ev.name ++ c)) (a.length + 12) =
      UInt32.ofNat ev.name.length := by
    refine read32_behind (a ++ bytesLE 4 ev.wd.toNat ++ bytesLE 4 ev.mask.toNat ++
      bytesLE 4 ev.cookie.toNat) hfits (by simp) ?_
    simp only [hfront, List.append_assoc, List.prefix_append_right_inj, List.prefix_append]
  have hsize : (UInt32.ofNat ev.name.length).toNat = ev.name.length :=
    UInt32.toNat_ofNat_of_lt' hfits
  have hrest : ((front ++ (ev.name ++ c)).drop (a.length + 16)).take ev.name.length = ev.name := by
    rw [← hlen, List.drop_left, List.take_left]
  have hin : a.length + 16 + ev.name.length ≤ (front ++ (ev.name ++ c)).length := by
    rw [List.length_append, List.length_append, hlen]
    omega
  rw [readEvent, if_pos (by rw [hname, hsize]; exact hin), Option.some.injEq]
  ext1
  · simp only [hwd, UInt32.ofNat_toNat]
  · simp only [hmask, UInt32.ofNat_toNat]
  · simp only [hcookie, UInt32.ofNat_toNat]
  · simp only [hname, hsize]
    exact hrest

theorem length_bytes (ev : InotifyEvent) : ev.bytes.length = 16 + ev.name.length := by
  simp [InotifyEvent.bytes]
  omega

/-! ### The turns -/

section Turns

variable {H W : Type} (b : Handlers H W)

/-- **The calls of a signal**: it does as all of its callbacks say, as long as none of them that
goes on has removed it. -/
theorem emission_eq (wd : UInt32) (calls : List (List (Request H) × Bool))
    (signals : UInt32 → Option H) :
    (Stays wd calls → emission b wd calls signals = some (emitted b calls signals)) ∧
      (¬Stays wd calls → emission b wd calls signals = none) := by
  induction calls generalizing signals with
  | nil => exact ⟨fun _ => rfl, fun h => absurd (fun c hc => absurd hc List.not_mem_nil) h⟩
  | cons call calls ih =>
    obtain ⟨reqs, _ | _⟩ := call
    · -- a callback that does not go on is the last one, whatever it removes
      refine ⟨fun _ => rfl, fun h => absurd ?_ h⟩
      intro c hc
      simp at hc
    · have hstays : Stays wd ((reqs, true) :: calls) ↔
          removes wd reqs = false ∧ Stays wd calls := by
        simp [Stays]
      rw [hstays]
      obtain ⟨hkept, hgone⟩ := ih (requests b signals reqs)
      simp only [emission, emitted, if_true]
      by_cases hrem : removes wd reqs = true
      · simp [hrem]
      · have hfalse : removes wd reqs = false := by simpa using hrem
        rw [if_neg hrem]
        simp only [hfalse, true_and]
        exact ⟨hkept, hgone⟩

variable {ev : InotifyEvent} {s : State H W}

theorem body_ignored (h : ev.has IN_IGNORED = true) (s : State H W) :
    body b s ev = .ok ([], s) := by
  rw [body, if_pos h]

theorem announce_eq (hover : ev.has IN_Q_OVERFLOW = true → b.overflow.isSome) (s : State H W) :
    announce b s ev = .ok (announced b s ev) := by
  rw [announce, announced]
  by_cases hflag : ev.has IN_Q_OVERFLOW = true
  · obtain ⟨f, hf⟩ := Option.isSome_iff_exists.mp (hover hflag)
    rw [if_pos hflag, if_pos hflag, hf]
  · rw [if_neg hflag, if_neg hflag]

theorem announce_overflowed (hflag : ev.has IN_Q_OVERFLOW = true) (hnone : b.overflow = none)
    (s : State H W) : announce b s ev = .error .overflowed := by
  rw [announce, if_pos hflag, hnone]

theorem call_missing (h : s.signals ev.wd = none) : call b s ev = .error .missing := by
  rw [call, h]

theorem call_stays {h : H} (hsome : s.signals ev.wd = some h)
    (hstays : Stays ev.wd (b.emit h ev.event s).1) :
    call b s ev = .ok ([⟨ev.wd, h, ev.event⟩],
      ⟨emitted b (b.emit h ev.event s).1 s.signals, (b.emit h ev.event s).2⟩) := by
  rw [call, hsome]
  simp only [(emission_eq b ev.wd _ s.signals).1 hstays]

theorem call_destroyed {h : H} (hsome : s.signals ev.wd = some h)
    (hgone : ¬Stays ev.wd (b.emit h ev.event s).1) : call b s ev = .error .destroyed := by
  rw [call, hsome]
  simp only [(emission_eq b ev.wd _ s.signals).2 hgone]

theorem body_eq (h : ¬ev.has IN_IGNORED = true)
    (hover : ev.has IN_Q_OVERFLOW = true → b.overflow.isSome) (s : State H W) :
    body b s ev = call b (announced b s ev) ev := by
  rw [body, if_neg h, announce_eq b hover]
  rfl

theorem body_overflowed (h : ¬ev.has IN_IGNORED = true) (hflag : ev.has IN_Q_OVERFLOW = true)
    (hnone : b.overflow = none) (s : State H W) : body b s ev = .error .overflowed := by
  rw [body, if_neg h, announce_overflowed b hflag hnone]
  rfl

/-! ### The loop -/

theorem loop_end (buf : Bytes) (turns : ℕ) (s : State H W) :
    loop b buf turns buf.length s = .ok ([], s) := by
  cases turns with
  | zero => exact if_neg (lt_irrefl _)
  | succ turns => exact if_neg (lt_irrefl _)

/-- One turn: the event at the place, and the rest of the buffer behind it. -/
theorem loop_event {a c : Bytes} {buf : Bytes} (hbuf : buf = a ++ (ev.bytes ++ c)) (turns : ℕ)
    (s : State H W) :
    loop b buf (turns + 1) a.length s = (body b s ev).bind fun r =>
      (loop b buf turns (a ++ ev.bytes).length r.2).bind fun r' => .ok (r.1 ++ r'.1, r'.2) := by
  have hlt : a.length < buf.length := by
    rw [hbuf]
    simp only [List.length_append, length_bytes]
    omega
  have hread : readEvent buf a.length = some ev := by
    rw [hbuf]
    exact readEvent_bytes a c ev
  rw [loop, if_pos hlt, hread, List.length_append, length_bytes]
  rfl

/-- What is put before the calls that follow. -/
theorem bind_append_iff {A B : Type} (x : Except Fault (List A × B)) (l : List A) (r : List A × B) :
    (x.bind fun r' => .ok (l ++ r'.1, r'.2)) = .ok (l ++ r.1, r.2) ↔ x = .ok r := by
  cases x with
  | error e => simp [Except.bind]
  | ok r' =>
    simp only [Except.bind, Except.ok.injEq, List.append_cancel_left_eq, Prod.ext_iff]

/-- **The run of the loop** over the events that are left. -/
theorem loop_iff {buf : Bytes} (evs : List InotifyEvent) :
    ∀ (a : Bytes) (turns : ℕ) (s : State H W), buf = a ++ evs.flatMap InotifyEvent.bytes →
      evs.length ≤ turns →
      (loop b buf turns a.length s = .ok (visit b evs s) ↔ Orderly b evs s) := by
  induction evs with
  | nil =>
    intro a turns s hbuf _
    have hlen : a.length = buf.length := by rw [hbuf, List.flatMap_nil, List.append_nil]
    rw [hlen, loop_end]
    exact iff_of_true rfl trivial
  | cons ev evs ih =>
    intro a turns s hbuf hturns
    obtain ⟨turns, rfl⟩ : ∃ t, turns = t + 1 := ⟨turns - 1, by simp at hturns; omega⟩
    rw [List.flatMap_cons] at hbuf
    have hrest := fun s => ih (a ++ ev.bytes) turns s (by rw [hbuf, List.append_assoc])
      (by simpa using hturns)
    rw [loop_event b hbuf turns s, visit, Orderly]
    -- an event that is ignored, one that is handled, and an overflow without a handler
    by_cases hign : ev.has IN_IGNORED = true
    · rw [body_ignored b hign, if_pos hign, if_pos hign, ← hrest s]
      exact bind_append_iff _ [] (visit b evs s)
    rw [if_neg hign, if_neg hign]
    by_cases hover : ev.has IN_Q_OVERFLOW = true → b.overflow.isSome
    · rw [body_eq b hign hover]
      simp only
      cases hsig : (announced b s ev).signals ev.wd with
      | none =>
        rw [call_missing b hsig]
        refine iff_of_false (fun h => by cases h) ?_
        rintro ⟨-, h, heq, -⟩
        cases heq
      | some h =>
        by_cases hstays : Stays ev.wd (b.emit h ev.event (announced b s ev)).1
        · rw [call_stays b hsig hstays]
          refine (bind_append_iff _ [⟨ev.wd, h, ev.event⟩] _).trans ((hrest _).trans ?_)
          constructor
          · exact fun hrest => ⟨hover, h, rfl, hstays, hrest⟩
          · rintro ⟨-, h', heq, -, hrest⟩
            obtain rfl := Option.some.inj heq
            exact hrest
        · rw [call_destroyed b hsig hstays]
          refine iff_of_false (fun h => by cases h) ?_
          rintro ⟨-, h', heq, hstays', -⟩
          obtain rfl := Option.some.inj heq
          exact hstays hstays'
    · have hflag : ev.has IN_Q_OVERFLOW = true := by
        by_contra hno
        exact hover fun h => absurd h hno
      have hnone : b.overflow = none := by
        rw [← Option.not_isSome_iff_eq_none]
        exact fun h => hover fun _ => h
      rw [body_overflowed b hign hflag hnone]
      exact iff_of_false (fun h => by cases h) fun h => hover h.1

/-- **The buffers that are handled as they should be**: every event in its turn, by the handler of
its descriptor, up to the end. -/
theorem handleEvents_iff (evs : List InotifyEvent) (s : State H W) :
    handleEvents b (evs.flatMap InotifyEvent.bytes) s = .ok (visit b evs s) ↔ Orderly b evs s := by
  refine loop_iff b evs [] _ s rfl ?_
  induction evs with
  | nil => exact le_refl _
  | cons ev evs ih =>
    rw [List.flatMap_cons, List.length_append, length_bytes, List.length_cons]
    omega

end Turns

/-- Handlers without callbacks. -/
def silent : Handlers Unit Unit where
  empty := ()
  emit := fun _ _ s => ([], s.world)
  overflow := none

/-- A file that was modified, without a name. -/
def modified : InotifyEvent where
  wd := 1
  mask := 2
  cookie := 0
  name := []
  fits := by decide

/-- An event whose watch was removed ends in a call of the end of the map. -/
theorem not_handleEvents :
    handleEvents silent modified.bytes ⟨fun _ => none, ()⟩ = .error .missing ∧
      ¬∀ (H W : Type) (b : Handlers H W) (evs : List InotifyEvent) (s : State H W),
        handleEvents b (evs.flatMap InotifyEvent.bytes) s = .ok (visit b evs s) := by
  have hmissing : handleEvents silent modified.bytes ⟨fun _ => none, ()⟩ = .error .missing := rfl
  refine ⟨hmissing, fun h => ?_⟩
  have hright := h Unit Unit silent [modified] ⟨fun _ => none, ()⟩
  rw [List.flatMap_singleton, hmissing] at hright
  cases hright

end Watcher

end Suil
