/-
The lock of the workers (`LockData`, `Lock`).

A caller draws a ticket from `next` and spins until `serving` comes to it;
unlocking serves the next ticket.  A caller with a timeout may give up.  The
callers run in any order, one atomic instruction at a time.

* `inv_step` — what one instruction preserves: the tickets from `serving` to
  `next` belong to one caller each, those of a given set excepted;
* `sane_of_run` — a run in which no caller gives up and no ticket overflows an
  `int` keeps the lock exclusive and never loses it;
* `lost_of_give_up` — after a caller gave up, the lock is lost as soon as those
  before it are done.
-/
import Suil.Lib.Runs

open Runs

namespace Suil.Lock

/-- `LockData`, without its id. -/
structure LockData where
  serving : ℕ
  next : ℕ
  on : ℕ
deriving DecidableEq, Repr

/-- `Lock::reset`. -/
def LockData.reset : LockData := ⟨0, 0, 10⟩

/-- Where a caller is: outside, before the compare-and-swap, behind one that failed,
or between `spinLock` and `unlock`.  `tout` is the time to give up, none if it is
not positive. -/
inductive Pc where
  | idle
  | spinning (ticket tout : ℤ)
  | checking (ticket tout : ℤ)
  | holding
deriving DecidableEq, Repr

/-- The lock and its callers. -/
structure State (W : Type) where
  lock : LockData
  pc : W → Pc

/-- What a caller does next; the clock is read where the code reads it. -/
inductive Instr where
  | request (tout now : ℤ)
  | swap
  | check (now : ℤ)
  | unlock
deriving DecidableEq, Repr

/-- `int ticket`: the low 32 bits of the counter, signed. -/
def narrow (n : ℕ) : ℤ := Int.bmod n (2 ^ 32)

/-- The ticket as the compare-and-swap sees it, on 64 bits without a sign. -/
def wide (ticket : ℤ) : ℕ := (ticket % 2 ^ 64).toNat

variable {W : Type}

def State.set [DecidableEq W] (s : State W) (lock : LockData) (w : W) (pc : Pc) : State W :=
  ⟨lock, Function.update s.pc w pc⟩

/-- One atomic instruction of a caller; the output is what `spinLock` returns, where it
does. -/
def step [DecidableEq W] (s : State W) : W × Instr → Option (Option Bool × State W)
  | (w, i) =>
    match s.pc w, i with
    | .idle, .request tout now =>
      let tout := if 0 < tout then tout + now else tout
      some (none, s.set { s.lock with next := (s.lock.next + 1) % 2 ^ 64 } w
        (.spinning (narrow s.lock.next) tout))
    | .spinning ticket tout, .swap =>
      if s.lock.on ≠ 0 ∧ s.lock.serving ≠ wide ticket then
        some (none, s.set s.lock w (.checking ticket tout))
      else some (some true, s.set s.lock w .holding)
    | .checking ticket tout, .check now =>
      if 0 < tout ∧ tout < now then some (some false, s.set s.lock w .idle)
      else some (none, s.set s.lock w (.spinning ticket tout))
    | .holding, .unlock =>
      some (none, s.set { s.lock with serving := (s.lock.serving + 1) % 2 ^ 64 } w .idle)
    | _, _ => none

def init : State W := ⟨.reset, fun _ => .idle⟩

/-- The caller waits for a ticket. -/
def Waits (s : State W) (w : W) (ticket : ℤ) : Prop :=
  ∃ tout, s.pc w = .spinning ticket tout ∨ s.pc w = .checking ticket tout

/-- One caller at most holds the lock, and while none does the ticket served is the
next to be drawn or a caller waits for it. -/
structure Sane (s : State W) : Prop where
  exclusive : ∀ w w', s.pc w = .holding → s.pc w' = .holding → w = w'
  served : (∀ w, s.pc w ≠ .holding) →
    s.lock.serving = s.lock.next ∨ ∃ w ticket, Waits s w ticket ∧ wide ticket = s.lock.serving

/-- A caller gives up. -/
def givesUp (s : State W) : W × Instr → Bool
  | (w, i) =>
    match s.pc w, i with
    | .checking _ tout, .check now => 0 < tout ∧ tout < now
    | _, _ => false

/-- The instructions that neither give up nor draw a ticket past `INT_MAX`. -/
def guarded (s : State W) (i : W × Instr) : Bool :=
  !givesUp s i && match i.2 with
    | .request _ _ => s.lock.next < 2 ^ 31
    | _ => true

/-! ### The tickets and their callers -/

/-- The ticket of a caller; who holds the lock has the one that is served. -/
def State.number (s : State W) (w : W) : Option ℤ :=
  match s.pc w with
  | .idle => none
  | .spinning ticket _ => some ticket
  | .checking ticket _ => some ticket
  | .holding => some s.lock.serving

/-- The tickets from `serving` to `next`, but for the lost ones, belong to one caller
each. -/
structure Inv (lost : Set ℤ) (s : State W) : Prop where
  on : s.lock.on ≠ 0
  serving_le : s.lock.serving ≤ s.lock.next
  next_le : s.lock.next ≤ 2 ^ 31
  inj : ∀ w w' n, s.number w = some n → s.number w' = some n → w = w'
  range : ∀ w n, s.number w = some n → s.lock.serving ≤ n ∧ n < s.lock.next ∧ n ∉ lost
  cover : ∀ n : ℤ, s.lock.serving ≤ n → n < s.lock.next → n ∉ lost → ∃ w, s.number w = some n
  lost_lt : ∀ n ∈ lost, n < s.lock.next

theorem narrow_of_lt {n : ℕ} (h : n < 2 ^ 31) : narrow n = n := by
  unfold narrow
  refine Int.bmod_eq_of_le ?_ ?_
  · norm_num
  · norm_num
    omega

theorem wide_of_range {ticket : ℤ} {k : ℕ} (h₀ : 0 ≤ ticket) (h : ticket < k) (hk : k ≤ 2 ^ 31) :
    (wide ticket : ℤ) = ticket := by
  have hmod : ticket % 2 ^ 64 = ticket := Int.emod_eq_of_lt h₀ (by omega)
  show ((ticket % 2 ^ 64).toNat : ℤ) = ticket
  rw [hmod]
  exact Int.toNat_of_nonneg h₀

theorem inv_init : Inv ∅ (init : State W) := by
  refine ⟨Nat.succ_ne_zero 9, le_refl _, Nat.zero_le _, ?_, ?_, ?_, ?_⟩
  · intro w w' n hw
    cases hw
  · intro w n hw
    cases hw
  · intro n h₀ h₁
    have hzero : (0 : ℤ) ≤ n ∧ n < 0 := ⟨h₀, h₁⟩
    omega
  · intro n hn
    exact absurd hn (Set.notMem_empty n)

section Steps

variable {lost : Set ℤ} {s : State W} {w : W}

/-- A waiting caller's compare-and-swap succeeds iff its ticket is served. -/
theorem Inv.wide_eq_iff (h : Inv lost s) {ticket : ℤ} (hw : s.number w = some ticket) :
    s.lock.serving = wide ticket ↔ ticket = s.lock.serving := by
  obtain ⟨h₁, h₂, -⟩ := h.range w ticket hw
  have hwide := wide_of_range (by omega) h₂ h.next_le
  omega

/-- With every ticket in somebody's hands the lock is not lost. -/
theorem Inv.sane (h : Inv ∅ s) : Sane s := by
  refine ⟨fun w w' hw hw' => ?_, fun hfree => ?_⟩
  · exact h.inj w w' s.lock.serving (by simp [State.number, hw]) (by simp [State.number, hw'])
  · rcases h.serving_le.eq_or_lt with heq | hlt
    · exact Or.inl heq
    · right
      obtain ⟨w, hw⟩ := h.cover s.lock.serving le_rfl (by omega) (Set.notMem_empty _)
      have hwide := (h.wide_eq_iff hw).mpr rfl
      rcases hpc : s.pc w with _ | ⟨ticket, tout⟩ | ⟨ticket, tout⟩ | _
      · simp [State.number, hpc] at hw
      · simp only [State.number, hpc, Option.some.injEq] at hw
        exact ⟨w, ticket, ⟨tout, Or.inl hpc⟩, hw ▸ hwide.symm⟩
      · simp only [State.number, hpc, Option.some.injEq] at hw
        exact ⟨w, ticket, ⟨tout, Or.inr hpc⟩, hw ▸ hwide.symm⟩
      · exact absurd hpc (hfree w)

variable [DecidableEq W]

/-- A caller that keeps its ticket. -/
theorem Inv.keep (h : Inv lost s) {pc : Pc}
    (hpc : (s.set s.lock w pc).number w = s.number w) : Inv lost (s.set s.lock w pc) := by
  have hnumber : (s.set s.lock w pc).number = s.number := by
    funext v
    by_cases hv : v = w
    · rw [hv, hpc]
    · simp [State.number, State.set, hv]
  refine ⟨h.on, h.serving_le, h.next_le, ?_, ?_, ?_, h.lost_lt⟩
  · rw [hnumber]
    exact h.inj
  · rw [hnumber]
    exact h.range
  · rw [hnumber]
    exact h.cover

/-- A caller that draws a ticket. -/
theorem Inv.request (h : Inv lost s) (hidle : s.pc w = .idle) (hlt : s.lock.next < 2 ^ 31)
    (tout : ℤ) :
    Inv lost (s.set { s.lock with next := (s.lock.next + 1) % 2 ^ 64 } w
      (.spinning (narrow s.lock.next) tout)) := by
  have hserving := h.serving_le
  have hnext : (s.lock.next + 1) % 2 ^ 64 = s.lock.next + 1 := Nat.mod_eq_of_lt (by omega)
  rw [hnext, narrow_of_lt hlt]
  set s' := s.set { s.lock with next := s.lock.next + 1 } w (.spinning s.lock.next tout) with hs'
  have hself : s'.number w = some (s.lock.next : ℤ) := by
    simp [hs', State.number, State.set]
  have hother : ∀ v, v ≠ w → s'.number v = s.number v := by
    intro v hv
    simp [hs', State.number, State.set, hv]
  have hfresh : ∀ v, s.number v ≠ some (s.lock.next : ℤ) := by
    intro v hv
    exact absurd (h.range v _ hv).2.1 (lt_irrefl _)
  have hnumber : ∀ v n, s'.number v = some n ↔
      (v = w ∧ n = s.lock.next) ∨ (v ≠ w ∧ s.number v = some n) := by
    intro v n
    by_cases hv : v = w
    · rw [hv, hself]
      simp [eq_comm]
    · rw [hother v hv]
      simp [hv]
  refine ⟨h.on, ?_, ?_, ?_, ?_, ?_, ?_⟩
  · show s.lock.serving ≤ s.lock.next + 1
    omega
  · show s.lock.next + 1 ≤ 2 ^ 31
    omega
  · intro v v' n hv hv'
    rcases (hnumber v n).mp hv with ⟨rfl, rfl⟩ | ⟨hne, hold⟩
    · rcases (hnumber v' _).mp hv' with ⟨rfl, -⟩ | ⟨-, hold'⟩
      · rfl
      · exact absurd hold' (hfresh v')
    · rcases (hnumber v' n).mp hv' with ⟨rfl, rfl⟩ | ⟨-, hold'⟩
      · exact absurd hold (hfresh v)
      · exact h.inj v v' n hold hold'
  · intro v n hv
    show (s.lock.serving : ℤ) ≤ n ∧ n < ((s.lock.next + 1 : ℕ) : ℤ) ∧ n ∉ lost
    rcases (hnumber v n).mp hv with ⟨rfl, rfl⟩ | ⟨-, hold⟩
    · refine ⟨by omega, by omega, fun hlost => ?_⟩
      exact absurd (h.lost_lt _ hlost) (lt_irrefl _)
    · obtain ⟨h₁, h₂, h₃⟩ := h.range v n hold
      exact ⟨h₁, by omega, h₃⟩
  · intro n h₁ h₂ h₃
    have hle : n < ((s.lock.next + 1 : ℕ) : ℤ) := h₂
    by_cases hn : n = s.lock.next
    · exact ⟨w, (hnumber w n).mpr (Or.inl ⟨rfl, hn⟩)⟩
    · obtain ⟨v, hv⟩ := h.cover n h₁ (by omega) h₃
      have hvw : v ≠ w := by
        rintro rfl
        simp [State.number, hidle] at hv
      exact ⟨v, (hnumber v n).mpr (Or.inr ⟨hvw, hv⟩)⟩
  · intro n hn
    have hlt := h.lost_lt n hn
    show n < ((s.lock.next + 1 : ℕ) : ℤ)
    omega

/-- The caller that holds the lock gives it back. -/
theorem Inv.unlock (h : Inv lost s) (hholds : s.pc w = .holding) :
    Inv lost (s.set { s.lock with serving := (s.lock.serving + 1) % 2 ^ 64 } w .idle) := by
  have hnext := h.next_le
  have hw : s.number w = some (s.lock.serving : ℤ) := by
    simp [State.number, hholds]
  obtain ⟨-, hlt, -⟩ := h.range w _ hw
  have hserving : (s.lock.serving + 1) % 2 ^ 64 = s.lock.serving + 1 :=
    Nat.mod_eq_of_lt (by omega)
  rw [hserving]
  set s' := s.set { s.lock with serving := s.lock.serving + 1 } w .idle with hs'
  have hself : s'.number w = none := by
    simp [hs', State.number, State.set]
  -- nobody else holds the lock, so the other tickets do not move with `serving`
  have hother : ∀ v, v ≠ w → s'.number v = s.number v := by
    intro v hv
    have hnot : s.pc v ≠ .holding := by
      intro hvh
      exact hv (h.inj v w _ (by simp [State.number, hvh]) hw)
    rcases hpc : s.pc v with _ | _ | _ | _
    · simp [hs', State.number, State.set, hv, hpc]
    · simp [hs', State.number, State.set, hv, hpc]
    · simp [hs', State.number, State.set, hv, hpc]
    · exact absurd hpc hnot
  have hback : ∀ v n, s'.number v = some n → v ≠ w ∧ s.number v = some n := by
    intro v n hv
    have hvw : v ≠ w := by
      rintro rfl
      rw [hself] at hv
      cases hv
    exact ⟨hvw, hother v hvw ▸ hv⟩
  refine ⟨h.on, ?_, h.next_le, ?_, ?_, ?_, h.lost_lt⟩
  · show s.lock.serving + 1 ≤ s.lock.next
    omega
  · intro v v' n hv hv'
    exact h.inj v v' n (hback v n hv).2 (hback v' n hv').2
  · intro v n hv
    obtain ⟨hvw, hold⟩ := hback v n hv
    obtain ⟨h₁, h₂, h₃⟩ := h.range v n hold
    have hne : n ≠ s.lock.serving := by
      rintro rfl
      exact hvw (h.inj v w _ hold hw)
    refine ⟨?_, h₂, h₃⟩
    show ((s.lock.serving + 1 : ℕ) : ℤ) ≤ n
    omega
  · intro n h₁ h₂ h₃
    have hle : ((s.lock.serving + 1 : ℕ) : ℤ) ≤ n := h₁
    obtain ⟨v, hv⟩ := h.cover n (by omega) h₂ h₃
    have hvw : v ≠ w := by
      rintro rfl
      rw [hw] at hv
      have := Option.some.inj hv
      omega
    exact ⟨v, (hother v hvw).trans hv⟩

/-- **One instruction.** -/
theorem inv_step (h : Inv lost s) {s' : State W} {i : Instr} {o : Option Bool}
    (hguard : guarded s (w, i) = true) (hstep : step s (w, i) = some (o, s')) : Inv lost s' := by
  rcases hpc : s.pc w with _ | ⟨ticket, tout⟩ | ⟨ticket, tout⟩ | _
  · cases i with
    | request tout now =>
      simp only [step, hpc, Option.some.injEq, Prod.mk.injEq] at hstep
      obtain ⟨-, rfl⟩ := hstep
      refine h.request hpc ?_ _
      simpa [guarded, givesUp, hpc] using hguard
    | _ => simp [step, hpc] at hstep
  · cases i with
    | swap =>
      have hw : s.number w = some ticket := by
        simp [State.number, hpc]
      simp only [step, hpc] at hstep
      split_ifs at hstep with hmiss
      · obtain ⟨-, rfl⟩ := Prod.mk.inj (Option.some.inj hstep)
        refine h.keep ?_
        simp [State.number, State.set, hpc]
      · obtain ⟨-, rfl⟩ := Prod.mk.inj (Option.some.inj hstep)
        refine h.keep ?_
        have hserved : s.lock.serving = wide ticket :=
          not_not.mp fun hne => hmiss ⟨h.on, hne⟩
        rw [hw, (h.wide_eq_iff hw).mp hserved]
        simp [State.number, State.set]
    | _ => simp [step, hpc] at hstep
  · cases i with
    | check now =>
      have hstay : ¬(0 < tout ∧ tout < now) := by
        intro htout
        simp [guarded, givesUp, hpc, htout] at hguard
      simp only [step, hpc, if_neg hstay, Option.some.injEq, Prod.mk.injEq] at hstep
      obtain ⟨-, rfl⟩ := hstep
      refine h.keep ?_
      simp [State.number, State.set, hpc]
    | _ => simp [step, hpc] at hstep
  · cases i with
    | unlock =>
      simp only [step, hpc, Option.some.injEq, Prod.mk.injEq] at hstep
      obtain ⟨-, rfl⟩ := hstep
      exact h.unlock hpc
    | _ => simp [step, hpc] at hstep

/-! ### Giving up -/

/-- A caller that gives up leaves its ticket to nobody. -/
theorem Inv.giveUp (h : Inv ∅ s) {ticket : ℤ} (hw : s.number w = some ticket) :
    Inv {ticket} (s.set s.lock w .idle) := by
  have hself : (s.set s.lock w .idle).number w = none := by
    simp [State.number, State.set]
  have hother : ∀ v, v ≠ w → (s.set s.lock w .idle).number v = s.number v := by
    intro v hv
    simp [State.number, State.set, hv]
  have hback : ∀ v n, (s.set s.lock w .idle).number v = some n → v ≠ w ∧ s.number v = some n := by
    intro v n hv
    have hvw : v ≠ w := by
      rintro rfl
      rw [hself] at hv
      cases hv
    exact ⟨hvw, hother v hvw ▸ hv⟩
  refine ⟨h.on, h.serving_le, h.next_le, ?_, ?_, ?_, ?_⟩
  · intro v v' n hv hv'
    exact h.inj v v' n (hback v n hv).2 (hback v' n hv').2
  · intro v n hv
    obtain ⟨hvw, hold⟩ := hback v n hv
    obtain ⟨h₁, h₂, -⟩ := h.range v n hold
    refine ⟨h₁, h₂, fun hlost => hvw ?_⟩
    obtain rfl : n = ticket := hlost
    exact h.inj v w n hold hw
  · intro n h₁ h₂ h₃
    obtain ⟨v, hv⟩ := h.cover n h₁ h₂ (Set.notMem_empty n)
    have hvw : v ≠ w := by
      rintro rfl
      rw [hw] at hv
      exact h₃ (Option.some.inj hv).symm
    exact ⟨v, (hother v hvw).trans hv⟩
  · intro n hn
    obtain rfl : n = ticket := hn
    exact (h.range w n hw).2.1

/-- The caller whose ticket is served takes the lock and gives it back. -/
theorem Inv.serve (h : Inv lost s) (hlt : s.lock.serving < s.lock.next)
    (hown : (s.lock.serving : ℤ) ∉ lost) :
    ∃ ms s', Run step s ms s' ∧ Inv lost s' ∧ s'.lock.serving = s.lock.serving + 1 := by
  have hnext := h.next_le
  have hmod : (s.lock.serving + 1) % 2 ^ 64 = s.lock.serving + 1 := Nat.mod_eq_of_lt (by omega)
  have hholding : ∀ u : State W, ∀ w, Inv lost u → u.lock = s.lock → u.pc w = .holding →
      ∃ ms s', Run step u ms s' ∧ Inv lost s' ∧ s'.lock.serving = s.lock.serving + 1 := by
    intro u w hu hlock hpc
    have hstep : step u (w, .unlock) =
        some (none, u.set { u.lock with serving := (u.lock.serving + 1) % 2 ^ 64 } w .idle) := by
      simp only [step, hpc]
    refine ⟨_, _, .snoc (.nil u) hstep, hu.unlock hpc, ?_⟩
    show (u.lock.serving + 1) % 2 ^ 64 = s.lock.serving + 1
    rw [hlock, hmod]
  have hspinning : ∀ u : State W, ∀ w tout, Inv lost u → u.lock = s.lock →
      u.pc w = .spinning s.lock.serving tout →
      ∃ ms s', Run step u ms s' ∧ Inv lost s' ∧ s'.lock.serving = s.lock.serving + 1 := by
    intro u w tout hu hlock hpc
    have hw : u.number w = some (u.lock.serving : ℤ) := by
      simp [State.number, hpc, hlock]
    have hserved := (hu.wide_eq_iff hw).mpr rfl
    obtain ⟨ms, s', hrun, hinv, hs'⟩ := hholding (u.set u.lock w .holding) w
      (hu.keep (by simp [State.number, State.set, hpc, hlock])) hlock (by simp [State.set])
    refine ⟨_, s', hrun.cons (i := (w, .swap)) (o := some true) ?_, hinv, hs'⟩
    simp only [step, hpc]
    rw [if_neg (by rw [← hlock, ← hserved]; simp)]
  obtain ⟨w, hw⟩ := h.cover s.lock.serving le_rfl (by omega) hown
  rcases hpc : s.pc w with _ | ⟨ticket, tout⟩ | ⟨ticket, tout⟩ | _
  · simp [State.number, hpc] at hw
  · obtain rfl : ticket = s.lock.serving := by simpa [State.number, hpc] using hw
    exact hspinning s w tout h rfl hpc
  · obtain rfl : ticket = s.lock.serving := by simpa [State.number, hpc] using hw
    obtain ⟨ms, s', hrun, hinv, hs'⟩ := hspinning (s.set s.lock w (.spinning s.lock.serving tout)) w
      tout (h.keep (by simp [State.number, State.set, hpc])) rfl (by simp [State.set])
    refine ⟨_, s', hrun.cons (i := (w, .check tout)) (o := none) ?_, hinv, hs'⟩
    simp only [step, hpc]
    rw [if_neg (by simp)]
  · exact hholding s w h rfl hpc

omit [DecidableEq W] in
/-- Once the lost ticket is served the lock is lost. -/
theorem Inv.not_sane {ticket : ℤ} (h : Inv {ticket} s) (hserved : s.lock.serving = ticket) :
    ¬Sane s := by
  intro hsane
  have hlt := h.lost_lt ticket rfl
  have hnobody : ∀ v, s.number v ≠ some (s.lock.serving : ℤ) := by
    intro v hv
    exact (h.range v _ hv).2.2 hserved
  have hfree : ∀ v, s.pc v ≠ .holding := by
    intro v hv
    exact hnobody v (by simp [State.number, hv])
  rcases hsane.served hfree with heq | ⟨v, t, ⟨tout, hpc⟩, hwide⟩
  · omega
  · have hv : s.number v = some t := by
      rcases hpc with hpc | hpc
      · simp [State.number, hpc]
      · simp [State.number, hpc]
    rw [← (h.wide_eq_iff hv).mp hwide.symm] at hnobody
    exact hnobody v hv

/-- The callers before a lost ticket are served, then the lock is lost. -/
theorem Inv.reaches_lost {ticket : ℤ} (h : Inv {ticket} s) (hle : s.lock.serving ≤ ticket) :
    ∃ ms s', Run step s ms s' ∧ ¬Sane s' := by
  induction hn : (ticket - s.lock.serving).toNat generalizing s with
  | zero => exact ⟨[], s, .nil s, h.not_sane (by omega)⟩
  | succ n ih =>
    have hlt := h.lost_lt ticket rfl
    have hne : (s.lock.serving : ℤ) ≠ ticket := by omega
    obtain ⟨ms, s', hrun, hinv, hs'⟩ := h.serve (by omega) hne
    obtain ⟨ms', s'', hrun', hbad⟩ := ih hinv (by omega) (by omega)
    exact ⟨_, s'', hrun.append hrun', hbad⟩

/-- What giving up does. -/
theorem step_givesUp {i : W × Instr} {o : Option Bool} {s' : State W} (hgive : givesUp s i = true)
    (hstep : step s i = some (o, s')) :
    ∃ ticket, s.number i.1 = some ticket ∧ s' = s.set s.lock i.1 .idle := by
  obtain ⟨w, i⟩ := i
  rcases hpc : s.pc w with _ | ⟨ticket, tout⟩ | ⟨ticket, tout⟩ | _
  · simp [givesUp, hpc] at hgive
  · simp [givesUp, hpc] at hgive
  · cases i with
    | check now =>
      have hlate : 0 < tout ∧ tout < now := by simpa [givesUp, hpc] using hgive
      simp only [step, hpc, if_pos hlate, Option.some.injEq, Prod.mk.injEq] at hstep
      exact ⟨ticket, by simp [State.number, hpc], hstep.2.symm⟩
    | _ => simp [givesUp, hpc] at hgive
  · simp [givesUp, hpc] at hgive

end Steps

/-! ### Runs -/

variable [DecidableEq W]

/-- **Runs without giving up.**  While nobody gives up and the tickets fit an `int`, one
caller at most holds the lock and it is never lost; and as soon as a caller gives up,
the others can go on to a state in which it is. -/
theorem sane_of_run {ms : List (Move (State W) (W × Instr) (Option Bool))} {s : State W}
    (h : Run step init ms s) (hG : ∀ m ∈ ms, guarded m.before m.input = true) :
    Sane s ∧ ∀ i o s', givesUp s i = true → step s i = some (o, s') →
      ∃ ms' t, Run step s' ms' t ∧ ¬Sane t := by
  have hinv : Inv ∅ s := h.rule (J := fun _ s => Inv ∅ s) (G := fun s i => guarded s i = true)
    inv_init (fun _ _ _ _ _ hJ hguard hstep => inv_step hJ hguard hstep) hG
  refine ⟨hinv.sane, fun i o s' hgive hstep => ?_⟩
  obtain ⟨ticket, hw, rfl⟩ := step_givesUp hgive hstep
  exact (hinv.giveUp hw).reaches_lost (hinv.range i.1 ticket hw).1

/-- Two callers, one after the other. -/
def taking : List (Bool × Instr) :=
  [(false, .request (-1) 0), (false, .swap), (true, .request 5 0), (true, .swap),
    (true, .check 4), (false, .unlock), (true, .swap)]

theorem sane_of_run_taking : ∃ s, Run step init (moves step init taking) s ∧ Sane s := by
  have hrun := run_final step init taking
  exact ⟨_, hrun, (sane_of_run hrun (by decide)).1⟩

/-- The second caller gives up before the first one is done. -/
def givingUp : List (Bool × Instr) :=
  [(false, .request (-1) 0), (false, .swap), (true, .request 5 0), (true, .swap),
    (true, .check 6), (false, .unlock)]

/-- Nobody holds the lock, ticket 1 is served, and it is neither the next one nor
anybody's. -/
theorem not_sane : ∃ s, Run step init (moves step init givingUp) s ∧ ¬Sane s := by
  refine ⟨_, run_final step init givingUp, fun hsane => ?_⟩
  have hfree : ∀ w, (final step init givingUp).pc w ≠ .holding := by decide
  rcases hsane.served hfree with heq | ⟨w, ticket, ⟨tout, hpc⟩, -⟩
  · exact absurd heq (by decide)
  · have hidle : (final step init givingUp).pc w = .idle := by
      cases w with
      | false => rfl
      | true => rfl
    rcases hpc with hpc | hpc
    · cases hidle.symm.trans hpc
    · cases hidle.symm.trans hpc


end Suil.Lock
