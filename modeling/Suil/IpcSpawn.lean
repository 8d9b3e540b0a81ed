/-
The parent of the workers (`ipc::spawn`).

The parent counts the `SIGCHLD`s that it has handled, takes one child that has exited in
every round, and waits for the next signal in between; another signal makes it stop the
workers and wait for the rest of them.  The handler writes a byte only when the signal is not
the one that was received last.

* `Inv.step` — the exits that were counted, or whose signal is on its way, are all of them;
* `leaves_of_checking` — the last loop ends when every exit is counted that was waited for;
* `Inv.leaves` — the parent leaves when all workers have exited;
* `run_leaves` — and so it does in runs in which no `SIGCHLD` is lost.
-/
import Suil.Lib.Runs

open Runs

namespace Suil

namespace IpcSpawn

/-- A child, for its parent: it runs, it has exited and is waited for, or was waited for. -/
inductive Status where
  | running
  | exited
  | reaped
deriving DecidableEq

/-- Where the parent stands: before its handlers are installed; in its post spawn delegate; before
`if (sigReceived)`, before it looks again whether that is `SIGCHLD`, behind `done++`, and before
`done` is compared; in `waitForSignal`; before `while (done < IPC->nworkers)` and in the loop over
the workers; or behind it all. -/
inductive Pc where
  | starting
  | delegating
  | top
  | deciding
  | clearing
  | testing
  | waiting
  | checking
  | passing (w : ℕ)
  | left
deriving DecidableEq

def sigchld : ℕ := 17

/-- The parent: `sigReceived`, `done`, the bytes in `signalNotif`, whether a `SIGCHLD` is to be
delivered, the children and the `active` flags. -/
structure State where
  pc : Pc := .starting
  sigReceived : ℕ := 0
  done : ℕ := 0
  bytes : ℕ := 0
  pending : Bool := false
  status : ℕ → Status := fun _ => .running
  active : ℕ → Bool := fun _ => false

/-- Any child that has exited, as `waitpid` takes one. -/
structure WaitAny (n : ℕ) where
  pick : (ℕ → Status) → Option ℕ
  exited : ∀ st w, pick st = some w → w ∈ Finset.Icc 1 n ∧ st w = .exited
  least : ∀ st, pick st = none → ∀ w ∈ Finset.Icc 1 n, st w ≠ .exited

/-- What happens next: a worker has run `init`, or exits; `SIGCHLD` is delivered, or another
signal; the delegate returns, if there is one; or the parent goes on. -/
inductive Op where
  | init (w : ℕ)
  | exit (w : ℕ)
  | deliver
  | signal (sig : ℕ)
  | delegate (result : Option ℕ)
  | parent
deriving DecidableEq

/-- `__on_signal` -/
def State.onSignal (s : State) (sig : ℕ) : State :=
  if s.sigReceived ≠ sig then { s with sigReceived := sig, bytes := s.bytes + 1 } else s

/-- No child is left, and `waitpid` fails. -/
def State.Childless (n : ℕ) (s : State) : Prop := ∀ w ∈ Finset.Icc 1 n, s.status w = .reaped

instance (n : ℕ) (s : State) : Decidable (s.Childless n) :=
  inferInstanceAs (Decidable (∀ w ∈ Finset.Icc 1 n, s.status w = .reaped))

def State.reap (s : State) (w : ℕ) : State :=
  { s with
    status := Function.update s.status w .reaped
    active := Function.update s.active w false }

/-- `done++`, in eight bits. -/
def State.count (s : State) : State := { s with done := (s.done + 1) % 256 }

def State.goto (s : State) (pc : Pc) : State := { s with pc := pc }

/-- The next step of the parent, none when it is blocked. -/
def parent (n : ℕ) (any : WaitAny n) (s : State) : Option State :=
  match s.pc with
  | .starting => some (s.goto .delegating)
  | .delegating => none
  | .top => some (s.goto (if s.sigReceived = 0 then .testing else .deciding))
  | .deciding =>
    some (if s.sigReceived ≠ sigchld then s.goto .checking else s.count.goto .clearing)
  | .clearing => some ({ s with sigReceived := 0 }.goto .testing)
  | .testing =>
    if n ≤ s.done ∨ s.Childless n then some (s.goto .left)
    else
      match any.pick s.status with
      | some w => some ((s.reap w).goto .waiting)
      | none => some (s.goto .waiting)
  | .waiting => if s.bytes = 0 then none else some ({ s with bytes := s.bytes - 1 }.goto .top)
  | .checking => some (s.goto (if s.done < n then .passing 1 else .left))
  | .passing w =>
    if n < w then some (s.goto .checking)
    else if s.active w = false then some (s.goto (.passing (w + 1)))
    else if s.Childless n then some (s.goto .checking)
    else (any.pick s.status).map fun v => (s.reap v).count.goto (.passing (w + 1))
  | .left => none

/-- Before the handlers are installed a `SIGCHLD` is ignored, and another signal ends the parent. -/
def step (n : ℕ) (any : WaitAny n) (s : State) : Op → Option (Unit × State)
  | .init w =>
    if w ∈ Finset.Icc 1 n ∧ s.status w = .running then
      some ((), { s with active := Function.update s.active w true })
    else none
  | .exit w =>
    if w ∈ Finset.Icc 1 n ∧ s.status w = .running then
      some ((), { s with
        status := Function.update s.status w .exited
        pending := s.pending || s.pc != .starting })
    else none
  | .deliver => if s.pending then some ((), { s with pending := false }.onSignal sigchld) else none
  | .signal sig =>
    if sig = 0 ∨ sig = sigchld ∨ s.pc = .starting then none else some ((), s.onSignal sig)
  | .delegate result =>
    if s.pc = .delegating then
      some ((), { s with sigReceived := result.getD s.sigReceived }.goto .top)
    else none
  | .parent => (parent n any s).map ((), ·)

/-- The workers that were waited for, and those that have exited. -/
def State.reaped (n : ℕ) (s : State) : ℕ :=
  ((Finset.Icc 1 n).filter fun w => s.status w = .reaped).card

def State.exited (n : ℕ) (s : State) : ℕ :=
  ((Finset.Icc 1 n).filter fun w => s.status w ≠ .running).card

/-- The parent leaves its loop, going on alone. -/
inductive Leaves (n : ℕ) (any : WaitAny n) : State → Prop where
  | left {s : State} : s.pc = .left → Leaves n any s
  | step {s u : State} : parent n any s = some u → Leaves n any u → Leaves n any s

def Pc.InLoop (pc : Pc) : Prop := pc ≠ .starting ∧ pc ≠ .delegating

/-- Once all workers have exited and no signal is on its way, the parent leaves its loop. -/
def Right (n : ℕ) (any : WaitAny n) (s : State) : Prop :=
  s.pc.InLoop → (∀ w ∈ Finset.Icc 1 n, s.status w ≠ .running) → s.pending = false →
    Leaves n any s

/-- The parent is in the loop that waits for the last workers, or behind it. -/
def Pc.Stopping : Pc → Prop
  | .checking | .passing _ | .left => True
  | _ => False

/-- No `SIGCHLD` is lost: a worker exits behind its `init`, when the handler is installed and the
last `SIGCHLD` was delivered; `SIGCHLD` is delivered when the last one was counted and cleared; no
other signal and no result of the delegate replaces one that was not counted; and a signal that
stops the workers is not handled while a worker was waited for that was not counted. -/
def Allowed (n : ℕ) (s : State) : Op → Prop
  | .init _ => True
  | .exit w => s.active w = true ∧
    (¬ s.pc.Stopping → s.pc ≠ .starting ∧ s.pending = false)
  | .deliver => ¬ s.pc.Stopping → s.sigReceived ≠ sigchld ∧ s.pc ≠ .clearing
  | .signal _ => s.pc.Stopping ∨ s.sigReceived ≠ sigchld ∨ s.pc = .clearing
  | .delegate result => ∀ r ∈ result, s.sigReceived ≠ sigchld ∧ r ≠ sigchld
  | .parent => s.pc = .deciding → s.sigReceived ≠ sigchld → s.reaped n ≤ s.done

/-- A worker that has exited and was not waited for is active, one that was waited for is not. -/
structure Sound (n : ℕ) (s : State) : Prop where
  exited : ∀ w ∈ Finset.Icc 1 n, s.status w = .exited → s.active w = true
  reaped : ∀ w ∈ Finset.Icc 1 n, s.status w = .reaped → s.active w = false

/-- One when a `SIGCHLD` was received that is not counted yet. -/
def State.received (s : State) : ℕ :=
  if s.sigReceived = sigchld ∧ s.pc ≠ .clearing then 1 else 0

/-- The exits are those that were counted, and those whose signal was received or is on its way; no
more were counted than were waited for, but for the one that is being handled. -/
structure Inv (n : ℕ) (s : State) : Prop where
  sound : Sound n s
  account : ¬ s.pc.Stopping → s.exited n = s.done + s.received + (if s.pending then 1 else 0)
  behind : ¬ s.pc.Stopping →
    s.done ≤ s.reaped n + (if s.pc = .clearing ∨ s.pc = .testing then 1 else 0)
  bytes : s.pc = .testing ∨ s.pc = .waiting → s.sigReceived ≠ 0 → 0 < s.bytes
  waiting : s.pc = .waiting → s.done < n
  first : ∀ w, s.pc = .passing w → 0 < w
  stopping : s.pc.Stopping → s.pc ≠ .left → s.done = s.reaped n

section Counts

variable {n : ℕ} {s u : State} {w : ℕ} {v : Status} {any : WaitAny n}

theorem card_update_of_not (hw : w ∈ Finset.Icc 1 n) (st : ℕ → Status) {q : Status → Prop}
    [DecidablePred q] (hbefore : ¬ q (st w)) (hafter : q v) :
    ((Finset.Icc 1 n).filter fun i => q (Function.update st w v i)).card =
      ((Finset.Icc 1 n).filter fun i => q (st i)).card + 1 := by
  have hinsert : ((Finset.Icc 1 n).filter fun i => q (Function.update st w v i)) =
      insert w ((Finset.Icc 1 n).filter fun i => q (st i)) := by
    ext i
    rw [Finset.mem_insert, Finset.mem_filter, Finset.mem_filter]
    by_cases hi : i = w
    · subst hi
      rw [Function.update_self]
      exact iff_of_true ⟨hw, hafter⟩ (.inl rfl)
    · rw [Function.update_of_ne hi, or_iff_right hi]
  rw [hinsert, Finset.card_insert_of_notMem]
  exact fun hin => hbefore (Finset.mem_filter.mp hin).2

theorem card_update_of_iff (st : ℕ → Status) {q : Status → Prop} [DecidablePred q]
    (hiff : q (st w) ↔ q v) :
    ((Finset.Icc 1 n).filter fun i => q (Function.update st w v i)).card =
      ((Finset.Icc 1 n).filter fun i => q (st i)).card := by
  congr 1
  refine Finset.filter_congr fun i _ => ?_
  by_cases hi : i = w
  · subst hi
    rw [Function.update_self, hiff]
  · rw [Function.update_of_ne hi]

theorem reaped_le_exited (n : ℕ) (s : State) : s.reaped n ≤ s.exited n := by
  refine Finset.card_le_card fun w hw => ?_
  obtain ⟨hin, hreaped⟩ := Finset.mem_filter.mp hw
  refine Finset.mem_filter.mpr ⟨hin, ?_⟩
  rw [hreaped]
  exact nofun

theorem exited_le (n : ℕ) (s : State) : s.exited n ≤ n := by
  refine (Finset.card_filter_le _ _).trans_eq ?_
  rw [Nat.card_Icc, Nat.add_sub_cancel]

theorem exited_eq (hall : ∀ w ∈ Finset.Icc 1 n, s.status w ≠ .running) : s.exited n = n := by
  rw [State.exited, Finset.filter_true_of_mem hall, Nat.card_Icc, Nat.add_sub_cancel]

/-- A child that has exited is there to be waited for. -/
theorem exists_exited (h : s.reaped n < s.exited n) :
    ∃ w ∈ Finset.Icc 1 n, s.status w = .exited := by
  by_contra hnone
  refine absurd h (not_lt.mpr (Finset.card_le_card fun w hw => ?_))
  obtain ⟨hin, hrunning⟩ := Finset.mem_filter.mp hw
  refine Finset.mem_filter.mpr ⟨hin, ?_⟩
  cases hst : s.status w with
  | running => exact absurd hst hrunning
  | exited => exact absurd ⟨w, hin, hst⟩ hnone
  | reaped => rfl

theorem pick_of_exited (hw : w ∈ Finset.Icc 1 n) (hst : s.status w = .exited) :
    ∃ v, any.pick s.status = some v := by
  refine Option.ne_none_iff_exists'.mp fun hnone => ?_
  exact any.least _ hnone w hw hst

theorem reap_reaped (hw : w ∈ Finset.Icc 1 n) (hst : s.status w = .exited) :
    (s.reap w).reaped n = s.reaped n + 1 := by
  refine card_update_of_not hw s.status (q := fun x => x = .reaped) ?_ rfl
  rw [hst]
  exact nofun

theorem reap_exited (hst : s.status w = .exited) : (s.reap w).exited n = s.exited n := by
  refine card_update_of_iff s.status (q := fun x => x ≠ .running) ?_
  rw [hst]
  exact iff_of_true nofun nofun

theorem received_of_ne (h : s.pc ≠ .clearing) :
    s.received = if s.sigReceived = sigchld then 1 else 0 := by
  simp only [State.received, ne_eq, h, not_false_eq_true, and_true]

theorem received_goto {pc : Pc} (h : pc ≠ .clearing) :
    (s.goto pc).received = if s.sigReceived = sigchld then 1 else 0 := received_of_ne h

theorem received_of_clearing (h : s.pc = .clearing) : s.received = 0 :=
  if_neg fun hand => hand.2 h

theorem reap_status_self : (s.reap w).status w = .reaped := Function.update_self _ _ _

theorem reap_active_self : (s.reap w).active w = false := Function.update_self _ _ _

theorem reap_status_of_ne {i : ℕ} (h : i ≠ w) : (s.reap w).status i = s.status i :=
  Function.update_of_ne h _ _

theorem reap_active_of_ne {i : ℕ} (h : i ≠ w) : (s.reap w).active i = s.active i :=
  Function.update_of_ne h _ _

theorem Sound.reap (h : Sound n s) (w : ℕ) : Sound n (s.reap w) := by
  refine ⟨fun i hi hst => ?_, fun i hi hst => ?_⟩
  · by_cases hiw : i = w
    · subst hiw
      rw [reap_status_self] at hst
      cases hst
    · rw [reap_status_of_ne hiw] at hst
      rw [reap_active_of_ne hiw]
      exact h.exited i hi hst
  · by_cases hiw : i = w
    · subst hiw
      exact reap_active_self
    · rw [reap_status_of_ne hiw] at hst
      rw [reap_active_of_ne hiw]
      exact h.reaped i hi hst

theorem reap_all (hall : ∀ i ∈ Finset.Icc 1 n, s.status i ≠ .running) (w : ℕ) :
    ∀ i ∈ Finset.Icc 1 n, (s.reap w).status i ≠ .running := by
  intro i hi
  by_cases hiw : i = w
  · subst hiw
    rw [reap_status_self]
    exact nofun
  · rw [reap_status_of_ne hiw]
    exact hall i hi

/-- `done` does not overflow as long as it is at most the number of workers. -/
theorem count_done (hn : n < 256) (h : s.done < n) : s.count.done = s.done + 1 :=
  Nat.mod_eq_of_lt (by omega)

end Counts

section Leaving

variable {n : ℕ} {any : WaitAny n} {s u : State}

/-- All workers have exited, and those that were waited for are counted. -/
structure Stopped (n : ℕ) (s : State) : Prop where
  sound : Sound n s
  all : ∀ w ∈ Finset.Icc 1 n, s.status w ≠ .running
  counted : s.done = s.reaped n

theorem Stopped.goto (h : Stopped n s) (pc : Pc) : Stopped n (s.goto pc) :=
  ⟨⟨h.sound.exited, h.sound.reaped⟩, h.all, h.counted⟩

/-- A pass over the workers ends, and waits for one of them at least if any is active. -/
theorem leaves_of_passing (hn : n < 256) (m w : ℕ) (hm : n + 1 - w = m) (hw : 0 < w)
    (h : Stopped n s) (hpc : s.pc = .passing w)
    (hnext : ∀ u, Stopped n u → u.pc = .checking → s.reaped n ≤ u.reaped n →
      ((∃ i, w ≤ i ∧ i ≤ n ∧ s.active i = true) → s.reaped n < u.reaped n) → Leaves n any u) :
    Leaves n any s := by
  induction m generalizing s w with
  | zero =>
    have hlt : n < w := by omega
    refine .step (by rw [parent, hpc]; simp only [if_pos hlt]) (hnext _ (h.goto _) rfl le_rfl ?_)
    rintro ⟨i, hwi, hin, -⟩
    omega
  | succ m ih =>
    have hle : ¬ n < w := by omega
    have hmem : w ∈ Finset.Icc 1 n := Finset.mem_Icc.mpr ⟨hw, not_lt.mp hle⟩
    cases hactive : s.active w with
    | false =>
      refine .step (u := s.goto (.passing (w + 1))) ?_ ?_
      · rw [parent, hpc]
        simp only [if_neg hle, if_pos hactive]
      refine ih (w + 1) (by omega) (Nat.succ_pos w) (h.goto _) rfl fun u hu hupc hreaped hsome => ?_
      refine hnext u hu hupc hreaped ?_
      rintro ⟨i, hwi, hin, hi⟩
      refine hsome ⟨i, ?_, hin, hi⟩
      rcases hwi.eq_or_lt with rfl | hlt
      · rw [hactive] at hi
        cases hi
      · exact hlt
    | true =>
      -- an active worker has exited, and so `waitpid` takes one
      have hst : s.status w = .exited := by
        cases hst : s.status w with
        | running => exact absurd hst (h.all w hmem)
        | exited => rfl
        | reaped =>
          rw [h.sound.reaped w hmem hst] at hactive
          cases hactive
      obtain ⟨v, hv⟩ : ∃ v, any.pick s.status = some v := pick_of_exited hmem hst
      obtain ⟨hvmem, hvst⟩ := any.exited _ v hv
      have hchild : ¬ s.Childless n := by
        intro hless
        rw [hless w hmem] at hst
        cases hst
      have hlt : s.reaped n < n := by
        have hreap := reap_reaped hvmem hvst
        have hle₁ := reaped_le_exited n (s.reap v)
        have hle₂ := exited_le n (s.reap v)
        omega
      have hreap : (s.reap v).reaped n = s.reaped n + 1 := reap_reaped hvmem hvst
      refine .step (u := (s.reap v).count.goto (.passing (w + 1))) ?_ ?_
      · rw [parent, hpc]
        simp only [if_neg hle, hactive, Bool.true_eq_false, if_false, if_neg hchild, hv,
          Option.map_some]
      · have hdone : (s.reap v).done < n := by
          show s.done < n
          rw [h.counted]
          exact hlt
        have hcounted : (s.reap v).count.done = (s.reap v).reaped n := by
          rw [count_done hn hdone, hreap, ← h.counted]
          rfl
        have hstopped : Stopped n (s.reap v).count :=
          ⟨⟨(h.sound.reap v).exited, (h.sound.reap v).reaped⟩, reap_all h.all v, hcounted⟩
        refine ih (w + 1) (by omega) (Nat.succ_pos w) (hstopped.goto _) rfl
          fun u hu hupc hreaped _ => ?_
        have hmore : s.reaped n < u.reaped n := by
          refine lt_of_lt_of_le ?_ hreaped
          show s.reaped n < (s.reap v).reaped n
          omega
        exact hnext u hu hupc hmore.le fun _ => hmore

/-- **The loop that waits for the last workers** ends when all of them have exited and those that
were waited for are counted. -/
theorem leaves_of_checking (hn : n < 256) (k : ℕ) (hk : n - s.reaped n = k) (h : Stopped n s)
    (hpc : s.pc = .checking) : Leaves n any s := by
  induction k using Nat.strong_induction_on generalizing s with
  | _ k ih =>
    by_cases hdone : s.done < n
    · refine .step (u := s.goto (.passing 1)) (by rw [parent, hpc]; simp only [if_pos hdone]) ?_
      have hlt : s.reaped n < s.exited n := by
        rw [exited_eq h.all, ← h.counted]
        exact hdone
      obtain ⟨w, hw, hst⟩ := exists_exited hlt
      have hactive := h.sound.exited w hw hst
      obtain ⟨hw₁, hwn⟩ := Finset.mem_Icc.mp hw
      refine leaves_of_passing hn _ 1 rfl one_pos (h.goto _) rfl fun u hu hupc _ hsome => ?_
      have hmore : s.reaped n < u.reaped n := hsome ⟨w, hw₁, hwn, hactive⟩
      have hle := (reaped_le_exited n u).trans (exited_le n u)
      exact ih (n - u.reaped n) (by omega) rfl hu hupc
    · exact .step (u := s.goto .left) (by rw [parent, hpc]; simp only [if_neg hdone]) (.left rfl)

theorem leaves_of_testing (hpc : s.pc = .testing) (hdone : n ≤ s.done) : Leaves n any s :=
  .step (u := s.goto .left) (by rw [parent, hpc]; simp only [if_pos (Or.inl hdone)]) (.left rfl)

theorem leaves_of_clearing (hpc : s.pc = .clearing) (hdone : n ≤ s.done) : Leaves n any s :=
  .step (u := { s with sigReceived := 0 }.goto .testing) (by rw [parent, hpc])
    (leaves_of_testing rfl hdone)

/-- With the last `SIGCHLD` received every worker is counted. -/
theorem leaves_of_deciding (hn : n < 256) (hpc : s.pc = .deciding)
    (hcount : n = s.done + if s.sigReceived = sigchld then 1 else 0) : Leaves n any s := by
  by_cases hsig : s.sigReceived = sigchld
  · rw [if_pos hsig] at hcount
    have hlt : s.done < n := by omega
    refine .step (u := s.count.goto .clearing) ?_ (leaves_of_clearing rfl ?_)
    · rw [parent, hpc]
      simp only [if_neg (not_not.mpr hsig)]
    · show n ≤ s.count.done
      rw [count_done hn hlt]
      exact hcount.le
  · rw [if_neg hsig] at hcount
    refine .step (u := s.goto .checking) ?_ (.step (u := s.goto .left) ?_ (.left rfl))
    · rw [parent, hpc]
      simp only [if_pos hsig]
    · have hdone : ¬ (s.goto .checking).done < n := not_lt.mpr hcount.le
      show some ((s.goto .checking).goto _) = _
      rw [if_neg hdone]
      rfl

theorem leaves_of_top (hn : n < 256) (hpc : s.pc = .top)
    (hcount : n = s.done + if s.sigReceived = sigchld then 1 else 0) : Leaves n any s := by
  by_cases hzero : s.sigReceived = 0
  · refine .step (u := s.goto .testing) ?_ (leaves_of_testing rfl ?_)
    · rw [parent, hpc]
      simp only [if_pos hzero]
    · rw [hzero, if_neg (by decide)] at hcount
      exact hcount.le
  · refine .step (u := s.goto .deciding) ?_ (leaves_of_deciding hn rfl hcount)
    rw [parent, hpc]
    simp only [if_neg hzero]

/-- A signal that was received has left its byte. -/
theorem leaves_of_waiting (hn : n < 256) (hpc : s.pc = .waiting) (hlt : s.done < n)
    (hbytes : s.sigReceived ≠ 0 → 0 < s.bytes)
    (hcount : n = s.done + if s.sigReceived = sigchld then 1 else 0) : Leaves n any s := by
  have hsig : s.sigReceived = sigchld := by
    by_contra hsig
    rw [if_neg hsig] at hcount
    omega
  have hpos : 0 < s.bytes := hbytes (by rw [hsig]; decide)
  refine .step (u := { s with bytes := s.bytes - 1 }.goto .top) ?_ (leaves_of_top hn rfl hcount)
  rw [parent, hpc]
  simp only [if_neg hpos.ne']

/-- **The parent leaves** when all workers have exited and no signal is on its way. -/
theorem Inv.leaves (hinv : Inv n s) (hn : n < 256) (hloop : s.pc.InLoop)
    (hall : ∀ w ∈ Finset.Icc 1 n, s.status w ≠ .running) (hpending : s.pending = false) :
    Leaves n any s := by
  have haccount : ¬ s.pc.Stopping → s.pc ≠ .clearing →
      n = s.done + if s.sigReceived = sigchld then 1 else 0 := by
    intro hgoing hclearing
    have heq := hinv.account hgoing
    rwa [exited_eq hall, hpending, received_of_ne hclearing] at heq
  have hstopped : s.pc.Stopping → s.pc ≠ .left → Stopped n s := fun hstop hleft =>
    ⟨hinv.sound, hall, hinv.stopping hstop hleft⟩
  cases hpc : s.pc with
  | starting => exact absurd hpc hloop.1
  | delegating => exact absurd hpc hloop.2
  | left => exact .left hpc
  | checking =>
    have hstop := hstopped (by rw [hpc]; trivial) (by rw [hpc]; exact nofun)
    exact leaves_of_checking hn _ rfl hstop hpc
  | passing w =>
    refine leaves_of_passing hn _ w rfl (hinv.first w hpc)
      (hstopped (by rw [hpc]; trivial) (by rw [hpc]; exact nofun)) hpc fun u hu hupc _ _ => ?_
    exact leaves_of_checking hn _ rfl hu hupc
  | top =>
    exact leaves_of_top hn hpc (haccount (by rw [hpc]; exact id) (by rw [hpc]; exact nofun))
  | deciding =>
    exact leaves_of_deciding hn hpc (haccount (by rw [hpc]; exact id) (by rw [hpc]; exact nofun))
  | clearing =>
    have heq := hinv.account (by rw [hpc]; exact id)
    rw [exited_eq hall, hpending, received_of_clearing hpc] at heq
    exact leaves_of_clearing hpc heq.le
  | testing =>
    have hcount := haccount (by rw [hpc]; exact id) (by rw [hpc]; exact nofun)
    have hbytes := hinv.bytes (.inl hpc)
    by_cases hend : n ≤ s.done ∨ s.Childless n
    · exact .step (u := s.goto .left) (by rw [parent, hpc]; simp only [if_pos hend]) (.left rfl)
    · have hlt : s.done < n := not_le.mp (not_or.mp hend).1
      cases hpick : any.pick s.status with
      | none =>
        refine .step (u := s.goto .waiting) ?_ (leaves_of_waiting hn rfl hlt hbytes hcount)
        rw [parent, hpc]
        simp only [if_neg hend, hpick]
      | some w =>
        refine .step (u := (s.reap w).goto .waiting) ?_
          (leaves_of_waiting hn rfl hlt hbytes hcount)
        rw [parent, hpc]
        simp only [if_neg hend, hpick]
  | waiting =>
    exact leaves_of_waiting hn hpc (hinv.waiting hpc) (hinv.bytes (.inr hpc))
      (haccount (by rw [hpc]; exact id) (by rw [hpc]; exact nofun))

end Leaving

section Steps

variable {n : ℕ} {any : WaitAny n} {s u : State} {w : ℕ}

theorem Inv.empty (n : ℕ) : Inv n {} := by
  have hnone : ∀ w ∈ Finset.Icc 1 n, ¬ (Status.running ≠ Status.running) := fun _ _ hne => hne rfl
  have hexited : State.exited n {} = 0 := by
    rw [State.exited, Finset.filter_false_of_mem hnone]
    rfl
  refine ⟨⟨nofun, nofun⟩, fun _ => ?_, fun _ => Nat.zero_le _, nofun, nofun, nofun, ?_⟩
  · rw [hexited]
    rfl
  · intro hstop
    cases hstop

/-- Only the signals change. -/
theorem Inv.transfer (hinv : Inv n s) (hpc : u.pc = s.pc) (hstatus : u.status = s.status)
    (hactive : u.active = s.active) (hdone : u.done = s.done)
    (haccount : ¬ s.pc.Stopping →
      u.received + (if u.pending then 1 else 0) = s.received + (if s.pending then 1 else 0))
    (hbytes : s.pc = .testing ∨ s.pc = .waiting → u.sigReceived ≠ 0 → 0 < u.bytes) : Inv n u := by
  have hexited : u.exited n = s.exited n := by rw [State.exited, State.exited, hstatus]
  have hreaped : u.reaped n = s.reaped n := by rw [State.reaped, State.reaped, hstatus]
  refine ⟨⟨?_, ?_⟩, ?_, ?_, ?_, ?_, ?_, ?_⟩
  · rw [hstatus, hactive]
    exact hinv.sound.exited
  · rw [hstatus, hactive]
    exact hinv.sound.reaped
  · rw [hpc, hexited, hdone, Nat.add_assoc]
    intro hgoing
    rw [haccount hgoing, ← Nat.add_assoc]
    exact hinv.account hgoing
  · rw [hpc, hreaped, hdone]
    exact hinv.behind
  · rw [hpc]
    exact hbytes
  · rw [hpc, hdone]
    exact hinv.waiting
  · rw [hpc]
    exact hinv.first
  · rw [hpc, hreaped, hdone]
    exact hinv.stopping

theorem onSignal_bytes {sig : ℕ} (h : s.sigReceived ≠ 0 → 0 < s.bytes) :
    (s.onSignal sig).sigReceived ≠ 0 → 0 < (s.onSignal sig).bytes := by
  rw [State.onSignal]
  split_ifs
  · exact fun _ => Nat.succ_pos _
  · exact h

theorem onSignal_sigReceived (sig : ℕ) : (s.onSignal sig).sigReceived = sig := by
  rw [State.onSignal]
  split_ifs with hsig
  · rfl
  · exact not_not.mp hsig

theorem onSignal_fields (sig : ℕ) : (s.onSignal sig).pc = s.pc ∧
    (s.onSignal sig).status = s.status ∧ (s.onSignal sig).active = s.active ∧
    (s.onSignal sig).done = s.done ∧ (s.onSignal sig).pending = s.pending := by
  rw [State.onSignal]
  split_ifs
  · exact ⟨rfl, rfl, rfl, rfl, rfl⟩
  · exact ⟨rfl, rfl, rfl, rfl, rfl⟩

theorem Inv.init (hinv : Inv n s) (hstep : step n any s (.init w) = some ((), u)) : Inv n u := by
  rw [step] at hstep
  split_ifs at hstep with hw
  obtain rfl := (Prod.mk.inj (Option.some.inj hstep)).2
  refine ⟨⟨fun i hi hst => ?_, fun i hi hst => ?_⟩, hinv.account, hinv.behind, hinv.bytes,
    hinv.waiting, hinv.first, hinv.stopping⟩
  · by_cases hiw : i = w
    · rw [hiw]
      exact Function.update_self _ _ _
    · exact (Function.update_of_ne hiw _ _).trans (hinv.sound.exited i hi hst)
  · by_cases hiw : i = w
    · subst hiw
      exact absurd (hw.2.symm.trans hst) nofun
    · exact (Function.update_of_ne hiw _ _).trans (hinv.sound.reaped i hi hst)

theorem Inv.exit (hinv : Inv n s) (hallowed : Allowed n s (.exit w))
    (hstep : step n any s (.exit w) = some ((), u)) : Inv n u := by
  rw [step] at hstep
  split_ifs at hstep with hw
  obtain rfl := (Prod.mk.inj (Option.some.inj hstep)).2
  obtain ⟨hmem, hrunning⟩ := hw
  obtain ⟨hactive, hsignal⟩ := hallowed
  have hreaped : ((Finset.Icc 1 n).filter fun i =>
      Function.update s.status w .exited i = .reaped).card = s.reaped n := by
    refine card_update_of_iff s.status (q := fun x => x = .reaped) ?_
    rw [hrunning]
    exact iff_of_false nofun nofun
  have hexited : ((Finset.Icc 1 n).filter fun i =>
      Function.update s.status w .exited i ≠ .running).card = s.exited n + 1 := by
    refine card_update_of_not hmem s.status (q := fun x => x ≠ .running) ?_ nofun
    exact not_not.mpr hrunning
  refine ⟨⟨fun i hi hst => ?_, fun i hi hst => ?_⟩, fun hgoing => ?_, fun hgoing => ?_, hinv.bytes,
    hinv.waiting, hinv.first, fun hstop hleft => ?_⟩
  · by_cases hiw : i = w
    · rw [hiw]
      exact hactive
    · exact hinv.sound.exited i hi ((Function.update_of_ne hiw _ _).symm.trans hst)
  · by_cases hiw : i = w
    · subst hiw
      exact absurd ((Function.update_self _ _ _).symm.trans hst) nofun
    · exact hinv.sound.reaped i hi ((Function.update_of_ne hiw _ _).symm.trans hst)
  · obtain ⟨hpc, hpending⟩ := hsignal hgoing
    have heq := hinv.account hgoing
    rw [hpending] at heq
    have hnew : (s.pending || s.pc != .starting) = true := by simp [hpc]
    show ((Finset.Icc 1 n).filter fun i => Function.update s.status w .exited i ≠ .running).card =
      s.done + _ + if (s.pending || s.pc != .starting) = true then 1 else 0
    rw [hexited, hnew, heq]
    rfl
  · show s.done ≤ ((Finset.Icc 1 n).filter fun i =>
      Function.update s.status w .exited i = .reaped).card + _
    rw [hreaped]
    exact hinv.behind hgoing
  · show s.done = ((Finset.Icc 1 n).filter fun i =>
      Function.update s.status w .exited i = .reaped).card
    rw [hreaped]
    exact hinv.stopping hstop hleft

theorem Inv.deliver (hinv : Inv n s) (hallowed : Allowed n s .deliver)
    (hstep : step n any s .deliver = some ((), u)) : Inv n u := by
  rw [step] at hstep
  split_ifs at hstep with hpending
  obtain rfl := (Prod.mk.inj (Option.some.inj hstep)).2
  obtain ⟨hpc, hstatus, hactive, hdone, hdelivered⟩ :=
    onSignal_fields (s := { s with pending := false }) sigchld
  refine hinv.transfer hpc hstatus hactive hdone (fun hgoing => ?_) fun hor =>
    onSignal_bytes (hinv.bytes hor)
  obtain ⟨hsig, hclearing⟩ := hallowed hgoing
  have hother : ({ s with pending := false }.onSignal sigchld).pc ≠ .clearing := by
    rw [hpc]
    exact hclearing
  rw [received_of_ne hother, received_of_ne hclearing, onSignal_sigReceived, hdelivered, hpending,
    if_pos rfl, if_neg hsig]
  rfl

theorem Inv.signal (hinv : Inv n s) {sig : ℕ} (hallowed : Allowed n s (.signal sig))
    (hstep : step n any s (.signal sig) = some ((), u)) : Inv n u := by
  rw [step] at hstep
  split_ifs at hstep with hsig
  obtain rfl := (Prod.mk.inj (Option.some.inj hstep)).2
  obtain ⟨hpc, hstatus, hactive, hdone, hpending⟩ := onSignal_fields (s := s) sig
  refine hinv.transfer hpc hstatus hactive hdone (fun hgoing => ?_) fun hor =>
    onSignal_bytes (hinv.bytes hor)
  -- the signal that was received last is no `SIGCHLD`, or was counted
  have hother : s.received = 0 := by
    refine if_neg ?_
    rintro ⟨hlast, hclearing⟩
    exact hallowed.elim hgoing fun hor => hor.elim (fun hne => hne hlast) hclearing
  have hnew : (s.onSignal sig).received = 0 := by
    refine if_neg ?_
    rintro ⟨hlast, -⟩
    rw [onSignal_sigReceived] at hlast
    exact hsig (.inr (.inl hlast))
  rw [hother, hnew, hpending]

theorem Inv.delegate (hinv : Inv n s) {result : Option ℕ}
    (hallowed : Allowed n s (.delegate result))
    (hstep : step n any s (.delegate result) = some ((), u)) : Inv n u := by
  rw [step] at hstep
  split_ifs at hstep with hpc
  obtain rfl := (Prod.mk.inj (Option.some.inj hstep)).2
  have hgoing : ¬ s.pc.Stopping := by
    rw [hpc]
    exact id
  have hsig : (result.getD s.sigReceived = sigchld) ↔ s.sigReceived = sigchld := by
    cases result with
    | none => exact Iff.rfl
    | some r =>
      obtain ⟨hold, hnew⟩ := hallowed r rfl
      exact iff_of_false hnew hold
  have haccount := hinv.account hgoing
  have hbehind := hinv.behind hgoing
  rw [received_of_ne (by rw [hpc]; exact nofun)] at haccount
  rw [hpc] at hbehind
  refine ⟨⟨hinv.sound.exited, hinv.sound.reaped⟩, fun _ => ?_, fun _ => hbehind, ?_, nofun, nofun,
    fun hstop => hstop.elim⟩
  · rw [received_goto (show Pc.top ≠ .clearing from nofun)]
    show s.exited n = s.done + (if result.getD s.sigReceived = sigchld then 1 else 0) + _
    rw [haccount]
    simp only [hsig]
    rfl
  · rintro (heq | heq)
    · cases heq
    · cases heq

/-- The first part of the loop, up to `done` being compared. -/
theorem Inv.parent_counting (hinv : Inv n s) (hn : n < 256) (hallowed : Allowed n s .parent)
    (hpc : s.pc = .top ∨ s.pc = .deciding ∨ s.pc = .clearing) (hstep : parent n any s = some u) :
    Inv n u := by
  rcases hpc with hpc | hpc | hpc
  · have haccount := hinv.account (by rw [hpc]; exact id)
    have hbehind := hinv.behind (by rw [hpc]; exact id)
    rw [received_of_ne (by rw [hpc]; exact nofun)] at haccount
    rw [hpc] at hbehind
    rw [parent, hpc] at hstep
    obtain rfl := Option.some.inj hstep
    split_ifs with hzero
    · refine ⟨⟨hinv.sound.exited, hinv.sound.reaped⟩, fun _ => ?_,
        fun _ => hbehind.trans (Nat.le_succ _), fun _ hne => absurd hzero hne, nofun, nofun,
        fun hstop => hstop.elim⟩
      rw [received_goto (show Pc.testing ≠ .clearing from nofun)]
      exact haccount
    · refine ⟨⟨hinv.sound.exited, hinv.sound.reaped⟩, fun _ => ?_, fun _ => hbehind,
        fun hor => hor.elim nofun nofun, nofun, nofun, fun hstop => hstop.elim⟩
      rw [received_goto (show Pc.deciding ≠ .clearing from nofun)]
      exact haccount
  · have haccount := hinv.account (by rw [hpc]; exact id)
    have hbehind : s.done ≤ s.reaped n := by
      have hle := hinv.behind (by rw [hpc]; exact id)
      rwa [hpc] at hle
    rw [received_of_ne (by rw [hpc]; exact nofun)] at haccount
    rw [parent, hpc] at hstep
    obtain rfl := Option.some.inj hstep
    split_ifs with hsig
    · -- the other loop starts with as many counted as were waited for
      exact ⟨⟨hinv.sound.exited, hinv.sound.reaped⟩, fun hgoing => absurd trivial hgoing,
        fun hgoing => absurd trivial hgoing, fun hor => hor.elim nofun nofun, nofun, nofun,
        fun _ _ => hbehind.antisymm (hallowed hpc hsig)⟩
    · have hchld : s.sigReceived = sigchld := not_not.mp hsig
      rw [if_pos hchld] at haccount
      have hlt : s.done < n := by
        have hle := exited_le n s
        omega
      have hcount : s.count.done = s.done + 1 := count_done hn hlt
      refine ⟨⟨hinv.sound.exited, hinv.sound.reaped⟩, fun _ => ?_, fun _ => ?_,
        fun hor => hor.elim nofun nofun, nofun, nofun, fun hstop => hstop.elim⟩
      · rw [received_of_clearing rfl]
        show s.exited n = s.count.done + 0 + _
        rw [hcount, haccount]
        rfl
      · show s.count.done ≤ s.reaped n + 1
        rw [hcount]
        exact Nat.succ_le_succ hbehind
  · have haccount := hinv.account (by rw [hpc]; exact id)
    have hbehind := hinv.behind (by rw [hpc]; exact id)
    rw [received_of_clearing hpc] at haccount
    rw [hpc] at hbehind
    rw [parent, hpc] at hstep
    obtain rfl := Option.some.inj hstep
    refine ⟨⟨hinv.sound.exited, hinv.sound.reaped⟩, fun _ => ?_, fun _ => hbehind,
      fun _ hne => absurd rfl hne, nofun, nofun, fun hstop => hstop.elim⟩
    rw [received_goto (show Pc.testing ≠ .clearing from nofun)]
    exact haccount

/-- `workerWait` in the loop takes a child when one was counted that was not waited for. -/
theorem Inv.parent_testing (hinv : Inv n s) (hpc : s.pc = .testing)
    (hstep : parent n any s = some u) : Inv n u := by
  have haccount := hinv.account (by rw [hpc]; exact id)
  have hbehind := hinv.behind (by rw [hpc]; exact id)
  have hbytes := hinv.bytes (.inl hpc)
  rw [received_of_ne (by rw [hpc]; exact nofun)] at haccount
  rw [hpc] at hbehind
  simp only [parent, hpc] at hstep
  split_ifs at hstep with hend
  · obtain rfl := Option.some.inj hstep
    exact ⟨⟨hinv.sound.exited, hinv.sound.reaped⟩, fun hgoing => absurd trivial hgoing,
      fun hgoing => absurd trivial hgoing, fun hor => hor.elim nofun nofun, nofun, nofun,
      fun _ hleft => absurd rfl hleft⟩
  · have hlt : s.done < n := not_le.mp (not_or.mp hend).1
    cases hpick : any.pick s.status with
    | none =>
      rw [hpick] at hstep
      obtain rfl := Option.some.inj hstep
      refine ⟨⟨hinv.sound.exited, hinv.sound.reaped⟩, fun _ => ?_, fun _ => ?_, fun _ => hbytes,
        fun _ => hlt, nofun, fun hstop => hstop.elim⟩
      · rw [received_goto (show Pc.waiting ≠ .clearing from nofun)]
        exact haccount
      · show s.done ≤ s.reaped n
        by_contra hmore
        have hsome : s.reaped n < s.exited n := by omega
        obtain ⟨w, hw, hst⟩ := exists_exited hsome
        exact any.least _ hpick w hw hst
    | some w =>
      rw [hpick] at hstep
      obtain rfl := Option.some.inj hstep
      obtain ⟨hw, hst⟩ := any.exited _ w hpick
      refine ⟨⟨(hinv.sound.reap w).exited, (hinv.sound.reap w).reaped⟩, fun _ => ?_, fun _ => ?_,
        fun _ => hbytes, fun _ => hlt, nofun, fun hstop => hstop.elim⟩
      · rw [received_goto (show Pc.waiting ≠ .clearing from nofun)]
        show (s.reap w).exited n = _
        rw [reap_exited hst]
        exact haccount
      · show s.done ≤ (s.reap w).reaped n
        rw [reap_reaped hw hst]
        exact hbehind

/-- The loop that waits for the last workers counts whom it takes. -/
theorem Inv.parent_stopping (hinv : Inv n s) (hn : n < 256) (hstop : s.pc.Stopping)
    (hstep : parent n any s = some u) : Inv n u := by
  have hstopping : ∀ t : State, t.pc.Stopping → Sound n t → (∀ w, t.pc = .passing w → 0 < w) →
      t.done = t.reaped n → Inv n t := by
    intro t htstop htsound hfirst hdone
    refine ⟨htsound, fun hgoing => absurd htstop hgoing, fun hgoing => absurd htstop hgoing, ?_, ?_,
      hfirst, fun _ _ => hdone⟩
    · rintro (heq | heq)
      · exact (heq ▸ htstop : Pc.Stopping .testing).elim
      · exact (heq ▸ htstop : Pc.Stopping .waiting).elim
    · intro heq
      exact (heq ▸ htstop : Pc.Stopping .waiting).elim
  cases hpc : s.pc with
  | checking =>
    have hdone := hinv.stopping hstop (by rw [hpc]; exact nofun)
    simp only [parent, hpc] at hstep
    obtain rfl := Option.some.inj hstep
    refine hstopping _ ?_ ⟨hinv.sound.exited, hinv.sound.reaped⟩ ?_ hdone
    · split_ifs
      · trivial
      · trivial
    · intro w
      show (if s.done < n then Pc.passing 1 else .left) = .passing w → 0 < w
      split_ifs
      · intro heq
        injection heq with heq
        exact heq ▸ one_pos
      · exact nofun
  | passing w =>
    have hdone := hinv.stopping hstop (by rw [hpc]; exact nofun)
    have hnext : ∀ i, Pc.passing (w + 1) = .passing i → 0 < i := by
      intro i heq
      injection heq with heq
      exact heq ▸ Nat.succ_pos w
    simp only [parent, hpc] at hstep
    split_ifs at hstep with hend hactive hless
    · obtain rfl := Option.some.inj hstep
      exact hstopping _ trivial ⟨hinv.sound.exited, hinv.sound.reaped⟩ nofun hdone
    · obtain rfl := Option.some.inj hstep
      exact hstopping _ trivial ⟨hinv.sound.exited, hinv.sound.reaped⟩ hnext hdone
    · obtain rfl := Option.some.inj hstep
      exact hstopping _ trivial ⟨hinv.sound.exited, hinv.sound.reaped⟩ nofun hdone
    · obtain ⟨v, hv, rfl⟩ := Option.map_eq_some_iff.mp hstep
      obtain ⟨hmem, hst⟩ := any.exited _ v hv
      have hreap : (s.reap v).reaped n = s.reaped n + 1 := reap_reaped hmem hst
      have hlt : (s.reap v).done < n := by
        have hle := (reaped_le_exited n (s.reap v)).trans (exited_le n _)
        show s.done < n
        omega
      refine hstopping _ trivial ⟨(hinv.sound.reap v).exited, (hinv.sound.reap v).reaped⟩ hnext ?_
      show (s.reap v).count.done = (s.reap v).reaped n
      rw [count_done hn hlt, hreap, ← hdone]
      rfl
  | left =>
    simp only [parent, hpc] at hstep
    cases hstep
  | starting => exact (hpc ▸ hstop : Pc.Stopping .starting).elim
  | delegating => exact (hpc ▸ hstop : Pc.Stopping .delegating).elim
  | top => exact (hpc ▸ hstop : Pc.Stopping .top).elim
  | deciding => exact (hpc ▸ hstop : Pc.Stopping .deciding).elim
  | clearing => exact (hpc ▸ hstop : Pc.Stopping .clearing).elim
  | testing => exact (hpc ▸ hstop : Pc.Stopping .testing).elim
  | waiting => exact (hpc ▸ hstop : Pc.Stopping .waiting).elim

theorem Inv.parent (hinv : Inv n s) (hn : n < 256) (hallowed : Allowed n s .parent)
    (hstep : parent n any s = some u) : Inv n u := by
  cases hpc : s.pc with
  | starting =>
    have haccount := hinv.account (by rw [hpc]; exact id)
    have hbehind := hinv.behind (by rw [hpc]; exact id)
    rw [received_of_ne (by rw [hpc]; exact nofun)] at haccount
    rw [hpc] at hbehind
    simp only [IpcSpawn.parent, hpc] at hstep
    obtain rfl := Option.some.inj hstep
    refine ⟨⟨hinv.sound.exited, hinv.sound.reaped⟩, fun _ => ?_, fun _ => hbehind,
      fun hor => hor.elim nofun nofun, nofun, nofun, fun hstop => hstop.elim⟩
    rw [received_goto (show Pc.delegating ≠ .clearing from nofun)]
    exact haccount
  | delegating =>
    simp only [IpcSpawn.parent, hpc] at hstep
    cases hstep
  | waiting =>
    have haccount := hinv.account (by rw [hpc]; exact id)
    have hbehind := hinv.behind (by rw [hpc]; exact id)
    rw [received_of_ne (by rw [hpc]; exact nofun)] at haccount
    rw [hpc] at hbehind
    simp only [IpcSpawn.parent, hpc] at hstep
    split_ifs at hstep
    obtain rfl := Option.some.inj hstep
    refine ⟨⟨hinv.sound.exited, hinv.sound.reaped⟩, fun _ => ?_, fun _ => hbehind,
      fun hor => hor.elim nofun nofun, nofun, nofun, fun hstop => hstop.elim⟩
    rw [received_goto (show Pc.top ≠ .clearing from nofun)]
    exact haccount
  | top => exact hinv.parent_counting hn hallowed (.inl hpc) hstep
  | deciding => exact hinv.parent_counting hn hallowed (.inr (.inl hpc)) hstep
  | clearing => exact hinv.parent_counting hn hallowed (.inr (.inr hpc)) hstep
  | testing => exact hinv.parent_testing hpc hstep
  | checking => exact hinv.parent_stopping hn (by rw [hpc]; trivial) hstep
  | passing => exact hinv.parent_stopping hn (by rw [hpc]; trivial) hstep
  | left => exact hinv.parent_stopping hn (by rw [hpc]; trivial) hstep

theorem Inv.step (hinv : Inv n s) (hn : n < 256) {i : Op} (hallowed : Allowed n s i)
    (hstep : step n any s i = some ((), u)) : Inv n u := by
  cases i with
  | init w => exact hinv.init hstep
  | exit w => exact hinv.exit hallowed hstep
  | deliver => exact hinv.deliver hallowed hstep
  | signal sig => exact hinv.signal hallowed hstep
  | delegate result => exact hinv.delegate hallowed hstep
  | parent =>
    obtain ⟨u', hu', heq⟩ := Option.map_eq_some_iff.mp hstep
    obtain rfl := (Prod.mk.inj heq).2
    exact hinv.parent hn hallowed hu'

end Steps

/-- **In runs in which no `SIGCHLD` is lost** the parent leaves its loop once all workers have
exited, whatever state it is in. -/
theorem run_leaves (n : ℕ) (any : WaitAny n) (hn : n < 256) {ms : List (Move State Op Unit)}
    {s : State} (h : Run (step n any) {} ms s) (hallowed : ∀ m ∈ ms, Allowed n m.before m.input) :
    Right n any s := by
  have hinv : Inv n s := h.rule (G := Allowed n) (J := fun _ t => Inv n t) (Inv.empty n)
    (fun _ _ _ _ _ hinv hG hstep => hinv.step hn hG hstep) hallowed
  exact fun hloop hall hpending => hinv.leaves hn hloop hall hpending

/-- `waitpid` takes the first child that has exited. -/
def firstExited (n : ℕ) : WaitAny n where
  pick st := (List.range' 1 n).find? fun w => st w = .exited
  exited st w hfind := by
    have hmem := List.mem_of_find?_eq_some hfind
    rw [List.mem_range'_1] at hmem
    refine ⟨Finset.mem_Icc.mpr ⟨hmem.1, by omega⟩, ?_⟩
    simpa using List.find?_some hfind
  least st hnone w hw hst := by
    obtain ⟨hw₁, hwn⟩ := Finset.mem_Icc.mp hw
    refine List.find?_eq_none.mp hnone w (List.mem_range'_1.mpr ⟨hw₁, by omega⟩) ?_
    simpa using hst

instance (pc : Pc) : Decidable pc.Stopping :=
  match pc with
  | .checking | .passing _ | .left => isTrue trivial
  | .starting | .delegating | .top | .deciding | .clearing | .testing | .waiting => isFalse id

instance (n : ℕ) (s : State) : DecidablePred (Allowed n s)
  | .init _ => inferInstanceAs (Decidable True)
  | .exit w => inferInstanceAs (Decidable (s.active w = true ∧
      (¬ s.pc.Stopping → s.pc ≠ .starting ∧ s.pending = false)))
  | .deliver => inferInstanceAs (Decidable
      (¬ s.pc.Stopping → s.sigReceived ≠ sigchld ∧ s.pc ≠ .clearing))
  | .signal _ => inferInstanceAs (Decidable
      (s.pc.Stopping ∨ s.sigReceived ≠ sigchld ∨ s.pc = .clearing))
  | .delegate result => inferInstanceAs (Decidable
      (∀ r ∈ result, s.sigReceived ≠ sigchld ∧ r ≠ sigchld))
  | .parent => inferInstanceAs (Decidable
      (s.pc = .deciding → s.sigReceived ≠ sigchld → s.reaped n ≤ s.done))

/-- Two workers, of which one exits before the parent is told to stop. -/
theorem run_leaves_stopped :
    Right 2 (firstExited 2) (final (step 2 (firstExited 2)) {} [.parent, .delegate none, .init 1,
      .init 2, .parent, .parent, .exit 1, .deliver, .parent, .parent, .parent, .parent, .parent,
      .signal 15, .parent, .parent, .parent, .parent, .parent, .exit 2, .deliver]) :=
  run_leaves 2 (firstExited 2) (by decide) (run_final _ _ _) (by decide)

/-- The loop that waits for the last workers goes on for ever when none of them is active and too
few are counted. -/
theorem not_leaves_of_spinning {n : ℕ} {any : WaitAny n} {s : State}
    (hpc : s.pc = .checking ∨ ∃ w, s.pc = .passing w ∧ 0 < w) (hdone : s.done < n)
    (hactive : ∀ w ∈ Finset.Icc 1 n, s.active w = false) : ¬ Leaves n any s := by
  intro h
  induction h with
  | left hleft =>
    rw [hleft] at hpc
    rcases hpc with heq | ⟨w, heq, -⟩
    · cases heq
    · cases heq
  | @step s u hstep _ ih =>
    rcases hpc with hpc | ⟨w, hpc, hw⟩
    · simp only [parent, hpc, if_pos hdone] at hstep
      obtain rfl := Option.some.inj hstep
      exact ih (.inr ⟨1, rfl, one_pos⟩) hdone hactive
    · simp only [parent, hpc] at hstep
      split_ifs at hstep with hend hoff
      · obtain rfl := Option.some.inj hstep
        exact ih (.inl rfl) hdone hactive
      · obtain rfl := Option.some.inj hstep
        exact ih (.inr ⟨w + 1, rfl, Nat.succ_pos w⟩) hdone hactive
      · exact absurd (hactive w (Finset.mem_Icc.mpr ⟨hw, not_lt.mp hend⟩)) hoff
      · exact absurd (hactive w (Finset.mem_Icc.mpr ⟨hw, not_lt.mp hend⟩)) hoff

/-- Two workers exit with one `SIGCHLD`: the parent waits for another one.  And a worker is waited
for before its `SIGCHLD` is delivered, and `SIGTERM` replaces it: the parent spins. -/
theorem not_run_leaves :
    (¬ ∀ (n : ℕ) (any : WaitAny n), n < 256 → ∀ ms s, Run (step n any) {} ms s → Right n any s) ∧
      let s := final (step 1 (firstExited 1)) {} [.parent, .delegate none, .init 1, .parent,
        .exit 1, .parent, .deliver, .signal 15, .parent, .parent, .parent]
      s.Childless 1 ∧ ¬ Right 1 (firstExited 1) s := by
  refine ⟨fun hall => ?_, by decide, fun hright => ?_⟩
  · have hright := hall 2 (firstExited 2) (by decide) _ _ (run_final _ _ [.parent, .delegate none,
      .init 1, .init 2, .parent, .parent, .exit 1, .exit 2, .deliver, .parent, .parent, .parent,
      .parent, .parent])
    have hleaves := hright ⟨by decide, by decide⟩ (by decide) (by decide)
    cases hleaves with
    | left hleft => exact absurd hleft (by decide)
    | step hstep _ =>
      -- there is no byte to be read
      revert hstep
      exact nofun
  · exact not_leaves_of_spinning (.inl (by decide)) (by decide) (by decide)
      (hright ⟨by decide, by decide⟩ (by decide) (by decide))

end IpcSpawn
end Suil
