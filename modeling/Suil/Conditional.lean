/-
Waiting on a condition (`Conditional`, `Sync`).

A waiter puts its `Sync` into the list and receives from the channel of the `Sync`;
a notifier takes the first entry and sends to it.  Waiters and notifiers are coroutines
that change where they wait, and a wait that ends without a notification leaves its
entry where it is.

* `Inv.notifyOne_right`, `Inv.notify_right` — what a notifier finds when every entry waits;
* `Inv.step_right_iff` — which steps wake whom they should and leave no entry behind;
* `run_wakes_iff` — the runs of which every step does.
-/
import Suil.Lib.Runs

open Runs

namespace Suil

namespace Cond

/-- `Sync::Result` -/
inductive Result where
  | abort
  | activated
deriving DecidableEq

/-- Where a waiter stands: outside `wait`, receiving with or without a deadline, or behind with
what it received, which is nothing when the deadline has passed. -/
inductive WaiterState where
  | idle
  | receiving (timed : Bool)
  | returning (res : Option Result)
deriving DecidableEq

/-- A `Sync` and its channel, which has no buffer: those who send to it wait until someone
receives.  When it is `done` everyone receives `Abort`. -/
structure Sync where
  state : WaiterState := .idle
  alive : Bool := true
  done : Bool := false
  senders : List Result := []
deriving DecidableEq

/-- The list of the `Conditional`, and everyone who may wait on it. -/
structure Conditional where
  waiting : List ℕ := []
  syncs : ℕ → Sync := fun _ => {}

/-- What the coroutines do next.  A deadline passes with `expire`; `notify` is one round of its
loop. -/
inductive Op where
  | wait (w : ℕ) (timed : Bool)
  | expire (w : ℕ)
  | resume (w : ℕ)
  | notifyOne
  | notify (res : Result)
  | destroy (w : ℕ)
deriving DecidableEq

/-- What a call returns, throws, or does instead; `notify` counts whom it has sent to. -/
inductive Answer where
  | nothing
  | returned (b : Bool)
  | counted (n : ℕ)
  | thrown
  | blocked
  | panicked
deriving DecidableEq

def Sync.Waits (x : Sync) : Prop := ∃ timed, x.state = .receiving timed

/-- `sync()[timeout] >> status` -/
def Sync.receive (x : Sync) (timed : Bool) : Sync :=
  if x.done then { x with state := .returning (some .abort) }
  else
    match x.senders with
    | res :: rest => { x with state := .returning (some res), senders := rest }
    | [] => { x with state := .receiving timed }

/-- `(*ch) << res`, with the answer when someone receives. -/
def Sync.send (x : Sync) (res : Result) (sent : Answer) : Answer × Sync :=
  if x.done then (.panicked, x)
  else
    match x.state with
    | .receiving _ => (sent, { x with state := .returning (some res) })
    | _ => (.blocked, { x with senders := x.senders ++ [res] })

/-- `!(*ch)` -/
def Sync.abort (x : Sync) (sent : Answer) : Answer × Sync :=
  if x.done ∨ x.senders ≠ [] then (.panicked, x)
  else
    match x.state with
    | .receiving _ => (sent, { x with done := true, state := .returning (some .abort) })
    | _ => (sent, { x with done := true })

def Conditional.set (s : Conditional) (w : ℕ) (x : Sync) : Conditional :=
  { s with syncs := Function.update s.syncs w x }

def step (s : Conditional) : Op → Option (Answer × Conditional)
  | .wait w timed =>
    if (s.syncs w).alive = false then none
    else
      match (s.syncs w).state with
      | .idle =>
        some (.nothing, { s with waiting := s.waiting ++ [w] }.set w ((s.syncs w).receive timed))
      | _ => some (.thrown, s)
  | .expire w =>
    match (s.syncs w).state with
    | .receiving true => some (.nothing, s.set w { s.syncs w with state := .returning none })
    | _ => none
  | .resume w =>
    match (s.syncs w).state with
    | .returning res =>
      some (.returned (res == some .activated), s.set w { s.syncs w with state := .idle })
    | _ => none
  | .notifyOne =>
    match s.waiting with
    | [] => some (.returned false, s)
    | w :: rest =>
      if (s.syncs w).alive then
        let (answer, x) := (s.syncs w).send .activated (.returned true)
        some (answer, { s with waiting := rest }.set w x)
      else some (.returned false, { s with waiting := rest })
  | .notify res =>
    match s.waiting with
    | [] => some (.counted 0, s)
    | w :: rest =>
      if (s.syncs w).alive then
        let (answer, x) := if res ≠ .abort then (s.syncs w).send res (.counted 1)
          else (s.syncs w).abort (.counted 1)
        some (answer, { s with waiting := rest }.set w x)
      else some (.counted 0, { s with waiting := rest })
  | .destroy w =>
    if (s.syncs w).alive ∧ (s.syncs w).state = .idle then
      some (.nothing, s.set w { s.syncs w with alive := false })
    else none

def Conditional.Waits (s : Conditional) (w : ℕ) : Prop := (s.syncs w).Waits

/-- A notification wakes someone who waits, if anyone does; who is notified is still waiting; and
so is everyone who is in the list afterwards. -/
structure Right (m : Move Conditional Op Answer) : Prop where
  wakes : m.input = .notifyOne → (∃ w, m.before.Waits w) → m.output = .returned true ∧
    ∃ w, m.before.Waits w ∧ (m.after.syncs w).state = .returning (some .activated)
  notified : (m.input = .notifyOne ∨ ∃ res, m.input = .notify res) → ∀ w,
    m.before.waiting.head? = some w → (m.before.syncs w).alive → m.before.Waits w
  kept : ∀ w ∈ m.after.waiting, m.after.Waits w

/-- No deadline passes, and no `Sync` waits that was aborted before. -/
def Conditional.Allowed (s : Conditional) : Op → Prop
  | .wait w _ => (s.syncs w).state = .idle → (s.syncs w).done = false
  | .expire _ => False
  | .resume _ | .notifyOne | .notify _ | .destroy _ => True

/-- The list has those who wait, each of them once, and nobody sends to one who does not. -/
structure Inv (s : Conditional) : Prop where
  mem_iff : ∀ w, w ∈ s.waiting ↔ s.Waits w
  nodup : s.waiting.Nodup
  senders : ∀ w, (s.syncs w).senders = []
  alive : ∀ w, s.Waits w → (s.syncs w).alive = true
  undone : ∀ w, s.Waits w → (s.syncs w).done = false

variable {s u : Conditional} {w v : ℕ} {x : Sync} {o : Answer} {i : Op}

theorem Inv.empty : Inv {} := by
  have hnot : ∀ w, ¬ Conditional.Waits {} w := by
    rintro w ⟨timed, heq⟩
    cases heq
  exact ⟨fun w => iff_of_false List.not_mem_nil (hnot w), List.nodup_nil, fun _ => rfl,
    fun w hw => absurd hw (hnot w), fun w hw => absurd hw (hnot w)⟩

@[simp] theorem set_syncs_self : (s.set w x).syncs w = x := Function.update_self _ _ _

theorem set_syncs_of_ne (h : v ≠ w) : (s.set w x).syncs v = s.syncs v :=
  Function.update_of_ne h _ _

theorem waits_set_self : (s.set w x).Waits w ↔ x.Waits := by
  rw [Conditional.Waits, set_syncs_self]

theorem waits_set_of_ne (h : v ≠ w) : (s.set w x).Waits v ↔ s.Waits v := by
  rw [Conditional.Waits, set_syncs_of_ne h, Conditional.Waits]

/-- One `Sync` changes and the list with it. -/
theorem Inv.set (hinv : Inv s) {l : List ℕ}
    (hmem : ∀ v, v ∈ l ↔ if v = w then x.Waits else v ∈ s.waiting) (hnodup : l.Nodup)
    (hsenders : x.senders = []) (halive : x.Waits → x.alive = true)
    (hundone : x.Waits → x.done = false) : Inv ({ s with waiting := l }.set w x) := by
  have hfield : ∀ p : Sync → Prop, p x → (∀ v, p (s.syncs v)) →
      ∀ v, p (({ s with waiting := l }.set w x).syncs v) := by
    intro p hx hall v
    by_cases hv : v = w
    · subst hv
      rwa [set_syncs_self]
    · rw [set_syncs_of_ne hv]
      exact hall v
  refine ⟨fun v => ?_, hnodup, hfield (fun y => y.senders = []) hsenders hinv.senders,
    hfield (fun y => y.Waits → y.alive = true) halive hinv.alive,
    hfield (fun y => y.Waits → y.done = false) hundone hinv.undone⟩
  show v ∈ l ↔ _
  rw [hmem v]
  split_ifs with hv
  · subst hv
    exact waits_set_self.symm
  · rw [waits_set_of_ne hv]
    exact hinv.mem_iff v

/-- A `Sync` that does not wait changes to one that does not wait, either. -/
theorem Inv.set_of_not_waits (hinv : Inv s) (hbefore : ¬ s.Waits w) (hafter : ¬ x.Waits)
    (hsenders : x.senders = []) : Inv (s.set w x) := by
  refine hinv.set (fun v => ?_) hinv.nodup hsenders (fun hx => absurd hx hafter)
    fun hx => absurd hx hafter
  split_ifs with hv
  · subst hv
    exact iff_of_false (fun hin => hbefore ((hinv.mem_iff v).mp hin)) hafter
  · exact Iff.rfl

theorem not_waits_of_idle (h : x.state = .idle) : ¬ x.Waits := by
  rintro ⟨timed, heq⟩
  rw [h] at heq
  cases heq

theorem not_waits_of_returning {res : Option Result} (h : x.state = .returning res) :
    ¬ x.Waits := by
  rintro ⟨timed, heq⟩
  rw [h] at heq
  cases heq

/-- A step that notifies nobody is right when everyone in the list waits afterwards. -/
theorem Right.of_inv (hone : i ≠ .notifyOne) (hall : ∀ res, i ≠ .notify res) (hinv : Inv u) :
    Right ⟨s, i, o, u⟩ := by
  refine ⟨fun heq => absurd heq hone, ?_, fun w hw => (hinv.mem_iff w).mp hw⟩
  rintro (heq | ⟨res, heq⟩)
  · exact absurd heq hone
  · exact absurd heq (hall res)

theorem Sync.receive_eq (hdone : x.done = false) (hsenders : x.senders = []) {timed : Bool} :
    x.receive timed = { x with state := .receiving timed } := by
  rw [Sync.receive, if_neg (Bool.eq_false_iff.mp hdone)]
  split
  · rename_i heq
    rw [hsenders] at heq
    cases heq
  · rfl

/-- A wait of a `Sync` that was not aborted before puts a waiter into the list, any other one leaves
an entry behind. -/
theorem Inv.wait_right_iff (hinv : Inv s) {timed : Bool}
    (hstep : step s (.wait w timed) = some (o, u)) :
    (Right ⟨s, .wait w timed, o, u⟩ ↔ s.Allowed (.wait w timed)) ∧
      (s.Allowed (.wait w timed) → Inv u) := by
  rw [step] at hstep
  split_ifs at hstep with halive
  split at hstep
  · rename_i hidle
    obtain ⟨-, rfl⟩ := Prod.mk.inj (Option.some.inj hstep)
    have hnot : w ∉ s.waiting := fun hin => not_waits_of_idle hidle ((hinv.mem_iff w).mp hin)
    have hkept : s.Allowed (.wait w timed) →
        Inv ({ s with waiting := s.waiting ++ [w] }.set w ((s.syncs w).receive timed)) := by
      intro hallowed
      have hdone := hallowed hidle
      rw [Sync.receive_eq hdone (hinv.senders w)]
      refine hinv.set (fun v => ?_) ?_ (hinv.senders w) (fun _ => ?_) fun _ => hdone
      · rw [List.mem_append, List.mem_singleton]
        split_ifs with hv
        · exact iff_of_true (.inr hv) ⟨timed, rfl⟩
        · rw [or_iff_left hv]
      · exact hinv.nodup.append (List.nodup_singleton w)
          fun v hv hvw => hnot (List.mem_singleton.mp hvw ▸ hv)
      · exact Bool.eq_true_of_not_eq_false halive
    refine ⟨⟨fun hright _ => ?_, fun hallowed => .of_inv nofun nofun (hkept hallowed)⟩, hkept⟩
    -- the entry of an aborted `Sync` is in the list
    by_contra hdone
    have hwaits := hright.kept w (List.mem_append_right _ List.mem_cons_self)
    rw [waits_set_self, Sync.receive, if_pos (Bool.eq_true_of_not_eq_false hdone)] at hwaits
    exact not_waits_of_returning rfl hwaits
  · rename_i hbusy
    obtain ⟨-, rfl⟩ := Prod.mk.inj (Option.some.inj hstep)
    exact ⟨iff_of_true (.of_inv nofun nofun hinv) fun hidle => absurd hidle hbusy, fun _ => hinv⟩

/-- A wait that a deadline ends leaves its entry behind. -/
theorem Inv.not_expire_right (hinv : Inv s) (hstep : step s (.expire w) = some (o, u)) :
    ¬ Right ⟨s, .expire w, o, u⟩ := by
  rw [step] at hstep
  split at hstep
  · rename_i hreceiving
    obtain ⟨-, rfl⟩ := Prod.mk.inj (Option.some.inj hstep)
    intro hright
    have hwaits := hright.kept w ((hinv.mem_iff w).mpr ⟨true, hreceiving⟩)
    exact not_waits_of_returning rfl (waits_set_self.mp hwaits)
  · cases hstep

/-- The first one in the list is told, and is not in the list any more. -/
theorem Inv.tell (hinv : Inv s) {rest : List ℕ} {res : Result} {done : Bool}
    (hlist : s.waiting = w :: rest) :
    Inv ({ s with waiting := rest }.set w
      { s.syncs w with done := done, state := .returning (some res) }) := by
  have hnodup := hinv.nodup
  rw [hlist] at hnodup
  obtain ⟨hw, hrest⟩ := List.nodup_cons.mp hnodup
  have hnot : ¬ Sync.Waits { s.syncs w with done := done, state := .returning (some res) } :=
    not_waits_of_returning rfl
  refine hinv.set (fun v => ?_) hrest (hinv.senders w) (fun hx => absurd hx hnot)
    fun hx => absurd hx hnot
  split_ifs with hv
  · subst hv
    exact iff_of_false hw hnot
  · rw [hlist, List.mem_cons, or_iff_right hv]

/-- Who is first in the list waits, and can be sent to. -/
theorem Inv.front (hinv : Inv s) {rest : List ℕ} (hlist : s.waiting = w :: rest) :
    s.Waits w ∧ (s.syncs w).alive = true ∧ (s.syncs w).done = false := by
  have hwaits : s.Waits w := (hinv.mem_iff w).mp (hlist ▸ List.mem_cons_self)
  exact ⟨hwaits, hinv.alive w hwaits, hinv.undone w hwaits⟩

theorem Sync.send_eq (hwaits : x.Waits) (hdone : x.done = false) (res : Result) (sent : Answer) :
    x.send res sent = (sent, { x with state := .returning (some res) }) := by
  obtain ⟨timed, heq⟩ := hwaits
  rw [Sync.send, hdone, if_neg Bool.false_ne_true, heq]

theorem Sync.abort_eq (hwaits : x.Waits) (hdone : x.done = false) (hsenders : x.senders = [])
    (sent : Answer) :
    x.abort sent = (sent, { x with done := true, state := .returning (some .abort) }) := by
  obtain ⟨timed, heq⟩ := hwaits
  have hnot : ¬ (x.done = true ∨ x.senders ≠ []) := by
    rw [hdone, hsenders]
    simp
  rw [Sync.abort, if_neg hnot, heq]

theorem Inv.notifyOne_right (hinv : Inv s) (hstep : step s .notifyOne = some (o, u)) :
    Right ⟨s, .notifyOne, o, u⟩ ∧ Inv u := by
  rw [step] at hstep
  split at hstep
  · rename_i hlist
    obtain ⟨-, rfl⟩ := Prod.mk.inj (Option.some.inj hstep)
    refine ⟨⟨fun _ hsome => ?_, fun _ w hw => ?_, fun w hw => (hinv.mem_iff w).mp hw⟩, hinv⟩
    · obtain ⟨w, hw⟩ := hsome
      have hin := (hinv.mem_iff w).mpr hw
      rw [hlist] at hin
      exact absurd hin List.not_mem_nil
    · rw [hlist] at hw
      cases hw
  · rename_i w rest hlist
    obtain ⟨hwaits, halive, hdone⟩ := hinv.front hlist
    rw [if_pos halive, Sync.send_eq hwaits hdone] at hstep
    obtain ⟨rfl, rfl⟩ := Prod.mk.inj (Option.some.inj hstep)
    have htell : Inv ({ s with waiting := rest }.set w
        { s.syncs w with state := .returning (some .activated) }) := hinv.tell hlist
    refine ⟨⟨fun _ _ => ⟨rfl, w, hwaits, ?_⟩, fun _ v hv _ => ?_, fun v hv => ?_⟩, htell⟩
    · rw [set_syncs_self]
    · rw [hlist] at hv
      obtain rfl := Option.some.inj hv
      exact hwaits
    · exact (htell.mem_iff v).mp hv

theorem Inv.notify_right (hinv : Inv s) {res : Result}
    (hstep : step s (.notify res) = some (o, u)) : Right ⟨s, .notify res, o, u⟩ ∧ Inv u := by
  rw [step] at hstep
  split at hstep
  · rename_i hlist
    obtain ⟨-, rfl⟩ := Prod.mk.inj (Option.some.inj hstep)
    refine ⟨⟨nofun, fun _ w hw => ?_, fun w hw => (hinv.mem_iff w).mp hw⟩, hinv⟩
    rw [hlist] at hw
    cases hw
  · rename_i w rest hlist
    obtain ⟨hwaits, halive, hdone⟩ := hinv.front hlist
    -- whether it is sent to or aborted
    obtain ⟨done', res', htold⟩ : ∃ done' res', (if res ≠ .abort then
          (s.syncs w).send res (.counted 1) else (s.syncs w).abort (.counted 1)) =
        (.counted 1, { s.syncs w with done := done', state := .returning (some res') }) := by
      split_ifs with hres
      · exact ⟨(s.syncs w).done, res, Sync.send_eq hwaits hdone _ _⟩
      · exact ⟨true, .abort, Sync.abort_eq hwaits hdone (hinv.senders w) _⟩
    rw [if_pos halive, htold] at hstep
    obtain ⟨rfl, rfl⟩ := Prod.mk.inj (Option.some.inj hstep)
    have htell : Inv ({ s with waiting := rest }.set w
        { s.syncs w with done := done', state := .returning (some res') }) := hinv.tell hlist
    refine ⟨⟨nofun, fun _ v hv _ => ?_, fun v hv => (htell.mem_iff v).mp hv⟩, htell⟩
    rw [hlist] at hv
    obtain rfl := Option.some.inj hv
    exact hwaits

theorem Inv.step_right_iff (hinv : Inv s) (hstep : step s i = some (o, u)) :
    (Right ⟨s, i, o, u⟩ ↔ s.Allowed i) ∧ (s.Allowed i → Inv u) := by
  cases i with
  | wait w timed => exact hinv.wait_right_iff hstep
  | expire w => exact ⟨iff_of_false (hinv.not_expire_right hstep) id, False.elim⟩
  | notifyOne =>
    obtain ⟨hright, hnext⟩ := hinv.notifyOne_right hstep
    exact ⟨iff_of_true hright trivial, fun _ => hnext⟩
  | notify res =>
    obtain ⟨hright, hnext⟩ := hinv.notify_right hstep
    exact ⟨iff_of_true hright trivial, fun _ => hnext⟩
  | resume w =>
    have hnext : Inv u := by
      rw [step] at hstep
      split at hstep
      · rename_i res hreturning
        obtain ⟨-, rfl⟩ := Prod.mk.inj (Option.some.inj hstep)
        exact hinv.set_of_not_waits (not_waits_of_returning hreturning) (not_waits_of_idle rfl)
          (hinv.senders w)
      · cases hstep
    exact ⟨iff_of_true (.of_inv nofun nofun hnext) trivial, fun _ => hnext⟩
  | destroy w =>
    have hnext : Inv u := by
      rw [step] at hstep
      split_ifs at hstep with halive
      obtain ⟨-, rfl⟩ := Prod.mk.inj (Option.some.inj hstep)
      exact hinv.set_of_not_waits (not_waits_of_idle halive.2) (not_waits_of_idle halive.2)
        (hinv.senders w)
    exact ⟨iff_of_true (.of_inv nofun nofun hnext) trivial, fun _ => hnext⟩

/-- **The runs that wake whom they should and leave no entry behind** are those in which no deadline
passes and no `Sync` waits that was aborted before. -/
theorem run_wakes_iff {ms : List (Move Conditional Op Answer)} {s : Conditional}
    (h : Run step {} ms s) : (∀ m ∈ ms, Right m) ↔ ∀ m ∈ ms, m.before.Allowed m.input :=
  h.moves_iff (R := Right) Inv.empty fun _ _ _ _ hinv hstep => hinv.step_right_iff hstep

instance : DecidablePred s.Allowed
  | .wait w _ => inferInstanceAs (Decidable ((s.syncs w).state = .idle → (s.syncs w).done = false))
  | .expire _ => inferInstanceAs (Decidable False)
  | .resume _ | .notifyOne | .notify _ | .destroy _ => inferInstanceAs (Decidable True)

/-- Two waiters, one of them with a deadline, and two notifications. -/
theorem run_wakes_of_two :
    let ops : List Op := [.wait 0 true, .wait 1 false, .notifyOne, .resume 0, .notify .activated,
      .resume 1, .wait 0 true]
    (∀ m ∈ moves step {} ops, Right m) ∧ (final step {} ops).waiting = [0] :=
  ⟨(run_wakes_iff (run_final step {} _)).mpr (by decide), by decide⟩

/-- A waiter whose deadline has passed stays in the list; the next notification goes to it and
waits there, while another one goes on waiting; or finds it destroyed, and is lost. -/
theorem not_run_wakes :
    let late : List Op := [.wait 0 true, .wait 1 false, .expire 0, .resume 0]
    (final step {} late).waiting = [0, 1] ∧
      (moves step {} (late ++ [.notifyOne])).getLast?.map Move.output = some .blocked ∧
      (moves step {} (late ++ [.destroy 0, .notifyOne])).getLast?.map Move.output =
        some (.returned false) ∧
      ¬ ∀ ms s, Run step {} ms s → ∀ m ∈ ms, Right m := by
  refine ⟨by decide, by decide, by decide, fun hall => ?_⟩
  have hright := hall _ _ (run_final step {} [.wait 0 true, .expire 0]) _
    (List.mem_cons_of_mem _ List.mem_cons_self)
  obtain ⟨timed, heq⟩ := hright.kept 0 List.mem_cons_self
  cases heq

end Cond
end Suil
