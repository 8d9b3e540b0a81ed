/-
The outbox.

Callers queue their emails and one coroutine sends them; both run until they suspend.
`send` starts the coroutine when there is none, and it runs at once, up to its first
suspension, before the caller says that it waits.  The coroutine takes its emails from
the end that they are put in.

* `finish_right_iff`, `take_right_iff` — when the coroutine keeps the order and reaches
  the caller;
* `step_right_iff` — which steps do;
* `run_delivers_iff` — the runs of which every step does.
-/
import Suil.Core
import Suil.Lib.Runs

open Runs

namespace Suil

namespace Smtp

/-- What came of an email: none when it was sent, else the text of the exception. -/
abbrev Outcome := Option Bytes

/-- What `send` returns. -/
inductive SendAnswer where
  | nothing
  | outcome (o : Outcome)
  | timedOut
deriving DecidableEq

/-- Where the caller of an email stands: in the `go` of `send`, with or without a timeout; in
the channel; behind it, without or with a status; or back. -/
inductive CallerState where
  | starting (waits : Bool)
  | waiting
  | expired
  | handed (o : Outcome)
  | returned (a : SendAnswer)
deriving DecidableEq

/-- Where `sendOutbox` stands: `sending` is false when it is idle.  It is blocked when it hands
out a status that nobody receives. -/
inductive SenderState where
  | idle
  | sending (i : ℕ)
  | yielding
  | blocked (i : ℕ)
deriving DecidableEq

/-- The emails are numbered as they are queued.  `attempted` and `outcomes` record what was
handed to the client, and what came of it. -/
structure SmtpOutbox where
  queued : ℕ := 0
  sendQ : List ℕ := []
  sender : SenderState := .idle
  callers : ℕ → CallerState := fun _ => .returned .nothing
  attempted : List ℕ := []
  outcomes : ℕ → Option Outcome := fun _ => none

namespace SmtpOutbox

/-- `start` is the outcome of the client when it does not suspend. -/
inductive Op where
  | send (waits : Bool) (start : Option Outcome)
  | resume (i : ℕ)
  | sent (o : Outcome)
  | next (start : Option Outcome)
  | expire (i : ℕ)
  | wake (i : ℕ)

/-- The part of `sendOutbox` behind the client. -/
def finish (s : SmtpOutbox) (i : ℕ) (o : Outcome) : SmtpOutbox :=
  let s := { s with outcomes := Function.update s.outcomes i (some o) }
  match s.callers i with
  | .waiting =>
    { s with callers := Function.update s.callers i (.handed o), sender := .yielding }
  | .expired | .handed _ => { s with sender := .blocked i }
  | .starting _ | .returned _ => { s with sender := .yielding }

/-- The part of `sendOutbox` from the head of its loop on. -/
def take (s : SmtpOutbox) (start : Option Outcome) : SmtpOutbox :=
  match s.sendQ.getLast? with
  | none => { s with sender := .idle }
  | some i =>
    let s := { s with
      sendQ := s.sendQ.dropLast, attempted := s.attempted ++ [i], sender := .sending i }
    match start with
    | none => s
    | some o => s.finish i o

/-- `send` up to its first suspension. -/
def enter (s : SmtpOutbox) (waits : Bool) (start : Option Outcome) : SmtpOutbox :=
  let i := s.queued
  let s := { s with queued := i + 1, sendQ := s.sendQ ++ [i] }
  if s.sender = .idle then
    take { s with callers := Function.update s.callers i (.starting waits) } start
  else
    { s with
      callers := Function.update s.callers i (if waits then .waiting else .returned .nothing) }

/-- One step of a coroutine; none when it is not where the step begins. -/
def step (s : SmtpOutbox) : Op → Option (Unit × SmtpOutbox)
  | .send waits start => some ((), s.enter waits start)
  | .resume i =>
    match s.callers i with
    | .starting waits => some ((), { s with
        callers := Function.update s.callers i (if waits then .waiting else .returned .nothing) })
    | _ => none
  | .sent o =>
    match s.sender with
    | .sending i => some ((), s.finish i o)
    | _ => none
  | .next start =>
    match s.sender with
    | .yielding => some ((), s.take start)
    | _ => none
  | .expire i =>
    if s.callers i = .waiting then
      some ((), { s with callers := Function.update s.callers i .expired })
    else none
  | .wake i =>
    match s.callers i with
    | .handed o => some ((), { s with
        callers := Function.update s.callers i (.returned (.outcome o)) })
    | .expired => some ((), { s with callers := Function.update s.callers i (.returned .timedOut) })
    | _ => none

/-- The emails are attempted in the order in which they were queued, each once, and none is
left behind; a caller neither waits nor times out when its email is finished, and gets its own
outcome. -/
structure Right (s : SmtpOutbox) : Prop where
  order : s.attempted ++ s.sendQ = List.range s.queued
  idle : s.sender = .idle → s.sendQ = []
  unblocked : ∀ i, s.sender ≠ .blocked i
  reached : ∀ i, s.outcomes i ≠ none →
    s.callers i ≠ .starting true ∧ s.callers i ≠ .waiting ∧ s.callers i ≠ .expired
  own : ∀ i o, s.callers i = .handed o ∨ s.callers i = .returned (.outcome o) →
    s.outcomes i = some o

/-- The caller of an email that is finished can be reached. -/
def Reachable (s : SmtpOutbox) (i : ℕ) : Prop :=
  s.callers i ≠ .starting true ∧ s.callers i ≠ .expired

/-- The steps that are right: the coroutine finishes an email while its caller does not stand
before or behind the channel, and takes one only when there is no other. -/
def Allowed (s : SmtpOutbox) : Op → Prop
  | .send waits start => s.sender = .idle → start ≠ none → waits = false
  | .sent _ => ∀ i, s.sender = .sending i → s.Reachable i
  | .next start => s.sendQ.length ≤ 1 ∧ (start ≠ none → ∀ i ∈ s.sendQ, s.Reachable i)
  | _ => True

/-- What else the steps keep: no email has an outcome before it is finished, and its caller is
out of `go` when it is queued. -/
structure Inv (s : SmtpOutbox) : Prop extends Right s where
  pending : ∀ i, s.outcomes i ≠ none → i ∈ s.attempted
  current : ∀ i, s.sender = .sending i → s.outcomes i = none ∧ i ∈ s.attempted

variable {s : SmtpOutbox} {i : ℕ} {o : Outcome}

theorem Inv.empty : Inv {} where
  order := rfl
  idle _ := rfl
  unblocked _ := nofun
  reached _ h := absurd rfl h
  own _ _ h := by simp at h
  pending _ h := absurd rfl h
  current _ := nofun

theorem Right.nodup (h : s.Right) : (s.attempted ++ s.sendQ).Nodup := by
  rw [h.order]
  exact List.nodup_range

/-- An email that is in the queue has no outcome. -/
theorem Inv.outcome_of_mem (h : s.Inv) (hi : i ∈ s.sendQ) : s.outcomes i = none := by
  by_contra hne
  exact List.disjoint_of_nodup_append h.nodup (h.pending i hne) hi

theorem Inv.outcome_queued (h : s.Inv) : s.outcomes s.queued = none := by
  by_contra hne
  have hmem : s.queued ∈ List.range s.queued := by
    rw [← h.order]
    exact List.mem_append_left _ (h.pending _ hne)
  exact absurd (List.mem_range.mp hmem) (lt_irrefl _)

@[simp] theorem attempted_finish : (s.finish i o).attempted = s.attempted := by
  rw [finish]
  split <;> rfl

@[simp] theorem sendQ_finish : (s.finish i o).sendQ = s.sendQ := by
  rw [finish]
  split <;> rfl

@[simp] theorem queued_finish : (s.finish i o).queued = s.queued := by
  rw [finish]
  split <;> rfl

@[simp] theorem outcomes_finish :
    (s.finish i o).outcomes = Function.update s.outcomes i (some o) := by
  rw [finish]
  split <;> rfl

/-- Where the coroutine and the callers are when the email is finished. -/
theorem finish_cases (s : SmtpOutbox) (i : ℕ) (o : Outcome) :
    (s.callers i = .waiting ∧ (s.finish i o).sender = .yielding ∧
      (s.finish i o).callers = Function.update s.callers i (.handed o)) ∨
    ((s.callers i = .expired ∨ ∃ o', s.callers i = .handed o') ∧
      (s.finish i o).sender = .blocked i) ∨
    (((∃ waits, s.callers i = .starting waits) ∨ ∃ a, s.callers i = .returned a) ∧
      (s.finish i o).sender = .yielding ∧ (s.finish i o).callers = s.callers) := by
  rw [finish]
  cases hc : s.callers i with
  | waiting => exact .inl ⟨rfl, rfl, rfl⟩
  | expired => exact .inr (.inl ⟨.inl rfl, rfl⟩)
  | handed o' => exact .inr (.inl ⟨.inr ⟨o', rfl⟩, rfl⟩)
  | starting waits => exact .inr (.inr ⟨.inl ⟨waits, rfl⟩, rfl, rfl⟩)
  | returned a => exact .inr (.inr ⟨.inr ⟨a, rfl⟩, rfl, rfl⟩)

/-- **The coroutine finishes an email** right when its caller can be reached. -/
theorem Inv.finish_right_iff (h : s.Inv) (hs : s.sender = .sending i) (o : Outcome) :
    ((s.finish i o).Right ↔ s.Reachable i) ∧ (s.Reachable i → (s.finish i o).Inv) := by
  obtain ⟨hnone, hmem⟩ := h.current i hs
  have hinv : s.Reachable i → (s.finish i o).Inv := by
    rintro ⟨hstart, hexp⟩
    -- the caller has no outcome yet
    have hown : ∀ o', ¬ (s.callers i = .handed o' ∨ s.callers i = .returned (.outcome o')) := by
      intro o' hc
      have hsome := h.own i o' hc
      rw [hnone] at hsome
      cases hsome
    have hyield : (s.finish i o).sender = .yielding := by
      rcases finish_cases s i o with ⟨-, hs', -⟩ | ⟨hc | ⟨o', hc⟩, -⟩ | ⟨-, hs', -⟩
      · exact hs'
      · exact absurd hc hexp
      · exact absurd (.inl hc) (hown o')
      · exact hs'
    have hcallers : ((s.finish i o).callers i ≠ .starting true ∧
        (s.finish i o).callers i ≠ .waiting ∧ (s.finish i o).callers i ≠ .expired) ∧
        (∀ o', (s.finish i o).callers i = .handed o' ∨
          (s.finish i o).callers i = .returned (.outcome o') → o' = o) ∧
        ∀ j, j ≠ i → (s.finish i o).callers j = s.callers j := by
      rcases finish_cases s i o with ⟨hw, -, hc⟩ | ⟨-, hb⟩ | ⟨hc', -, hc⟩
      · rw [hc]
        refine ⟨by simp, fun o' ho => ?_, fun j hj => Function.update_of_ne hj _ _⟩
        simpa [eq_comm] using ho
      · rw [hyield] at hb
        cases hb
      · rw [hc]
        refine ⟨⟨hstart, ?_, hexp⟩, fun o' ho => absurd ho (hown o'), fun _ _ => rfl⟩
        rcases hc' with ⟨waits, hc'⟩ | ⟨a, hc'⟩ <;> simp [hc']
    obtain ⟨hreached, hout, hother⟩ := hcallers
    refine ⟨⟨?_, ?_, ?_, fun j hj => ?_, fun j o' hj => ?_⟩, fun j hj => ?_, fun j hj => ?_⟩
    · simpa using h.order
    · simp [hyield]
    · simp [hyield]
    · rcases eq_or_ne j i with rfl | hne
      · exact hreached
      · rw [hother j hne]
        rw [outcomes_finish, Function.update_of_ne hne] at hj
        exact h.reached j hj
    · rw [outcomes_finish]
      rcases eq_or_ne j i with rfl | hne
      · rw [Function.update_self, hout o' hj]
      · rw [Function.update_of_ne hne]
        rw [hother j hne] at hj
        exact h.own j o' hj
    · rw [attempted_finish]
      rcases eq_or_ne j i with rfl | hne
      · exact hmem
      · rw [outcomes_finish, Function.update_of_ne hne] at hj
        exact h.pending j hj
    · rw [hyield] at hj
      cases hj
  refine ⟨⟨fun hr => ⟨fun hstart => ?_, fun hexp => ?_⟩, fun hreach => (hinv hreach).toRight⟩, hinv⟩
  · -- the status is dropped
    have hdone : (s.finish i o).outcomes i ≠ none := by simp
    have hc : (s.finish i o).callers i = .starting true := by
      rcases finish_cases s i o with ⟨hw, -⟩ | ⟨hw | ⟨o', hw⟩, -⟩ | ⟨-, -, hc⟩
      · exact absurd (hstart.symm.trans hw) nofun
      · exact absurd (hstart.symm.trans hw) nofun
      · exact absurd (hstart.symm.trans hw) nofun
      · rw [hc, hstart]
    exact (hr.reached i hdone).1 hc
  · -- nobody receives the status
    have hb : (s.finish i o).sender = .blocked i := by
      rw [finish, hexp]
    exact hr.unblocked i hb

/-- The coroutine with the last email of the queue. -/
def began (s : SmtpOutbox) (i : ℕ) : SmtpOutbox :=
  { s with sendQ := s.sendQ.dropLast, attempted := s.attempted ++ [i], sender := .sending i }

/-- The last email is the first one only when it is the only one. -/
theorem Right.began_order_iff (h : s.Right) (hi : s.sendQ.getLast? = some i) :
    (s.began i).attempted ++ (s.began i).sendQ = List.range (s.began i).queued ↔
      s.sendQ.length ≤ 1 := by
  have hq : s.sendQ.dropLast ++ [i] = s.sendQ := List.dropLast_append_getLast? i hi
  show s.attempted ++ [i] ++ s.sendQ.dropLast = List.range s.queued ↔ _
  rw [← h.order, List.append_assoc, List.append_cancel_left_eq]
  constructor
  · intro heq
    have hnodup : s.sendQ.Nodup := (List.nodup_append.mp h.nodup).2.1
    rw [← hq] at heq hnodup ⊢
    rcases hd : s.sendQ.dropLast with _ | ⟨j, js⟩
    · simp
    · -- the first one is the last one, too
      rw [hd] at heq hnodup
      obtain rfl : i = j := (List.cons.inj heq).1
      simp at hnodup
  · intro hle
    have hlen := congrArg List.length hq
    rw [List.length_append, List.length_singleton] at hlen
    have hnil : s.sendQ.dropLast = [] := List.length_eq_zero_iff.mp (by omega)
    rw [← hq, hnil]
    rfl

/-- **The coroutine takes an email** right when it is the only one, and its caller can be reached
should the coroutine finish it at once. -/
theorem Inv.take_right_iff (h : s.Inv) (start : Option Outcome) :
    ((s.take start).Right ↔ s.Allowed (.next start)) ∧
      (s.Allowed (.next start) → (s.take start).Inv) := by
  rw [take, Allowed]
  cases hi : s.sendQ.getLast? with
  | none =>
    obtain hnil : s.sendQ = [] := List.getLast?_eq_none_iff.mp hi
    have hinv : Inv { s with sender := .idle } :=
      ⟨⟨h.order, fun _ => hnil, fun _ => nofun, h.reached, h.own⟩, h.pending, fun _ => nofun⟩
    have hallowed : s.sendQ.length ≤ 1 ∧ (start ≠ none → ∀ i ∈ s.sendQ, s.Reachable i) := by
      rw [hnil]
      exact ⟨Nat.zero_le _, fun _ _ => nofun⟩
    exact ⟨iff_of_true hinv.toRight hallowed, fun _ => hinv⟩
  | some i =>
    have horder := h.toRight.began_order_iff hi
    have hmem : i ∈ s.sendQ := List.mem_of_getLast? hi
    have hinv : s.sendQ.length ≤ 1 → (s.began i).Inv := by
      intro hle
      refine ⟨⟨horder.mpr hle, nofun, fun _ => nofun, h.reached, h.own⟩, fun j hj => ?_,
        fun j hj => ?_⟩
      · exact List.mem_append_left _ (h.pending j hj)
      · obtain rfl : i = j := SenderState.sending.inj hj
        exact ⟨h.outcome_of_mem hmem, List.mem_append_right _ (List.mem_singleton.mpr rfl)⟩
    cases start with
    | none =>
      show ((s.began i).Right ↔ _) ∧ (_ → (s.began i).Inv)
      refine ⟨⟨fun hr => ⟨horder.mp hr.order, ?_⟩, fun ha => (hinv ha.1).toRight⟩,
        fun ha => hinv ha.1⟩
      intro hne
      exact absurd rfl hne
    | some o =>
      show (((s.began i).finish i o).Right ↔ _) ∧ (_ → ((s.began i).finish i o).Inv)
      by_cases hle : s.sendQ.length ≤ 1
      · have hfinish := (hinv hle).finish_right_iff rfl o
        have hall : (s.sendQ.length ≤ 1 ∧ (some o ≠ none → ∀ j ∈ s.sendQ, s.Reachable j)) ↔
            (s.began i).Reachable i := by
          constructor
          · rintro ⟨-, hreach⟩
            exact hreach nofun i hmem
          · intro hreach
            refine ⟨hle, fun _ j hj => ?_⟩
            obtain ⟨k, hk⟩ := List.length_eq_one_iff.mp
              (le_antisymm hle (List.length_pos_of_mem hmem))
            rw [hk] at hj hmem
            rw [List.mem_singleton.mp hj, ← List.mem_singleton.mp hmem]
            exact hreach
        rw [hall]
        exact hfinish
      · -- finishing leaves the emails in their order
        refine ⟨iff_of_false (fun hr => hle (horder.mp ?_)) fun ha => hle ha.1,
          fun ha => absurd ha.1 hle⟩
        simpa using hr.order

/-- The email `s.queued` with its caller. -/
def queue (s : SmtpOutbox) (c : CallerState) : SmtpOutbox :=
  { s with
    queued := s.queued + 1
    sendQ := s.sendQ ++ [s.queued]
    callers := Function.update s.callers s.queued c }

/-- An email that is queued has no outcome, so its caller is not told one. -/
theorem Inv.queue (h : s.Inv) {c : CallerState}
    (hc : ∀ o, c ≠ .handed o ∧ c ≠ .returned (.outcome o)) (x : SenderState) (hidle : x ≠ .idle)
    (hblocked : ∀ i, x ≠ .blocked i) (hsend : ∀ i, x = .sending i → s.sender = .sending i) :
    Inv { s.queue c with sender := x } := by
  have hnone := h.outcome_queued
  refine ⟨⟨?_, fun heq => absurd heq hidle, hblocked, fun j hj => ?_, fun j o hj => ?_⟩, h.pending,
    fun j hj => h.current j (hsend j hj)⟩
  · show s.attempted ++ (s.sendQ ++ [s.queued]) = List.range (s.queued + 1)
    rw [← List.append_assoc, h.order, List.range_succ]
  · have hne : j ≠ s.queued := by
      rintro rfl
      exact hj hnone
    show Function.update s.callers s.queued c j ≠ _ ∧ Function.update s.callers s.queued c j ≠ _ ∧
      Function.update s.callers s.queued c j ≠ _
    rw [Function.update_of_ne hne]
    exact h.reached j hj
  · change Function.update s.callers s.queued c j = _ ∨
      Function.update s.callers s.queued c j = _ at hj
    rcases eq_or_ne j s.queued with rfl | hne
    · rw [Function.update_self] at hj
      exact (hj.elim (hc o).1 (hc o).2).elim
    · rw [Function.update_of_ne hne] at hj
      exact h.own j o hj

/-- A caller that goes on by itself, and has not learnt an outcome but its own. -/
theorem Inv.update_caller (h : s.Inv) {c : CallerState}
    (hreached : s.outcomes i ≠ none → c ≠ .starting true ∧ c ≠ .waiting ∧ c ≠ .expired)
    (hown : ∀ o, c = .handed o ∨ c = .returned (.outcome o) → s.outcomes i = some o) :
    Inv { s with callers := Function.update s.callers i c } := by
  refine ⟨⟨h.order, h.idle, h.unblocked, fun j hj => ?_, fun j o hj => ?_⟩, h.pending, h.current⟩
  · show Function.update s.callers i c j ≠ _ ∧ Function.update s.callers i c j ≠ _ ∧
      Function.update s.callers i c j ≠ _
    rcases eq_or_ne j i with rfl | hne
    · rw [Function.update_self]
      exact hreached hj
    · rw [Function.update_of_ne hne]
      exact h.reached j hj
  · change Function.update s.callers i c j = _ ∨ Function.update s.callers i c j = _ at hj
    rcases eq_or_ne j i with rfl | hne
    · rw [Function.update_self] at hj
      exact hown o hj
    · rw [Function.update_of_ne hne] at hj
      exact h.own j o hj

/-- **`send`** is right unless the coroutine that it starts finishes the email at once, and the
caller is going to wait. -/
theorem Inv.enter_right_iff (h : s.Inv) (waits : Bool) (start : Option Outcome) :
    ((s.enter waits start).Right ↔ s.Allowed (.send waits start)) ∧
      (s.Allowed (.send waits start) → (s.enter waits start).Inv) := by
  by_cases hs : s.sender = .idle
  · have hinv : Inv { s.queue (.starting waits) with sender := .yielding } :=
      h.queue (by simp) .yielding nofun (fun _ => nofun) (fun _ => nofun)
    have hnil := h.idle hs
    have htake : s.enter waits start =
        take { s.queue (.starting waits) with sender := .yielding } start := by
      rw [enter, if_pos hs]
      simp only [take, SmtpOutbox.queue]
    have hallowed : Allowed { s.queue (.starting waits) with sender := .yielding } (.next start) ↔
        s.Allowed (.send waits start) := by
      simp [Allowed, Reachable, SmtpOutbox.queue, hnil, hs]
    rw [htake, ← hallowed]
    exact hinv.take_right_iff start
  · have hinv : Inv { s.queue (if waits then .waiting else .returned .nothing) with
        sender := s.sender } :=
      h.queue (by cases waits <;> simp) s.sender hs h.unblocked fun _ => id
    have henter : s.enter waits start =
        { s.queue (if waits then .waiting else .returned .nothing) with sender := s.sender } := by
      rw [enter, if_neg hs]
      rfl
    rw [henter]
    exact ⟨iff_of_true hinv.toRight fun heq => absurd heq hs, fun _ => hinv⟩

/-- **One step** is right exactly when it is allowed. -/
theorem Inv.step_right_iff (h : s.Inv) {op : Op} {a : Unit} {s' : SmtpOutbox}
    (hstep : s.step op = some (a, s')) :
    (s'.Right ↔ s.Allowed op) ∧ (s.Allowed op → s'.Inv) := by
  have hfree {op : Op} (hinv : s'.Inv) (hallowed : s.Allowed op) :
      (s'.Right ↔ s.Allowed op) ∧ (s.Allowed op → s'.Inv) :=
    ⟨iff_of_true hinv.toRight hallowed, fun _ => hinv⟩
  cases op with
  | send waits start =>
    obtain ⟨-, rfl⟩ := Prod.mk.inj (Option.some.inj hstep)
    exact h.enter_right_iff waits start
  | resume i =>
    rw [step] at hstep
    cases hc : s.callers i with
    | starting waits =>
      rw [hc] at hstep
      obtain ⟨-, rfl⟩ := Prod.mk.inj (Option.some.inj hstep)
      refine hfree (h.update_caller (fun hi => ?_) (fun o => by cases waits <;> simp)) trivial
      -- a caller that is about to wait has no outcome yet
      have hwaits := (h.reached i hi).1
      rw [hc] at hwaits
      cases waits with
      | true => exact absurd rfl hwaits
      | false => simp
    | waiting | expired | handed | returned => simp [hc] at hstep
  | sent o =>
    rw [step] at hstep
    cases hs : s.sender with
    | sending i =>
      rw [hs] at hstep
      obtain ⟨-, rfl⟩ := Prod.mk.inj (Option.some.inj hstep)
      have hallowed : s.Allowed (.sent o) ↔ s.Reachable i :=
        ⟨fun hall => hall i hs, fun hi j hj => SenderState.sending.inj (hs.symm.trans hj) ▸ hi⟩
      rw [hallowed]
      exact h.finish_right_iff hs o
    | idle | yielding | blocked => simp [hs] at hstep
  | next start =>
    rw [step] at hstep
    cases hs : s.sender with
    | yielding =>
      rw [hs] at hstep
      obtain ⟨-, rfl⟩ := Prod.mk.inj (Option.some.inj hstep)
      exact h.take_right_iff start
    | idle | sending | blocked => simp [hs] at hstep
  | expire i =>
    rw [step] at hstep
    split_ifs at hstep with hc
    obtain ⟨-, rfl⟩ := Prod.mk.inj (Option.some.inj hstep)
    refine hfree (h.update_caller (fun hi => ?_) (fun _ => by simp)) trivial
    exact absurd hc (h.reached i hi).2.1
  | wake i =>
    rw [step] at hstep
    cases hc : s.callers i with
    | handed o =>
      rw [hc] at hstep
      obtain ⟨-, rfl⟩ := Prod.mk.inj (Option.some.inj hstep)
      refine hfree (h.update_caller (fun _ => by simp) (fun o' ho => ?_)) trivial
      obtain rfl : o = o' := by simpa using ho
      exact h.own i o (.inl hc)
    | expired =>
      rw [hc] at hstep
      obtain ⟨-, rfl⟩ := Prod.mk.inj (Option.some.inj hstep)
      exact hfree (h.update_caller (fun _ => by simp) (fun _ => by simp)) trivial
    | starting | waiting | returned => simp [hc] at hstep

/-- **The runs that are right throughout** are those of allowed steps. -/
theorem run_delivers_iff {ms : List (Move SmtpOutbox Op Unit)} {s : SmtpOutbox}
    (h : Run step {} ms s) :
    (∀ m ∈ ms, m.after.Right) ↔ ∀ m ∈ ms, m.before.Allowed m.input :=
  h.moves_iff (R := fun m => m.after.Right) Inv.empty fun _ _ _ _ hinv hstep =>
    hinv.step_right_iff hstep

instance {P : ℕ → Prop} [DecidablePred P] (x : SenderState) :
    Decidable (∀ i, x = .sending i → P i) :=
  match x with
  | .sending i => decidable_of_iff (P i)
      ⟨fun hi _ hj => SenderState.sending.inj hj ▸ hi, fun hall => hall i rfl⟩
  | .idle | .yielding | .blocked _ => isTrue nofun

instance : Decidable (s.Reachable i) := inferInstanceAs (Decidable (_ ∧ _))

instance : DecidablePred s.Allowed
  | .send waits start => inferInstanceAs
      (Decidable (s.sender = .idle → start ≠ none → waits = false))
  | .sent _ => inferInstanceAs (Decidable (∀ i, s.sender = .sending i → s.Reachable i))
  | .next start => inferInstanceAs
      (Decidable (s.sendQ.length ≤ 1 ∧ (start ≠ none → ∀ i ∈ s.sendQ, s.Reachable i)))
  | .resume _ | .expire _ | .wake _ => inferInstanceAs (Decidable True)

/-- Two callers of which one waits, and is told what became of its email. -/
theorem run_delivers_of_two :
    let ops : List Op := [.send false none, .resume 0, .send true none, .sent none, .next none,
      .sent (some [0x66]), .wake 1, .next none]
    (∀ m ∈ moves step {} ops, m.after.Right) ∧
      (final step {} ops).callers 1 = .returned (.outcome (some [0x66])) :=
  ⟨(run_delivers_iff (run_final step {} _)).mpr (by decide), by decide⟩

/-- Of two emails in the queue the last one is sent first; and a caller that starts the coroutine is
not told that its email failed at once. -/
theorem not_run_delivers :
    (final step {} [.send false none, .send false none, .send false none, .sent none,
      .next none]).attempted = [0, 2] ∧
    (final step {} [.send true (some (some [0x66])), .resume 0, .expire 0, .wake 0]).callers 0 =
      .returned .timedOut ∧
    ¬ ∀ ms s, Run step {} ms s → ∀ m ∈ ms, m.after.Right := by
  refine ⟨by decide, by decide, fun hall => ?_⟩
  have hright := hall _ _ (run_final step {} [.send true (some (some [0x66]))]) _
    (List.mem_singleton.mpr rfl)
  exact (hright.reached 0 nofun).1 rfl

end SmtpOutbox

end Smtp
end Suil
