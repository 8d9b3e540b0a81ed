/-
The cached connections of a PostgreSQL database (`PgSqlDb`).

A connection that is returned goes to the back of a queue, with the time at which it expires, and
the next user takes it from there; a coroutine closes what has expired, from the front.  It yields
after every hundred connections, with an iterator into the queue in its hands.

* `pruneLoop_spec` — what a clean-up closes, and what it leaves;
* `run_conns_iff` — the runs in which the queue stays sorted, a clean-up closes what it should, and
  no connection is both handed out and closed.
-/
import Suil.Lib.Runs

open Runs

namespace Suil

namespace PgPool

/-- `conn_handle_t` -/
structure ConnHandle where
  conn : ℕ
  alive : ℤ
deriving DecidableEq

/-- The clean-up coroutine waits on `notify`, or has yielded in its loop: with the end of its
window, the number of connections it has closed, and whether its iterator is valid. -/
inductive Cleanup where
  | waiting (expires : ℤ)
  | yielded (t : ℤ) (pruned : ℕ) (valid : Bool)
deriving DecidableEq

/-- The queue and the clean-up, none when `cleaning` is false; beside them the connections that are
handed out, with the `cached` of their `connection`, those that are closed, the callers of
`connection` that have yielded, and the time. -/
structure PgSqlDb where
  conns : List ConnHandle := []
  cleanup : Option Cleanup := none
  out : List (ℕ × Bool) := []
  closed : List ℕ := []
  pending : List (Bool × ℕ) := []
  next : ℕ := 0
  clock : ℤ := 0
deriving DecidableEq

/-- `connection` starts, or goes on after a `yield`, with `y` tries left; a connection is returned;
the clean-up is notified or its time has come; and it goes on after a `yield`.  `opened` tells
whether `open` succeeds, and `moves` whether what is done to the queue invalidates an iterator. -/
inductive Op where
  | connection (cached opened moves : Bool)
  | retry (cached : Bool) (y : ℕ) (opened moves : Bool)
  | free (c : ℕ) (cached : Bool) (now : ℤ) (moves : Bool)
  | wake (now : ℤ) (stop : Bool)
  | resume
deriving DecidableEq

inductive Answer where
  | nothing
  | conn (c : ℕ)
  | yields
  | thrown
  | undefined
deriving DecidableEq

def Cleanup.moved (moves : Bool) : Cleanup → Cleanup
  | .waiting expires => .waiting expires
  | .yielded t pruned valid => .yielded t pruned (valid && !moves)

/-- One try of the loop in `connection`. -/
def attempt (s : PgSqlDb) (cached : Bool) (y : ℕ) (opened : Bool) : Answer × PgSqlDb :=
  if opened then
    (.conn s.next, { s with next := s.next + 1, out := (s.next, cached) :: s.out })
  else (.yields, { s with pending := (cached, y) :: s.pending })

/-- `conns.back()` and `pop_back`, which invalidates an iterator to the only connection. -/
def takeBack (s : PgSqlDb) (cached moves : Bool) : Answer × PgSqlDb :=
  match s.conns.getLast? with
  | none => (.thrown, s)
  | some h =>
    (.conn h.conn, { s with
      conns := s.conns.dropLast
      cleanup := s.cleanup.map (Cleanup.moved (s.conns.dropLast.isEmpty && moves))
      out := (h.conn, cached) :: s.out })

def connection (s : PgSqlDb) (cached opened moves : Bool) : Answer × PgSqlDb :=
  if !cached || s.conns.isEmpty then attempt s cached 2 opened else takeBack s cached moves

/-- `connection` after a `yield`. -/
def retry (s : PgSqlDb) (cached : Bool) (y : ℕ) (opened moves : Bool) : Answer × PgSqlDb :=
  if s.conns.isEmpty && y ≠ 0 then attempt s cached (y - 1) opened
  else if cached then takeBack s cached moves
  else (.thrown, s)

def free (keepAlive : ℤ) (s : PgSqlDb) (c : ℕ) (cached : Bool) (now : ℤ) (moves : Bool) : PgSqlDb :=
  if cached ∧ keepAlive ≠ 0 then
    { s with
      conns := s.conns ++ [⟨c, now + keepAlive⟩]
      cleanup :=
        -- the coroutine runs up to its first wait
        match s.cleanup with
        | none => if 0 < keepAlive then some (.waiting (keepAlive + 5)) else none
        | some cleanup => some (cleanup.moved moves) }
  else { s with closed := s.closed ++ [c] }

/-- The inner loop of `cleanup`: what it closes and leaves, how much it has closed, and whether it
yields. -/
def pruneLoop (t : ℤ) : List ConnHandle → ℕ → List ConnHandle × List ConnHandle × ℕ × Bool
  | [], pruned => ([], [], pruned, false)
  | h :: conns, pruned =>
    if h.alive ≤ t then
      if (pruned + 1) % 100 = 0 then ([h], conns, pruned + 1, true)
      else
        let (closed, r) := pruneLoop t conns (pruned + 1)
        (h :: closed, r)
    else ([], h :: conns, pruned, false)

/-- A pass of `cleanup`, up to its end or a `yield`. -/
def prune (s : PgSqlDb) (t : ℤ) (pruned : ℕ) : PgSqlDb :=
  let (closed, conns, pruned, yields) := pruneLoop t s.conns pruned
  { s with
    conns := conns
    closed := s.closed ++ closed.map ConnHandle.conn
    cleanup :=
      if yields then some (.yielded t pruned true)
      else
        match conns with
        | [] => none
        | h :: _ => some (.waiting (max (h.alive - t) 3000)) }

def step (keepAlive : ℤ) (s : PgSqlDb) : Op → Option (Answer × PgSqlDb)
  | .connection cached opened moves => some (connection s cached opened moves)
  | .retry cached y opened moves =>
    if (cached, y) ∈ s.pending then
      some (retry { s with pending := s.pending.erase (cached, y) } cached y opened moves)
    else none
  | .free c cached now moves =>
    if (c, cached) ∈ s.out ∧ s.clock ≤ now then
      some (.nothing,
        free keepAlive { s with out := s.out.erase (c, cached), clock := now } c cached now moves)
    else none
  | .wake now stop =>
    match s.cleanup with
    | some (.waiting _) =>
      if now < s.clock then none
      else if stop then some (.nothing, { s with cleanup := none, clock := now })
      else some (.nothing, prune { s with clock := now } (now + 500) 0)
    | _ => none
  | .resume =>
    match s.cleanup with
    | some (.yielded t pruned valid) =>
      if valid then some (.nothing, prune s t pruned) else some (.undefined, s)
    | _ => none

/-- The end of the window in which an operation cleans up. -/
def window (s : PgSqlDb) : Op → Option ℤ
  | .wake now stop => if stop then none else some (now + 500)
  | .resume =>
    match s.cleanup with
    | some (.yielded t _ _) => some t
    | _ => none
  | .connection .. | .retry .. | .free .. => none

/-- The connection that an operation returns. -/
def Op.returned : Op → Option ℕ
  | .free c _ _ _ => some c
  | .connection .. | .retry .. | .wake .. | .resume => none

def PgSqlDb.Yielded (s : PgSqlDb) : Prop :=
  ∃ t pruned valid, s.cleanup = some (.yielded t pruned valid)

def Sorted (conns : List ConnHandle) : Prop := conns.Pairwise fun a b => a.alive ≤ b.alive

/-- The queue is sorted; a clean-up closes connections of its window, and at the end of a pass all
that are cached, and nothing else closes any but the one that is returned; and what is closed is
neither handed out nor cached. -/
structure Right (m : Move PgSqlDb Op Answer) : Prop where
  sorted : Sorted m.after.conns
  closes : ∀ t, window m.before m.input = some t → ∃ closed : List ConnHandle,
    m.before.conns = closed ++ m.after.conns ∧ (∀ h ∈ closed, h.alive ≤ t) ∧
      m.after.closed = m.before.closed ++ closed.map ConnHandle.conn ∧
      (¬ m.after.Yielded → ∀ h ∈ m.after.conns, t < h.alive)
  leaves : window m.before m.input = none → ∀ c ∈ m.after.closed,
    c ∈ m.before.closed ∨ m.input.returned = some c
  exclusive : ∀ c ∈ m.after.closed, c ∉ m.after.out.map Prod.fst ∧
    c ∉ m.after.conns.map ConnHandle.conn
  defined : m.output ≠ .undefined

/-- When the clean-up goes on its iterator is valid. -/
def Allowed (s : PgSqlDb) : Op → Prop
  | .resume => ∀ t pruned valid, s.cleanup = some (.yielded t pruned valid) → valid = true
  | .connection .. | .retry .. | .free .. | .wake .. => True

/-- All connections: handed out, cached and closed. -/
def PgSqlDb.ids (s : PgSqlDb) : List ℕ :=
  s.out.map Prod.fst ++ s.conns.map ConnHandle.conn ++ s.closed

/-- The queue is sorted, up to what is returned now; and every connection is in one place. -/
structure Inv (keepAlive : ℤ) (s : PgSqlDb) : Prop where
  sorted : Sorted s.conns
  bound : ∀ h ∈ s.conns, h.alive ≤ s.clock + keepAlive
  nodup : s.ids.Nodup
  fresh : ∀ c ∈ s.ids, c < s.next

variable {keepAlive t now : ℤ} {s s' u : PgSqlDb} {o : Answer} {op : Op} {conns : List ConnHandle}
  {pruned c y : ℕ} {cached invalidates : Bool}

/-- **What a pass closes**: a first part of the queue, in its window; unless it yields, what is left
begins behind the window. -/
theorem pruneLoop_spec (t : ℤ) (conns : List ConnHandle) (pruned : ℕ) :
    conns = (pruneLoop t conns pruned).1 ++ (pruneLoop t conns pruned).2.1 ∧
      (∀ h ∈ (pruneLoop t conns pruned).1, h.alive ≤ t) ∧
      ((pruneLoop t conns pruned).2.2.2 = false →
        ∀ h, (pruneLoop t conns pruned).2.1.head? = some h → t < h.alive) := by
  induction conns generalizing pruned with
  | nil => exact ⟨rfl, fun _ h => absurd h List.not_mem_nil, fun _ _ h => by cases h⟩
  | cons h conns ih =>
    rw [pruneLoop]
    by_cases halive : h.alive ≤ t
    · rw [if_pos halive]
      split
      · -- the coroutine yields
        refine ⟨rfl, fun g hg => ?_, nofun⟩
        rw [List.mem_singleton.mp hg]
        exact halive
      · obtain ⟨hsplit, hclosed, hrest⟩ := ih (pruned + 1)
        refine ⟨congrArg (h :: ·) hsplit, fun g hg => ?_, hrest⟩
        rcases List.mem_cons.mp hg with rfl | hg
        · exact halive
        · exact hclosed g hg
    · rw [if_neg halive]
      refine ⟨rfl, fun _ hg => absurd hg List.not_mem_nil, fun _ g hg => ?_⟩
      obtain rfl := Option.some.inj hg
      exact not_le.mp halive

theorem Sorted.lt_of_head (hsorted : Sorted conns)
    (hhead : ∀ h, conns.head? = some h → t < h.alive) : ∀ h ∈ conns, t < h.alive := by
  intro h hh
  cases conns with
  | nil => cases hh
  | cons g conns =>
    have hg := hhead g rfl
    rcases List.mem_cons.mp hh with rfl | hh
    · exact hg
    · exact hg.trans_le (List.rel_of_pairwise_cons hsorted hh)

/-- What a pass does to the queue, the closed connections and the coroutine. -/
theorem prune_spec (hsorted : Sorted s.conns) (t : ℤ) (pruned : ℕ) :
    ∃ closed conns cleanup, prune s t pruned =
        { s with conns := conns, closed := s.closed ++ closed.map ConnHandle.conn,
                 cleanup := cleanup } ∧
      s.conns = closed ++ conns ∧ (∀ h ∈ closed, h.alive ≤ t) ∧
      ((¬ ∃ p, cleanup = some (.yielded t p true)) → ∀ h ∈ conns, t < h.alive) := by
  obtain ⟨hsplit, hclosed, hhead⟩ := pruneLoop_spec t s.conns pruned
  rw [prune]
  generalize pruneLoop t s.conns pruned = r at *
  obtain ⟨closed, conns, p, yields⟩ := r
  refine ⟨closed, conns, _, rfl, hsplit, hclosed, fun hnot => ?_⟩
  have hsorted' : Sorted conns := by
    rw [hsplit] at hsorted
    exact (List.pairwise_append.mp hsorted).2.1
  refine hsorted'.lt_of_head (hhead ?_)
  cases yields with
  | false => rfl
  | true => exact absurd ⟨p, rfl⟩ hnot

/-- The connections of a state are those of another, in other places. -/
theorem Inv.of_perm (hinv : Inv keepAlive s) (hperm : u.ids.Perm s.ids) (hnext : u.next = s.next)
    (hsorted : Sorted u.conns) (hbound : ∀ h ∈ u.conns, h.alive ≤ u.clock + keepAlive) :
    Inv keepAlive u :=
  ⟨hsorted, hbound, hperm.nodup_iff.mpr hinv.nodup,
    fun c hc => hnext ▸ hinv.fresh c (hperm.mem_iff.mp hc)⟩

theorem Inv.exclusive (hinv : Inv keepAlive s) (hc : c ∈ s.closed) :
    c ∉ s.out.map Prod.fst ∧ c ∉ s.conns.map ConnHandle.conn := by
  have hdisjoint := (List.nodup_append.mp hinv.nodup).2.2
  constructor
  · exact fun hout => hdisjoint c (List.mem_append_left _ hout) c hc rfl
  · exact fun hconns => hdisjoint c (List.mem_append_right _ hconns) c hc rfl

/-- An operation that is not a clean-up. -/
theorem Inv.right (hinv : Inv keepAlive u) (hwindow : window s op = none)
    (hclosed : ∀ c ∈ u.closed, c ∈ s.closed ∨ op.returned = some c) (hdefined : o ≠ .undefined) :
    Right ⟨s, op, o, u⟩ := by
  refine ⟨hinv.sorted, fun t ht => ?_, fun _ => hclosed, fun c hc => hinv.exclusive hc, hdefined⟩
  rw [show window s op = some t from ht] at hwindow
  cases hwindow

/-- What `connection` does in one go: nothing is closed. -/
structure Keeps (keepAlive : ℤ) (s : PgSqlDb) (r : Answer × PgSqlDb) : Prop where
  inv : Inv keepAlive r.2
  closed : r.2.closed = s.closed
  defined : r.1 ≠ .undefined

theorem Inv.attempt (hinv : Inv keepAlive s) (cached : Bool) (y : ℕ) (opened : Bool) :
    Keeps keepAlive s (attempt s cached y opened) := by
  rw [PgPool.attempt]
  split
  · -- a new connection
    have hnew : s.next ∉ s.ids := fun hin => lt_irrefl _ (hinv.fresh s.next hin)
    refine ⟨⟨hinv.sorted, hinv.bound, List.nodup_cons.mpr ⟨hnew, hinv.nodup⟩, fun c hc => ?_⟩, rfl,
      nofun⟩
    rcases List.mem_cons.mp hc with rfl | hc
    · exact Nat.lt_succ_self _
    · exact (hinv.fresh c hc).trans (Nat.lt_succ_self _)
  · exact ⟨⟨hinv.sorted, hinv.bound, hinv.nodup, hinv.fresh⟩, rfl, nofun⟩

theorem Inv.takeBack (hinv : Inv keepAlive s) (cached moves : Bool) :
    Keeps keepAlive s (takeBack s cached moves) := by
  rw [PgPool.takeBack]
  split
  · exact ⟨hinv, rfl, nofun⟩
  · rename_i h hlast
    have hsplit : s.conns.dropLast ++ [h] = s.conns :=
      List.dropLast_append_getLast? h hlast
    refine ⟨hinv.of_perm ?_ rfl ?_ fun g hg => ?_, rfl, nofun⟩
    · show (h.conn :: (s.out.map Prod.fst ++ s.conns.dropLast.map ConnHandle.conn ++
        s.closed)).Perm s.ids
      have hids : s.ids = (s.out.map Prod.fst ++ s.conns.dropLast.map ConnHandle.conn) ++
          h.conn :: s.closed := by
        rw [PgSqlDb.ids, ← hsplit, List.map_append, hsplit]
        simp
      rw [hids]
      exact List.perm_middle.symm
    · exact hinv.sorted.sublist (List.dropLast_sublist _)
    · exact hinv.bound g (List.mem_of_mem_dropLast hg)

theorem Inv.connection (hinv : Inv keepAlive s) (cached opened moves : Bool) :
    Keeps keepAlive s (connection s cached opened moves) := by
  rw [PgPool.connection]
  split
  · exact hinv.attempt cached 2 opened
  · exact hinv.takeBack cached moves

theorem Inv.retry (hinv : Inv keepAlive s) (cached : Bool) (y : ℕ) (opened moves : Bool) :
    Keeps keepAlive s (retry s cached y opened moves) := by
  rw [PgPool.retry]
  split_ifs
  · exact hinv.attempt cached (y - 1) opened
  · exact hinv.takeBack cached moves
  · exact ⟨hinv, rfl, nofun⟩

/-- A connection that is returned is the last to expire, or is closed. -/
theorem Inv.free (hinv : Inv keepAlive s) (hout : (c, cached) ∈ s.out) (hnow : s.clock ≤ now)
    (hu : free keepAlive { s with out := s.out.erase (c, cached), clock := now } c cached now
      invalidates = u) : Inv keepAlive u ∧ ∀ d ∈ u.closed, d ∈ s.closed ∨ d = c := by
  have hperm : (s.out.map Prod.fst).Perm (c :: (s.out.erase (c, cached)).map Prod.fst) :=
    (List.perm_cons_erase hout).map Prod.fst
  have hids : s.ids.Perm (c :: ((s.out.erase (c, cached)).map Prod.fst ++
      s.conns.map ConnHandle.conn ++ s.closed)) :=
    (hperm.append_right _).append_right _
  have hbound : ∀ h ∈ s.conns, h.alive ≤ now + keepAlive := fun h hh =>
    (hinv.bound h hh).trans (add_le_add_left hnow keepAlive)
  rw [PgPool.free] at hu
  split at hu
  · -- to the back of the queue
    subst hu
    refine ⟨hinv.of_perm (List.Perm.trans ?_ hids.symm) rfl ?_ fun h hh => ?_, fun d hd => .inl hd⟩
    · rw [PgSqlDb.ids, List.map_append, List.map_singleton, ← List.append_assoc,
        List.append_assoc _ [c]]
      exact List.perm_middle
    · refine List.pairwise_append.mpr
        ⟨hinv.sorted, List.pairwise_singleton _ _, fun a ha b hb => ?_⟩
      rw [List.mem_singleton.mp hb]
      exact hbound a ha
    · rcases List.mem_append.mp hh with hh | hh
      · exact hbound h hh
      · exact (congrArg ConnHandle.alive (List.mem_singleton.mp hh)).le
  · subst hu
    refine ⟨hinv.of_perm (List.Perm.trans ?_ hids.symm) rfl hinv.sorted hbound, fun d hd => ?_⟩
    · rw [PgSqlDb.ids, ← List.append_assoc]
      exact List.perm_append_singleton _ _
    · rcases List.mem_append.mp hd with hd | hd
      · exact .inl hd
      · exact .inr (List.mem_singleton.mp hd)

/-- A pass of the clean-up. -/
theorem Inv.prune (hinv : Inv keepAlive s) (pruned : ℕ)
    (hbefore : s.conns = u.conns ∧ s.closed = u.closed) (hwindow : window u op = some t) :
    Inv keepAlive (prune s t pruned) ∧ Right ⟨u, op, .nothing, prune s t pruned⟩ := by
  obtain ⟨closed, conns, cleanup, hprune, hsplit, hclosed, hrest⟩ := prune_spec hinv.sorted t pruned
  rw [hprune]
  have hsorted : Sorted conns := by
    have hall := hinv.sorted
    rw [hsplit] at hall
    exact (List.pairwise_append.mp hall).2.1
  have hinv' : Inv keepAlive { s with
      conns := conns
      closed := s.closed ++ closed.map ConnHandle.conn
      cleanup := cleanup } := by
    refine hinv.of_perm ?_ rfl hsorted fun h hh => hinv.bound h ?_
    · rw [PgSqlDb.ids, PgSqlDb.ids, hsplit, List.map_append]
      refine List.perm_iff_count.mpr fun d => ?_
      simp only [List.count_append]
      omega
    · rw [hsplit]
      exact List.mem_append_right _ hh
  refine ⟨hinv', hsorted, fun t' ht' => ?_, fun hnone => ?_, fun c hc => hinv'.exclusive hc, nofun⟩
  · obtain rfl := Option.some.inj (hwindow.symm.trans ht')
    refine ⟨closed, hbefore.1 ▸ hsplit, hclosed, congrArg (· ++ _) hbefore.2, fun hnot => ?_⟩
    refine hrest ?_
    rintro ⟨p, hp⟩
    exact hnot ⟨t, p, true, hp⟩
  · rw [show window u op = none from hnone] at hwindow
    cases hwindow

/-- An operation that keeps what is closed is right, and allowed. -/
theorem Keeps.right_iff {r : Answer × PgSqlDb} (h : Keeps keepAlive s r) (hr : r = (o, u))
    (hclosed : ∀ c ∈ s.closed, c ∈ s'.closed) (hwindow : window s' op = none)
    (hallowed : Allowed s' op) :
    (Right ⟨s', op, o, u⟩ ↔ Allowed s' op) ∧ (Allowed s' op → Inv keepAlive u) := by
  subst hr
  refine ⟨iff_of_true (h.inv.right hwindow (fun c hc => .inl ?_) h.defined) hallowed,
    fun _ => h.inv⟩
  exact hclosed c (h.closed ▸ hc)

theorem Inv.later (hinv : Inv keepAlive s) (hnow : s.clock ≤ now) (cleanup : Option Cleanup) :
    Inv keepAlive { s with cleanup := cleanup, clock := now } :=
  ⟨hinv.sorted, fun h hh => (hinv.bound h hh).trans (add_le_add_left hnow keepAlive), hinv.nodup,
    hinv.fresh⟩

theorem Inv.wake_right (hinv : Inv keepAlive s) {stop : Bool}
    (hstep : step keepAlive s (.wake now stop) = some (o, u)) :
    Inv keepAlive u ∧ Right ⟨s, .wake now stop, o, u⟩ := by
  rw [step] at hstep
  split at hstep
  · split_ifs at hstep with hnow hstop
    · -- the clean-up ends
      obtain ⟨rfl, rfl⟩ := Prod.mk.inj (Option.some.inj hstep)
      have hnext := hinv.later (not_lt.mp hnow) none
      exact ⟨hnext, hnext.right (if_pos hstop) (fun c hc => .inl hc) nofun⟩
    · obtain ⟨rfl, rfl⟩ := Prod.mk.inj (Option.some.inj hstep)
      have hwindow : window s (.wake now stop) = some (now + 500) := if_neg hstop
      exact (hinv.later (not_lt.mp hnow) s.cleanup).prune (u := s) 0 ⟨rfl, rfl⟩ hwindow
  · cases hstep

theorem Inv.resume_right_iff (hinv : Inv keepAlive s)
    (hstep : step keepAlive s .resume = some (o, u)) :
    (Right ⟨s, .resume, o, u⟩ ↔ Allowed s .resume) ∧ (Allowed s .resume → Inv keepAlive u) := by
  rw [step] at hstep
  split at hstep
  · rename_i t pruned valid hyielded
    split_ifs at hstep with hvalid
    · obtain ⟨rfl, rfl⟩ := Prod.mk.inj (Option.some.inj hstep)
      have hwindow : window s .resume = some t := by
        rw [window, hyielded]
      have hallowed : Allowed s .resume := fun t' pruned' valid' h => by
        obtain ⟨_, _, rfl⟩ := Cleanup.yielded.inj (Option.some.inj (hyielded.symm.trans h))
        exact hvalid
      obtain ⟨hnext, hright⟩ := hinv.prune pruned ⟨rfl, rfl⟩ hwindow
      exact ⟨iff_of_true hright hallowed, fun _ => hnext⟩
    · -- the iterator is used though it is not valid
      obtain ⟨rfl, rfl⟩ := Prod.mk.inj (Option.some.inj hstep)
      have hnot : ¬ Allowed s .resume := fun h => hvalid (h t pruned valid hyielded)
      exact ⟨iff_of_false (fun hright => hright.defined rfl) hnot, fun h => absurd h hnot⟩
  · cases hstep

theorem Inv.step_right_iff (hinv : Inv keepAlive s) (hstep : step keepAlive s op = some (o, u)) :
    (Right ⟨s, op, o, u⟩ ↔ Allowed s op) ∧ (Allowed s op → Inv keepAlive u) := by
  cases op with
  | connection cached opened moves =>
    exact (hinv.connection cached opened moves).right_iff (Option.some.inj hstep)
      (fun _ hc => hc) rfl trivial
  | retry cached y opened moves =>
    rw [step] at hstep
    split_ifs at hstep
    have hinv' : Inv keepAlive { s with pending := s.pending.erase (cached, y) } :=
      ⟨hinv.sorted, hinv.bound, hinv.nodup, hinv.fresh⟩
    exact (hinv'.retry cached y opened moves).right_iff (Option.some.inj hstep)
      (fun _ hc => hc) rfl trivial
  | free c cached now moves =>
    rw [step] at hstep
    split_ifs at hstep with hfree
    obtain ⟨rfl, hu⟩ := Prod.mk.inj (Option.some.inj hstep)
    obtain ⟨hnext, hclosed⟩ := hinv.free hfree.1 hfree.2 hu
    refine ⟨iff_of_true (hnext.right rfl (fun d hd => ?_) nofun) trivial, fun _ => hnext⟩
    exact (hclosed d hd).imp_right fun heq => congrArg some heq.symm
  | wake now stop =>
    obtain ⟨hnext, hright⟩ := hinv.wake_right hstep
    exact ⟨iff_of_true hright trivial, fun _ => hnext⟩
  | resume => exact hinv.resume_right_iff hstep

theorem Inv.empty : Inv keepAlive {} :=
  ⟨List.Pairwise.nil, fun _ h => absurd h List.not_mem_nil, List.nodup_nil,
    fun _ h => absurd h List.not_mem_nil⟩

/-- **The runs that keep the queue sorted and the connections apart** are those in which the
clean-up finds its iterator valid whenever it goes on after a `yield`. -/
theorem run_conns_iff (keepAlive : ℤ) {ms : List (Move PgSqlDb Op Answer)} {s : PgSqlDb}
    (h : Run (step keepAlive) {} ms s) :
    (∀ m ∈ ms, Right m) ↔ ∀ m ∈ ms, Allowed m.before m.input :=
  h.moves_iff (R := Right) Inv.empty fun _ _ _ _ hinv hstep => hinv.step_right_iff hstep

instance : DecidablePred (Allowed s)
  | .resume => match hcleanup : s.cleanup with
    | some (.yielded _ _ true) => .isTrue fun _ _ _ h => by
      rw [hcleanup] at h
      exact (Cleanup.yielded.inj (Option.some.inj h)).2.2.symm
    | some (.yielded t pruned false) =>
      .isFalse fun h => Bool.noConfusion (h t pruned false hcleanup)
    | some (.waiting _) | none => .isTrue fun _ _ _ h => by
      rw [hcleanup] at h
      cases h
  | .connection .. | .retry .. | .free .. | .wake .. => inferInstanceAs (Decidable True)

/-- Two connections are returned, one is taken again, and the other expires. -/
theorem run_conns_of_two :
    let ops : List Op := [.connection true true false, .connection true true false,
      .free 0 true 10 false, .free 1 true 20 false, .connection true true false, .wake 3000 false]
    (∀ m ∈ moves (step 3000) {} ops, Right m) ∧
      (final (step 3000) {} ops).closed = [0] ∧ (final (step 3000) {} ops).out = [(1, true)] :=
  ⟨(run_conns_iff 3000 (run_final _ _ _)).mpr (by decide), by decide, by decide⟩

/-- A hundred connections are returned, and another one while the clean-up has yielded after it
closed them. -/
def returnedLate : List Op :=
  List.replicate 101 (.connection true true false) ++
    (List.range 100).map (fun c => .free c true 0 false) ++
    [.wake 4000 false, .free 100 true 4000 true, .resume]

theorem not_run_conns :
    let outputs := (moves (step 3000) {} returnedLate).map Move.output
    outputs.getLast? = some .undefined ∧
      ¬ ∀ keepAlive > 0, ∀ ms s, Run (step keepAlive) {} ms s → ∀ m ∈ ms, Right m := by
  have hlast : ((moves (step 3000) {} returnedLate).map Move.output).getLast? =
      some .undefined := by
    decide +kernel
  refine ⟨hlast, fun hall => ?_⟩
  obtain ⟨m, hm, houtput⟩ := List.mem_map.mp (List.mem_of_getLast? hlast)
  exact (hall 3000 (by decide) _ _ (run_final _ _ returnedLate) m hm).defined houtput

end PgPool
end Suil
