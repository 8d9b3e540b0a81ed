/-
A transaction on a connection to PostgreSQL (`PgSqlTransaction`).

`valid` says that the transaction was begun and not ended; the server has a transaction block of
its own.  A statement that throws resets the connection, and with it the block; one that fails
without throwing, as on a connection that is not asynchronous, does not.

* `ask_agrees_iff` — when `valid` and the block agree after a statement;
* `run_agrees_iff` — the runs in which they always do, and no connection is handed back with an
  open block.
-/
import Suil.Lib.Runs

open Runs

namespace Suil

namespace PgTxn

/-- The transaction block of a session of the server. -/
inductive Block where
  | idle
  | inBlock
  | failed
deriving DecidableEq

def Block.isOpen : Block → Bool
  | .idle => false
  | .inBlock | .failed => true

/-- What a statement asks for. -/
inductive Command where
  | begin
  | commit
  | rollback
  | rollbackTo
  | other
deriving DecidableEq

/-- What comes of a statement: the server does it if it can, or reports an error; the connection to
the server is lost, or the statement is not sent. -/
inductive Outcome where
  | served
  | refused
  | lost
  | unsent
deriving DecidableEq

/-- How the server reads statements. -/
structure Server where
  reads : String → List String → Command
  begin : reads "BEGIN;" [] = .begin
  commit : reads "COMMIT;" [] = .commit
  rollback : reads "ROLLBACK;" [] = .rollback
  rollbackTo : ∀ sp, reads "ROLLBACK TO SAVEPOINT $1;" [sp] = .rollbackTo
  savepoint : ∀ name, reads "SAVEPOINT $1;" [name] = .other
  release : ∀ name, reads "RELEASE SAVEPOINT $1;" [name] = .other

/-- What the server does with a statement that it executes, and whether it succeeds. -/
def Block.serve : Block → Command → Bool × Block
  | .idle, .begin | .inBlock, .begin => (true, .inBlock)
  -- the end of a block that has failed is a rollback
  | _, .commit | _, .rollback => (true, .idle)
  | .idle, .rollbackTo => (false, .idle)
  | _, .rollbackTo => (true, .inBlock)
  | .failed, .begin | .failed, .other => (false, .failed)
  | b, .other => (true, b)

/-- What an error in a statement does to the block; a `COMMIT` that fails has rolled back. -/
def Block.refuse : Block → Command → Block
  | _, .commit | _, .rollback => .idle
  | .idle, _ => .idle
  | _, _ => .failed

/-- A session that is lost is rolled back. -/
def Block.answer (b : Block) (c : Command) : Outcome → Bool × Block
  | .served => b.serve c
  | .refused => (false, b.refuse c)
  | .lost => (false, .idle)
  | .unsent => (false, b)

structure PgSqlTransaction where
  valid : Bool := false
  autoCommit : Bool := true
deriving DecidableEq

/-- `executeWithCallback`, none when it throws: a statement that fails does so on an asynchronous
connection, which is then reset. -/
def executeWithCallback (srv : Server) (async : Bool) (b : Block) (query : String)
    (args : List String) (o : Outcome) : Option Bool × Block :=
  match b.answer (srv.reads query args) o with
  | (true, b) => (some true, b)
  | (false, b) => if async then (none, .idle) else (some false, b)

/-- `operator()`: the status, the transaction and the block. -/
def ask (srv : Server) (async : Bool) (t : PgSqlTransaction) (b : Block) (query : String)
    (args : List String) (o : Outcome) : Bool × PgSqlTransaction × Block :=
  match executeWithCallback srv async b query args o with
  | (some status, b) => (status, t, b)
  | (none, b) => (false, { t with valid := false }, b)

def begin (srv : Server) (async : Bool) (t : PgSqlTransaction) (b : Block) (o : Outcome) :
    Bool × PgSqlTransaction × Block :=
  if t.valid then (false, t, b) else ask srv async { t with valid := true } b "BEGIN;" [] o

def commit (srv : Server) (async : Bool) (t : PgSqlTransaction) (b : Block) (o : Outcome) :
    Bool × PgSqlTransaction × Block :=
  if t.valid then ask srv async { t with valid := false } b "COMMIT;" [] o else (false, t, b)

def rollback (srv : Server) (async : Bool) (t : PgSqlTransaction) (b : Block) (sp : Option String)
    (o : Outcome) : Bool × PgSqlTransaction × Block :=
  match sp with
  | some sp =>
    if t.valid then ask srv async t b "ROLLBACK TO SAVEPOINT $1;" [sp] o else (false, t, b)
  | none =>
    if t.valid then ask srv async { t with valid := false } b "ROLLBACK;" [] o else (false, t, b)

def savepoint (srv : Server) (async : Bool) (t : PgSqlTransaction) (b : Block) (name : String)
    (o : Outcome) : Bool × PgSqlTransaction × Block :=
  if t.valid then ask srv async t b "SAVEPOINT $1;" [name] o else (false, t, b)

def release (srv : Server) (async : Bool) (t : PgSqlTransaction) (b : Block) (name : String)
    (o : Outcome) : Bool × PgSqlTransaction × Block :=
  if t.valid then ask srv async t b "RELEASE SAVEPOINT $1;" [name] o else (false, t, b)

/-- `~PgSqlTransaction`, up to `conn.put()`. -/
def destruct (srv : Server) (async : Bool) (t : PgSqlTransaction) (b : Block) (o : Outcome) :
    Bool × PgSqlTransaction × Block :=
  if t.autoCommit then commit srv async t b o else (false, t, b)

/-- A transaction is made on a connection that has none, is used, and is destroyed; with each
statement comes what becomes of it. -/
inductive Op where
  | create (autoCommit : Bool)
  | begin (o : Outcome)
  | commit (o : Outcome)
  | rollback (sp : Option String) (o : Outcome)
  | savepoint (name : String) (o : Outcome)
  | release (name : String) (o : Outcome)
  | statement (query : String) (args : List String) (o : Outcome)
  | destroy (o : Outcome)

/-- The server's block, and the transaction that has the connection. -/
structure Session where
  block : Block := .idle
  txn : Option PgSqlTransaction := none
deriving DecidableEq

/-- The session after an operation, with the status that it returned. -/
def next (r : Bool × PgSqlTransaction × Block) : Bool × Session :=
  (r.1, ⟨r.2.2, some r.2.1⟩)

def step (srv : Server) (async : Bool) (s : Session) (op : Op) : Option (Bool × Session) :=
  match s.txn, op with
  | none, .create autoCommit => some (true, { s with txn := some ⟨false, autoCommit⟩ })
  | none, _ | some _, .create _ => none
  | some t, .begin o => some (next (begin srv async t s.block o))
  | some t, .commit o => some (next (commit srv async t s.block o))
  | some t, .rollback sp o => some (next (rollback srv async t s.block sp o))
  | some t, .savepoint name o => some (next (savepoint srv async t s.block name o))
  | some t, .release name o => some (next (release srv async t s.block name o))
  | some t, .statement query args o => some (next (ask srv async t s.block query args o))
  | some t, .destroy o =>
    let r := destruct srv async t s.block o
    some (r.1, ⟨r.2.2, none⟩)

/-- `valid` is true exactly while a block is open; none is when the connection is handed back. -/
structure Session.Agrees (s : Session) : Prop where
  valid : ∀ t, s.txn = some t → t.valid = s.block.isOpen
  returned : s.txn = none → s.block.isOpen = false

/-- A statement of the user's own neither begins nor ends a block, and does not lose a synchronous
connection on which one is open. -/
def Command.Allowed (async valid : Bool) (o : Outcome) : Command → Prop
  | .begin => if valid then async ∨ o ≠ .lost else o ≠ .served
  | .commit | .rollback => valid → o ≠ .served ∧ (async ∨ o = .unsent)
  | .rollbackTo | .other => valid → async ∨ o ≠ .lost

/-- A `BEGIN` is served, and an end of a block is sent, or the connection is asynchronous; no
statement loses a synchronous connection on which a block is open; and what is destroyed with a
block open commits it. -/
def Op.Allowed (srv : Server) (async : Bool) (t : PgSqlTransaction) : Op → Prop
  | .create _ => True
  | .begin o => t.valid ∨ async ∨ o = .served
  | .commit o | .rollback none o => t.valid → async ∨ o ≠ .unsent
  | .rollback (some _) o | .savepoint _ o | .release _ o => t.valid → async ∨ o ≠ .lost
  | .statement query args o => (srv.reads query args).Allowed async t.valid o
  | .destroy o => t.valid → t.autoCommit ∧ (async ∨ o ≠ .unsent)

/-- The operations that keep `valid` and the block in agreement. -/
def Allowed (srv : Server) (async : Bool) (s : Session) (op : Op) : Prop :=
  ∀ t, s.txn = some t → op.Allowed srv async t

variable {srv : Server} {async : Bool} {t : PgSqlTransaction} {b : Block} {o : Outcome}
  {s u : Session} {op : Op} {status : Bool} {query : String} {args : List String}

/-- What an operation returns agrees: `valid` tells whether the block is open. -/
def Agree (r : Bool × PgSqlTransaction × Block) : Prop := r.2.1.valid = r.2.2.isOpen

theorem ask_agrees_iff : Agree (ask srv async t b query args o) ↔
    async = true ∧ (b.answer (srv.reads query args) o).1 = false ∨
      t.valid = (b.answer (srv.reads query args) o).2.isOpen := by
  rw [ask, executeWithCallback]
  generalize b.answer (srv.reads query args) o = p
  obtain ⟨ok, c⟩ := p
  cases ok with
  | true => simp [Agree]
  | false =>
    cases async with
    | true => simp [Agree, Block.isOpen]
    | false => simp [Agree]

theorem Block.eq_idle (h : b.isOpen = false) : b = .idle := by
  cases b with
  | idle => rfl
  | inBlock => cases h
  | failed => cases h

/-- Only the ends of a block close it while the connection is there. -/
theorem answer_isOpen {c : Command} (hc : c ≠ .commit ∧ c ≠ .rollback) (hb : b.isOpen = true)
    (ho : o ≠ .lost) : (b.answer c o).2.isOpen = true := by
  cases b with
  | idle => cases hb
  | inBlock | failed =>
    cases o with
    | lost => exact absurd rfl ho
    | served | refused | unsent =>
      cases c with
      | commit => exact absurd rfl hc.1
      | rollback => exact absurd rfl hc.2
      | begin | rollbackTo | other => rfl

/-- Only a `BEGIN` that is served opens a block. -/
theorem answer_idle {c : Command} (hc : c ≠ .begin ∨ o ≠ .served) :
    (Block.idle.answer c o).2 = .idle := by
  cases o with
  | served =>
    cases c with
    | begin => exact absurd rfl (hc.resolve_right fun h => h rfl)
    | commit | rollback | rollbackTo | other => rfl
  | refused => cases c <;> rfl
  | lost | unsent => rfl

/-- A statement that neither begins nor ends a block. -/
theorem ask_inner_iff (h : t.valid = b.isOpen)
    (hc : srv.reads query args = .rollbackTo ∨ srv.reads query args = .other) :
    Agree (ask srv async t b query args o) ↔ (t.valid = true → async = true ∨ o ≠ .lost) := by
  have hinner : srv.reads query args ≠ .begin ∧ srv.reads query args ≠ .commit ∧
      srv.reads query args ≠ .rollback := by
    rcases hc with hc | hc <;> rw [hc] <;> exact ⟨nofun, nofun, nofun⟩
  rw [ask_agrees_iff]
  cases hvalid : t.valid with
  | false =>
    obtain rfl := Block.eq_idle (h.symm.trans hvalid)
    refine iff_of_true (.inr ?_) nofun
    rw [answer_idle (.inl hinner.1)]
    rfl
  | true =>
    rw [hvalid] at h
    by_cases ho : o = .lost
    · subst ho
      show async = true ∧ false = false ∨ true = false ↔ _
      simp
    · rw [answer_isOpen hinner.2 h.symm ho]
      exact iff_of_true (.inr rfl) fun _ => .inr ho

/-- An end of a block, asked for when `valid` was cleared. -/
theorem ask_end_iff (h : b.isOpen = true)
    (hc : srv.reads query args = .commit ∨ srv.reads query args = .rollback) :
    Agree (ask srv async { t with valid := false } b query args o) ↔
      async = true ∨ o ≠ .unsent := by
  rw [ask_agrees_iff]
  cases o with
  | unsent =>
    show async = true ∧ false = false ∨ false = b.isOpen ↔ _
    simp [h]
  | served | refused | lost =>
    refine iff_of_true (.inr ?_) (.inr nofun)
    rcases hc with hc | hc <;> rw [hc] <;> cases b <;> rfl

theorem begin_agrees_iff (h : t.valid = b.isOpen) :
    Agree (begin srv async t b o) ↔ Op.Allowed srv async t (.begin o) := by
  rw [begin]
  cases hvalid : t.valid with
  | true => exact iff_of_true h (.inl hvalid)
  | false =>
    obtain rfl := Block.eq_idle (h.symm.trans hvalid)
    rw [if_neg Bool.false_ne_true, ask_agrees_iff, srv.begin]
    show _ ↔ t.valid = true ∨ _
    rw [hvalid]
    cases o with
    | served => exact iff_of_true (.inr rfl) (.inr (.inr rfl))
    | refused | lost | unsent =>
      show async = true ∧ false = false ∨ true = false ↔ _
      simp

/-- What ends a block: `commit`, and `rollback` without a savepoint. -/
theorem end_agrees_iff (h : t.valid = b.isOpen)
    (hc : srv.reads query args = .commit ∨ srv.reads query args = .rollback) :
    Agree (if t.valid then ask srv async { t with valid := false } b query args o
      else (false, t, b)) ↔ (t.valid = true → async = true ∨ o ≠ .unsent) := by
  cases hvalid : t.valid with
  | false => exact iff_of_true h nofun
  | true =>
    rw [if_pos rfl, ask_end_iff (h.symm.trans hvalid) hc]
    exact (imp_iff_right rfl).symm

/-- `savepoint`, `release`, and `rollback` to a savepoint. -/
theorem inner_agrees_iff (h : t.valid = b.isOpen)
    (hc : srv.reads query args = .rollbackTo ∨ srv.reads query args = .other) :
    Agree (if t.valid then ask srv async t b query args o else (false, t, b)) ↔
      (t.valid = true → async = true ∨ o ≠ .lost) := by
  split
  · exact ask_inner_iff h hc
  · rename_i hvalid
    exact iff_of_true h fun hset => absurd hset hvalid

theorem commit_agrees_iff (h : t.valid = b.isOpen) :
    Agree (commit srv async t b o) ↔ (t.valid = true → async = true ∨ o ≠ .unsent) :=
  end_agrees_iff h (.inl srv.commit)

theorem rollback_agrees_iff (h : t.valid = b.isOpen) (sp : Option String) :
    Agree (rollback srv async t b sp o) ↔ Op.Allowed srv async t (.rollback sp o) := by
  cases sp with
  | some sp => exact inner_agrees_iff h (.inl (srv.rollbackTo sp))
  | none => exact end_agrees_iff h (.inr srv.rollback)

theorem statement_agrees_iff (h : t.valid = b.isOpen) : Agree (ask srv async t b query args o) ↔
    Op.Allowed srv async t (.statement query args o) := by
  show _ ↔ (srv.reads query args).Allowed async t.valid o
  cases hc : srv.reads query args with
  | rollbackTo => exact ask_inner_iff h (.inl hc)
  | other => exact ask_inner_iff h (.inr hc)
  | begin =>
    rw [ask_agrees_iff, hc]
    cases hvalid : t.valid with
    | false =>
      obtain rfl := Block.eq_idle (h.symm.trans hvalid)
      cases o with
      | served => simp [Command.Allowed, Block.answer, Block.serve, Block.isOpen]
      | refused | lost | unsent => exact iff_of_true (.inr rfl) nofun
    | true =>
      rw [hvalid] at h
      by_cases ho : o = .lost
      · subst ho
        simp [Command.Allowed, Block.answer, Block.isOpen]
      · have hopen := answer_isOpen (c := .begin) ⟨nofun, nofun⟩ h.symm ho
        rw [hopen]
        exact iff_of_true (.inr rfl) (.inr ho)
  | commit | rollback =>
    rw [ask_agrees_iff, hc]
    cases hvalid : t.valid with
    | false =>
      obtain rfl := Block.eq_idle (h.symm.trans hvalid)
      refine iff_of_true (.inr ?_) nofun
      cases o <;> rfl
    | true =>
      rw [hvalid] at h
      cases o with
      | served => cases b <;> simp [Command.Allowed, Block.answer, Block.serve, Block.isOpen]
      | refused => cases b <;> simp [Command.Allowed, Block.answer, Block.refuse, Block.isOpen]
      | lost => simp [Command.Allowed, Block.answer, Block.isOpen]
      | unsent => exact iff_of_true (.inr h) fun _ => ⟨nofun, .inr rfl⟩

theorem commit_valid : (commit srv async t b o).2.1.valid = false := by
  rw [commit]
  cases hvalid : t.valid with
  | false => exact hvalid
  | true =>
    rw [if_pos rfl, ask]
    split <;> rfl

/-- Whether the connection is handed back without an open block. -/
theorem destruct_idle_iff (h : t.valid = b.isOpen) :
    (destruct srv async t b o).2.2.isOpen = false ↔ Op.Allowed srv async t (.destroy o) := by
  rw [destruct]
  show _ ↔ (t.valid = true → t.autoCommit = true ∧ (async = true ∨ o ≠ .unsent))
  cases hauto : t.autoCommit with
  | false =>
    show b.isOpen = false ↔ _
    rw [← h]
    simp
  | true =>
    rw [if_pos rfl]
    have hcommit : Agree (commit srv async t b o) ↔ (t.valid = true → async = true ∨ o ≠ .unsent) :=
      commit_agrees_iff h
    rw [Agree, commit_valid, eq_comm] at hcommit
    simpa using hcommit

theorem agrees_some {r : Bool × PgSqlTransaction × Block} :
    (next r).2.Agrees ↔ Agree r := by
  constructor
  · exact fun hagrees => hagrees.valid _ rfl
  · intro hagree
    refine ⟨fun t ht => ?_, nofun⟩
    obtain rfl := Option.some.inj ht
    exact hagree

theorem agrees_none : (⟨b, none⟩ : Session).Agrees ↔ b.isOpen = false :=
  ⟨fun hagrees => hagrees.returned rfl, fun hclosed => ⟨nofun, fun _ => hclosed⟩⟩

theorem allowed_some : Allowed srv async ⟨b, some t⟩ op ↔ op.Allowed srv async t :=
  ⟨fun h => h t rfl, fun h _ ht => Option.some.inj ht ▸ h⟩

theorem Session.Agrees.step_iff (hagrees : s.Agrees)
    (hstep : step srv async s op = some (status, u)) : u.Agrees ↔ Allowed srv async s op := by
  obtain ⟨b, txn⟩ := s
  cases txn with
  | none =>
    cases op with
    | create autoCommit =>
      obtain ⟨rfl, rfl⟩ := Prod.mk.inj (Option.some.inj hstep)
      refine iff_of_true ⟨fun t ht => ?_, nofun⟩ nofun
      obtain rfl := Option.some.inj ht
      exact (hagrees.returned rfl).symm
    | begin | commit | rollback | savepoint | release | statement | destroy => cases hstep
  | some t =>
    have h : t.valid = b.isOpen := hagrees.valid t rfl
    rw [allowed_some]
    cases op with
    | create autoCommit => cases hstep
    | begin o =>
      obtain ⟨rfl, rfl⟩ := Prod.mk.inj (Option.some.inj hstep)
      exact agrees_some.trans (begin_agrees_iff h)
    | commit o =>
      obtain ⟨rfl, rfl⟩ := Prod.mk.inj (Option.some.inj hstep)
      exact agrees_some.trans (commit_agrees_iff h)
    | rollback sp o =>
      obtain ⟨rfl, rfl⟩ := Prod.mk.inj (Option.some.inj hstep)
      exact agrees_some.trans (rollback_agrees_iff h sp)
    | savepoint name o =>
      obtain ⟨rfl, rfl⟩ := Prod.mk.inj (Option.some.inj hstep)
      exact agrees_some.trans (inner_agrees_iff h (.inr (srv.savepoint name)))
    | release name o =>
      obtain ⟨rfl, rfl⟩ := Prod.mk.inj (Option.some.inj hstep)
      exact agrees_some.trans (inner_agrees_iff h (.inr (srv.release name)))
    | statement query args o =>
      obtain ⟨rfl, rfl⟩ := Prod.mk.inj (Option.some.inj hstep)
      exact agrees_some.trans (statement_agrees_iff h)
    | destroy o =>
      obtain ⟨rfl, rfl⟩ := Prod.mk.inj (Option.some.inj hstep)
      exact agrees_none.trans (destruct_idle_iff h)

/-- **The runs in which `valid` tells whether a block is open**, and in which no connection is
handed back with one open, are those of the operations that are `Allowed`. -/
theorem run_agrees_iff (srv : Server) (async : Bool) {ms : List (Move Session Op Bool)}
    {s : Session} (h : Run (step srv async) {} ms s) :
    (∀ m ∈ ms, m.after.Agrees) ↔ ∀ m ∈ ms, Allowed srv async m.before m.input :=
  h.rule_iff (J := Session.Agrees) trivial ⟨nofun, fun _ => rfl⟩
    fun _ _ _ _ _ hagrees hstep => ⟨trivial, hagrees.step_iff hstep⟩

instance {valid : Bool} : DecidablePred (Command.Allowed async valid o)
  | .begin => inferInstanceAs
    (Decidable (if valid = true then async = true ∨ o ≠ .lost else o ≠ .served))
  | .commit | .rollback => inferInstanceAs
    (Decidable (valid = true → o ≠ .served ∧ (async = true ∨ o = .unsent)))
  | .rollbackTo | .other => inferInstanceAs (Decidable (valid = true → async = true ∨ o ≠ .lost))

instance : DecidablePred (Op.Allowed srv async t)
  | .create _ => inferInstanceAs (Decidable True)
  | .begin o => inferInstanceAs (Decidable (t.valid = true ∨ async = true ∨ o = .served))
  | .commit o | .rollback none o =>
    inferInstanceAs (Decidable (t.valid = true → async = true ∨ o ≠ .unsent))
  | .rollback (some _) o | .savepoint _ o | .release _ o =>
    inferInstanceAs (Decidable (t.valid = true → async = true ∨ o ≠ .lost))
  | .statement query args o =>
    inferInstanceAs (Decidable ((srv.reads query args).Allowed async t.valid o))
  | .destroy o => inferInstanceAs
    (Decidable (t.valid = true → t.autoCommit = true ∧ (async = true ∨ o ≠ .unsent)))

instance : DecidablePred (Allowed srv async s) := fun op =>
  inferInstanceAs (Decidable (∀ t, s.txn = some t → op.Allowed srv async t))

/-- A server that reads these texts and no others. -/
def plainServer : Server where
  reads query _ :=
    if query = "BEGIN;" then .begin
    else if query = "COMMIT;" then .commit
    else if query = "ROLLBACK;" then .rollback
    else if query = "ROLLBACK TO SAVEPOINT $1;" then .rollbackTo
    else .other
  begin := rfl
  commit := rfl
  rollback := rfl
  rollbackTo _ := rfl
  savepoint _ := rfl
  release _ := rfl

/-- A statement that fails, then a new transaction that is committed when it is destroyed. -/
theorem run_agrees_of_two :
    let ops : List Op := [.create false, .begin .served, .savepoint "a" .refused,
      .statement "DELETE FROM t" [] .refused, .rollback none .served, .destroy .served,
      .create true, .begin .served, .statement "DELETE FROM t" [] .served, .destroy .served]
    (∀ m ∈ moves (step plainServer false) {} ops, m.after.Agrees) ∧
      (moves (step plainServer false) {} ops).length = 10 :=
  ⟨(run_agrees_iff plainServer false (run_final _ _ _)).mpr (by decide), by decide⟩

/-- A `BEGIN` that fails leaves `valid` set, and a transaction that is not to be committed is handed
back open. -/
theorem not_run_agrees :
    let begun := final (step plainServer false) {} [.create true, .begin .refused]
    let left := final (step plainServer true) {} [.create false, .begin .served, .destroy .served]
    begun = ⟨.idle, some ⟨true, true⟩⟩ ∧ left = ⟨.inBlock, none⟩ ∧
      ¬ ∀ srv async ms s, Run (step srv async) {} ms s → ∀ m ∈ ms, m.after.Agrees := by
  refine ⟨by decide, by decide, fun hall => ?_⟩
  have hagrees := hall plainServer false _ _ (run_final _ _ [.create true, .begin .refused]) _
    (List.mem_cons_of_mem _ List.mem_cons_self)
  exact absurd (hagrees.valid _ rfl) (by decide)

end PgTxn
end Suil
