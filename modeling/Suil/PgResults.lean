/-
The results of a PostgreSQL statement that is executed again and again (`pgsql_result`).

An execution clears the results of the one before and adds its own; reading walks them with an
iterator that was stored when they were cleared, and with the number of a row.  The flag that says
that an execution failed is never taken back.

* `deliverLoop_eq` — what is delivered from the first row;
* `run_rows_iff` — the runs in which a successful execution has a good status, and every reading
  after it delivers its rows.
-/
import Suil.Lib.Runs

open Runs

namespace Suil

namespace PgResults

variable {Row α : Type}

/-- `pgsql_result`.  The iterator is a position of `results`, `results.size()` for the end; none
when it is not one. -/
structure PgSqlResult (Row : Type) where
  failure : Bool := false
  results : List (List Row) := []
  it : Option ℕ := none
  row : ℕ := 0
deriving DecidableEq

namespace PgSqlResult

def reset (r : PgSqlResult Row) : PgSqlResult Row := { r with it := some 0, row := 0 }

def clear (r : PgSqlResult Row) : PgSqlResult Row := { r with results := [] }.reset

def empty (r : PgSqlResult Row) : Bool := r.failure || r.results.isEmpty

def fail (r : PgSqlResult Row) : PgSqlResult Row := { r with failure := true }

def failed (r : PgSqlResult Row) : Bool := r.failure

/-- `add`: only results with rows.  `push_back` may invalidate iterators, and `moves` tells whether
it does. -/
def add (r : PgSqlResult Row) (rows : List Row) (moves : Bool) : PgSqlResult Row :=
  if rows = [] then r
  else { r with results := r.results ++ [rows], it := if moves then none else r.it }

/-- `next`, on an iterator that is not at the end. -/
def next (r : PgSqlResult Row) (i : ℕ) (rows : List Row) : Bool × PgSqlResult Row :=
  if rows.length ≤ r.row + 1 then
    (i + 1 < r.results.length, { r with it := some (i + 1), row := 0 })
  else (i < r.results.length, { r with row := r.row + 1 })

end PgSqlResult

/-- A result that the server sends: rows, something without rows, or an error. -/
inductive Reply (Row : Type) where
  | tuples (rows : List Row) (moves : Bool)
  | command
  | error
deriving DecidableEq

def Reply.rows : Reply Row → List Row
  | .tuples rows _ => rows
  | .command | .error => []

/-- The synchronous part of `execute`, and whether it succeeds. -/
def executeSync (r : PgSqlResult Row) : Reply Row → Bool × PgSqlResult Row
  | .tuples rows moves => (true, if rows = [] then r.clear else r.clear.add rows moves)
  | .command => (true, r.clear)
  | .error => (false, r.clear.fail)

/-- The loop over the results in the asynchronous part of `execute`; when there are no more, a wait
or an input may have failed. -/
def receive (finished : Bool) : List (Reply Row) → PgSqlResult Row → Bool × PgSqlResult Row
  | [], r => (finished, r)
  | .tuples rows moves :: replies, r => receive finished replies (r.add rows moves)
  | .command :: replies, r => receive finished replies r
  | .error :: _, r => (false, r)

/-- The asynchronous part of `execute`, which throws when it does not succeed. -/
def executeAsync (r : PgSqlResult Row) (sent finished : Bool) (replies : List (Reply Row)) :
    Bool × PgSqlResult Row :=
  if sent then receive finished replies r.clear else (false, r.clear)

/-- The loop of `operator>>` and `operator|`: a row that cannot be read as asked for is left out.
None when the iterator is not at a result. -/
def deliverLoop (read : Row → Option α) :
    ℕ → PgSqlResult Row → List α → Option (List α × PgSqlResult Row)
  | 0, _, _ => none
  | fuel + 1, r, dest => do
    let i ← r.it
    let rows ← r.results[i]?
    let dest := dest ++ (rows[r.row]?.bind read).toList
    match r.next i rows with
    | (true, r) => deliverLoop read fuel r dest
    | (false, r) => some (dest, r)

/-- As many steps as there are rows. -/
def deliver (read : Row → Option α) (r : PgSqlResult Row) (dest : List α) :
    Option (List α × PgSqlResult Row) :=
  deliverLoop read r.results.flatten.length r dest

/-- A statement is executed, in its mode, or its rows are read with `operator>>`, into a vector, or
with `operator|`. -/
inductive Op (Row α : Type) where
  | sync (reply : Reply Row)
  | async (sent finished : Bool) (replies : List (Reply Row))
  | into (dest : List α)
  | pipe

inductive Answer (α : Type) where
  | executed (success : Bool)
  | rows (status : Bool) (l : List α)
  | undefined
deriving DecidableEq

/-- The results, and the rows of the last execution if it succeeded. -/
structure Statement (Row : Type) where
  result : PgSqlResult Row := {}
  last : Option (List Row) := none
deriving DecidableEq

/-- The statement after an execution. -/
def executed (e : Bool × PgSqlResult Row) (rows : List Row) : Statement Row :=
  ⟨e.2, if e.1 then some rows else none⟩

def step (async : Bool) (read : Row → Option α) (s : Statement Row) :
    Op Row α → Option (Answer α × Statement Row)
  | .sync reply =>
    if async then none
    else
      let e := executeSync s.result reply
      some (.executed e.1, executed e reply.rows)
  | .async sent finished replies =>
    if async then
      let e := executeAsync s.result sent finished replies
      some (.executed e.1, executed e (replies.flatMap Reply.rows))
    else none
  | .into dest =>
    if s.result.empty then some (.rows false dest, s)
    else
      match deliver read s.result dest with
      | none => some (.undefined, s)
      | some (dest, r) => some (.rows (!dest.isEmpty) dest, { s with result := r })
  | .pipe =>
    if s.result.empty then some (.rows true [], s)
    else
      match deliver read s.result [] with
      | none => some (.undefined, s)
      | some (l, r) => some (.rows true l, { s with result := r.reset })

/-- What a vector holds before it is read into. -/
def Op.dest : Op Row α → Option (List α)
  | .into dest => some dest
  | .pipe => some []
  | .sync _ | .async .. => none

/-- After an execution that succeeded the status is good, and a reading delivers its rows. -/
structure Right (read : Row → Option α) (m : Move (Statement Row) (Op Row α) (Answer α)) :
    Prop where
  status : m.after.last ≠ none → m.after.result.failed = false
  delivered : ∀ rows dest, m.before.last = some rows → m.input.dest = some dest →
    ∃ status, m.output = .rows status (dest ++ rows.filterMap read)
  defined : m.output ≠ .undefined

/-- An execution does not succeed where one before it failed without throwing; and rows are read
while the iterator is at the first of them. -/
def Allowed (s : Statement Row) : Op Row α → Prop
  | .sync reply => reply ≠ .error → s.result.failure = false
  | .async .. => True
  | .into _ | .pipe => s.result.empty = false → s.result.it = some 0

/-- Every result has rows, and they are those of the last execution; the iterator is at the first
row, at the end or nowhere. -/
structure Inv (async : Bool) (s : Statement Row) : Prop where
  nonempty : ∀ rows ∈ s.result.results, rows ≠ []
  last : ∀ rows, s.last = some rows → s.result.failure = false ∧ s.result.results.flatten = rows
  it : ∀ i, s.result.it = some i → s.result.row = 0 ∧ (i = 0 ∨ i = s.result.results.length)
  mode : async = true → s.result.failure = false

variable {async finished : Bool} {read : Row → Option α} {r : PgSqlResult Row} {dest l : List α}
  {rows : List Row} {replies : List (Reply Row)} {s u : Statement Row} {o : Answer α}
  {op : Op Row α} {i fuel : ℕ}

/-- The rows that are left from a position on. -/
def remaining (r : PgSqlResult Row) (i : ℕ) : List Row :=
  (r.results.drop i).flatten.drop r.row

/-- The first of them, and the rest. -/
theorem remaining_eq (hi : r.results[i]? = some rows) (hrow : r.row < rows.length) :
    remaining r i =
      rows[r.row] :: (rows.drop (r.row + 1) ++ (r.results.drop (i + 1)).flatten) := by
  obtain ⟨hlt, rfl⟩ := List.getElem?_eq_some_iff.mp hi
  rw [remaining, List.drop_eq_getElem_cons hlt, List.flatten_cons,
    List.drop_append_of_le_length hrow.le, List.drop_eq_getElem_cons hrow, List.cons_append]

theorem deliverLoop_succ (hit : r.it = some i) (hi : r.results[i]? = some rows)
    (hrow : r.row < rows.length) : deliverLoop read (fuel + 1) r dest =
      match r.next i rows with
      | (true, u) => deliverLoop read fuel u (dest ++ [rows[r.row]].filterMap read)
      | (false, u) => some (dest ++ [rows[r.row]].filterMap read, u) := by
  have hread : (rows[r.row]?.bind read).toList = [rows[r.row]].filterMap read := by
    rw [List.getElem?_eq_getElem hrow, Option.bind_some]
    cases hrow' : read rows[r.row] with
    | none => rw [List.filterMap_cons_none hrow', List.filterMap_nil, Option.toList_none]
    | some a => rw [List.filterMap_cons_some hrow', List.filterMap_nil, Option.toList_some]
  rw [deliverLoop, hit]
  show (r.results[i]?.bind fun rows => _) = _
  rw [hi, Option.bind_some, hread]

/-- **What is delivered**: the rows from the position of the iterator on. -/
theorem deliverLoop_eq (hne : ∀ rows ∈ r.results, rows ≠ []) (hit : r.it = some i)
    (hi : r.results[i]? = some rows) (hrow : r.row < rows.length)
    (hfuel : (remaining r i).length ≤ fuel) : deliverLoop read fuel r dest =
      some (dest ++ (remaining r i).filterMap read,
        { r with it := some r.results.length, row := 0 }) := by
  induction fuel generalizing r i rows dest with
  | zero =>
    rw [remaining_eq hi hrow, List.length_cons] at hfuel
    exact absurd hfuel (Nat.not_succ_le_zero _)
  | succ fuel ih =>
    have hlt : i < r.results.length := (List.getElem?_eq_some_iff.mp hi).1
    have hrem := remaining_eq hi hrow
    rw [hrem, List.length_cons] at hfuel
    have hfuel := Nat.le_of_succ_le_succ hfuel
    have hall : (remaining r i).filterMap read = [rows[r.row]].filterMap read ++
        (rows.drop (r.row + 1) ++ (r.results.drop (i + 1)).flatten).filterMap read := by
      rw [hrem]
      exact List.filterMap_append (l := [rows[r.row]])
    rw [deliverLoop_succ hit hi hrow, hall, ← List.append_assoc, PgSqlResult.next]
    by_cases hlast : rows.length ≤ r.row + 1
    · -- the last row of a result
      rw [List.drop_eq_nil_of_le hlast, List.nil_append] at hfuel
      rw [if_pos hlast, List.drop_eq_nil_of_le hlast, List.nil_append]
      by_cases hmore : i + 1 < r.results.length
      · rw [decide_eq_true hmore]
        have hnext : r.results[i + 1]? = some r.results[i + 1] := List.getElem?_eq_getElem hmore
        have hpos : 0 < (r.results[i + 1]).length :=
          List.length_pos_iff.mpr (hne _ (List.getElem_mem hmore))
        exact ih (r := { r with it := some (i + 1), row := 0 }) hne rfl hnext hpos hfuel
      · have hend : i + 1 = r.results.length := by omega
        rw [decide_eq_false hmore, List.drop_eq_nil_of_le hend.ge, List.flatten_nil,
          List.filterMap_nil, List.append_nil, hend]
    · have hrow' : r.row + 1 < rows.length := Nat.not_le.mp hlast
      have hrest : remaining { r with row := r.row + 1 } i =
          rows.drop (r.row + 1) ++ (r.results.drop (i + 1)).flatten := by
        rw [remaining_eq (r := { r with row := r.row + 1 }) hi hrow',
          List.drop_eq_getElem_cons hrow', List.cons_append]
      rw [if_neg hlast, decide_eq_true hlt, ← hrest]
      rw [← hrest] at hfuel
      exact ih (r := { r with row := r.row + 1 }) hne hit hi hrow' hfuel

/-- From the first row all rows are delivered. -/
theorem deliver_eq (hne : ∀ rows ∈ r.results, rows ≠ []) (hresults : r.results ≠ [])
    (hit : r.it = some 0) (hrow : r.row = 0) : deliver read r dest =
      some (dest ++ r.results.flatten.filterMap read,
        { r with it := some r.results.length, row := 0 }) := by
  have hpos : 0 < r.results.length := List.length_pos_iff.mpr hresults
  have hrem : remaining r 0 = r.results.flatten := by
    rw [remaining, hrow]
    rfl
  have hfirst : r.row < (r.results[0]).length := by
    rw [hrow]
    exact List.length_pos_iff.mpr (hne _ (List.getElem_mem hpos))
  have hfuel : (remaining r 0).length ≤ r.results.flatten.length := (congrArg _ hrem).le
  rw [deliver, deliverLoop_eq hne hit (List.getElem?_eq_getElem hpos) hfirst hfuel, hrem]

/-- Nothing is defined at the end. -/
theorem deliver_eq_none (hit : ∀ i, r.it = some i → i = r.results.length) :
    deliver read r dest = none := by
  rw [deliver]
  cases r.results.flatten.length with
  | zero => rfl
  | succ fuel =>
    rw [deliverLoop]
    cases hi : r.it with
    | none => rfl
    | some i =>
      show (r.results[i]?.bind fun rows => _) = _
      rw [List.getElem?_eq_none (hit i hi).ge]
      rfl

/-- While an execution adds its results the iterator stays at the first row, unless it is
invalidated. -/
structure Collecting (r : PgSqlResult Row) : Prop where
  nonempty : ∀ rows ∈ r.results, rows ≠ []
  row : r.row = 0
  it : ∀ i, r.it = some i → i = 0

theorem Collecting.clear (r : PgSqlResult Row) : Collecting r.clear :=
  ⟨fun _ h => absurd h List.not_mem_nil, rfl, fun _ h => (Option.some.inj h).symm⟩

theorem Collecting.add (h : Collecting r) (rows : List Row) (moves : Bool) :
    Collecting (r.add rows moves) := by
  rw [PgSqlResult.add]
  split
  · exact h
  · rename_i hne
    refine ⟨fun l hl => ?_, h.row, fun i hi => ?_⟩
    · rcases List.mem_append.mp hl with hl | hl
      · exact h.nonempty l hl
      · exact List.mem_singleton.mp hl ▸ hne
    · cases moves with
      | true => cases hi
      | false => exact h.it i hi

theorem add_failure (rows : List Row) (moves : Bool) :
    (r.add rows moves).failure = r.failure := by
  rw [PgSqlResult.add]
  split <;> rfl

theorem add_flatten (rows : List Row) (moves : Bool) :
    (r.add rows moves).results.flatten = r.results.flatten ++ rows := by
  rw [PgSqlResult.add]
  split
  · rename_i heq
    rw [heq, List.append_nil]
  · rw [List.flatten_append, List.flatten_singleton]

theorem Collecting.receive (h : Collecting r) (finished : Bool) (replies : List (Reply Row)) :
    Collecting (receive finished replies r).2 ∧
      (receive finished replies r).2.failure = r.failure ∧
      ((receive finished replies r).1 = true → (receive finished replies r).2.results.flatten =
        r.results.flatten ++ replies.flatMap Reply.rows) := by
  induction replies generalizing r with
  | nil => exact ⟨h, rfl, fun _ => (List.append_nil _).symm⟩
  | cons reply replies ih =>
    cases reply with
    | tuples rows moves =>
      obtain ⟨hcollecting, hfailure, hflatten⟩ := ih (h.add rows moves)
      refine ⟨hcollecting, hfailure.trans (add_failure rows moves), fun hsuccess => ?_⟩
      rw [List.flatMap_cons, ← List.append_assoc]
      exact (hflatten hsuccess).trans (congrArg (· ++ _) (add_flatten rows moves))
    | command => exact ih h
    | error => exact ⟨h, rfl, nofun⟩

theorem Collecting.executeSync (r : PgSqlResult Row) (reply : Reply Row) :
    Collecting (executeSync r reply).2 ∧ ((executeSync r reply).1 = true ↔ reply ≠ .error) ∧
      (reply ≠ .error → (executeSync r reply).2.failure = r.failure ∧
        (executeSync r reply).2.results.flatten = reply.rows) := by
  cases reply with
  | tuples rows moves =>
    rw [PgResults.executeSync]
    split
    · rename_i heq
      exact ⟨.clear r, iff_of_true rfl nofun, fun _ => ⟨rfl, heq.symm⟩⟩
    · refine ⟨(Collecting.clear r).add rows moves, iff_of_true rfl nofun, fun _ => ⟨?_, ?_⟩⟩
      · exact add_failure rows moves
      · exact add_flatten rows moves
  | command => exact ⟨.clear r, iff_of_true rfl nofun, fun _ => ⟨rfl, rfl⟩⟩
  | error =>
    have hclear := Collecting.clear r
    exact ⟨⟨hclear.nonempty, hclear.row, hclear.it⟩, iff_of_false nofun fun h => h rfl,
      fun h => absurd rfl h⟩

variable {e : Bool × PgSqlResult Row}

theorem executed_right_iff (hdest : op.dest = none) :
    Right read ⟨s, op, .executed e.1, executed e rows⟩ ↔
      (e.1 = true → e.2.failure = false) := by
  constructor
  · intro hright hsuccess
    refine hright.status ?_
    show (if e.1 = true then some rows else none) ≠ none
    rw [if_pos hsuccess]
    exact nofun
  · intro hgood
    refine ⟨fun hlast => hgood ?_, fun rows dest _ hsome => ?_, nofun⟩
    · by_contra hfail
      exact hlast (if_neg hfail)
    · rw [show op.dest = some dest from hsome] at hdest
      cases hdest

/-- An execution that succeeded with its rows, or failed. -/
theorem Inv.executed (hcollecting : Collecting e.2)
    (hrows : e.1 = true → e.2.failure = false ∧ e.2.results.flatten = rows)
    (hmode : async = true → e.2.failure = false) :
    Inv async (executed e rows) := by
  refine ⟨hcollecting.nonempty, fun l hl => ?_, fun i hi => ?_, hmode⟩
  · have hlast : (if e.1 = true then some rows else none) = some l := hl
    split at hlast
    · rename_i hsuccess
      obtain rfl := Option.some.inj hlast
      exact hrows hsuccess
    · cases hlast
  · exact ⟨hcollecting.row, .inl (hcollecting.it i hi)⟩

theorem not_empty_iff : s.result.empty = false ↔
    s.result.failure = false ∧ s.result.results ≠ [] := by
  rw [PgSqlResult.empty, Bool.or_eq_false_iff, List.isEmpty_eq_false_iff]

/-- Reading is defined at the first row only. -/
theorem Inv.deliver (hinv : Inv async s) (read : Row → Option α)
    (hempty : s.result.empty = false) (dest : List α) :
    (s.result.it = some 0 → deliver read s.result dest =
      some (dest ++ s.result.results.flatten.filterMap read,
        { s.result with it := some s.result.results.length, row := 0 })) ∧
    (s.result.it ≠ some 0 → PgResults.deliver read s.result dest = none) := by
  obtain ⟨_, hresults⟩ := not_empty_iff.mp hempty
  constructor
  · exact fun hit => deliver_eq hinv.nonempty hresults hit (hinv.it 0 hit).1
  · intro hit
    refine deliver_eq_none fun i hi => (hinv.it i hi).2.resolve_left ?_
    rintro rfl
    exact hit hi

/-- A reading after which the iterator is at the first row or at the end. -/
theorem Inv.moved (hinv : Inv async s) (hi : i = 0 ∨ i = s.result.results.length) :
    Inv async { s with result := { s.result with it := some i, row := 0 } } := by
  refine ⟨hinv.nonempty, hinv.last, fun j hj => ⟨rfl, ?_⟩, hinv.mode⟩
  obtain rfl := Option.some.inj hj
  exact hi

theorem Inv.right_of_rows {status : Bool} (hinv : Inv async s) (hdest : op.dest = some dest)
    (hl : ∀ rows, s.last = some rows → l = dest ++ rows.filterMap read)
    (hlast : u.last = s.last) (hfailure : u.result.failure = s.result.failure) :
    Right read ⟨s, op, .rows status l, u⟩ := by
  refine ⟨fun hne => ?_, fun rows d hrows hd => ⟨status, ?_⟩, nofun⟩
  · show u.result.failure = false
    obtain ⟨rows, hrows⟩ := Option.ne_none_iff_exists'.mp (hlast ▸ hne)
    exact hfailure.trans (hinv.last rows hrows).1
  · obtain rfl := Option.some.inj (hdest.symm.trans hd)
    exact congrArg _ (hl rows hrows)

/-- Where nothing can be read nothing is. -/
theorem Inv.right_of_empty {status : Bool} (hinv : Inv async s) (hdest : op.dest = some dest)
    (hempty : s.result.empty = true) : Right read ⟨s, op, .rows status dest, s⟩ := by
  refine hinv.right_of_rows hdest (fun rows hrows => ?_) rfl rfl
  obtain ⟨hfailure, hflatten⟩ := hinv.last rows hrows
  have hnone : s.result.results = [] := by
    rwa [PgSqlResult.empty, hfailure, Bool.false_or, List.isEmpty_iff] at hempty
  rw [← hflatten, hnone, List.flatten_nil, List.filterMap_nil, List.append_nil]

theorem Inv.right_of_first {status : Bool} (hinv : Inv async s) (hdest : op.dest = some dest)
    (it : Option ℕ) (row : ℕ) :
    Right read ⟨s, op, .rows status (dest ++ s.result.results.flatten.filterMap read),
      { s with result := { s.result with it := it, row := row } }⟩ :=
  hinv.right_of_rows hdest (fun rows hrows => by rw [(hinv.last rows hrows).2]) rfl rfl

/-- What a reading does, of which `operator>>` and `operator|` are two. -/
theorem Inv.read_right_iff (hinv : Inv async s) (hdest : op.dest = some dest)
    (hempty : s.result.empty = true → ∃ status, o = .rows status dest ∧ u = s)
    (hfirst : s.result.empty = false → s.result.it = some 0 →
      ∃ status i, (i = 0 ∨ i = s.result.results.length) ∧
        o = .rows status (dest ++ s.result.results.flatten.filterMap read) ∧
        u = { s with result := { s.result with it := some i, row := 0 } })
    (helse : s.result.empty = false → s.result.it ≠ some 0 → o = .undefined) :
    (Right read ⟨s, op, o, u⟩ ↔ (s.result.empty = false → s.result.it = some 0)) ∧
      ((s.result.empty = false → s.result.it = some 0) → Inv async u) := by
  cases hread : s.result.empty with
  | true =>
    obtain ⟨status, rfl, rfl⟩ := hempty hread
    exact ⟨iff_of_true (hinv.right_of_empty hdest hread) nofun, fun _ => hinv⟩
  | false =>
    by_cases hit : s.result.it = some 0
    · obtain ⟨status, i, hi, rfl, rfl⟩ := hfirst hread hit
      exact ⟨iff_of_true (hinv.right_of_first hdest _ _) fun _ => hit, fun _ => hinv.moved hi⟩
    · obtain rfl := helse hread hit
      exact ⟨iff_of_false (fun hright => hright.defined rfl) fun h => hit (h rfl),
        fun h => absurd (h rfl) hit⟩

theorem Inv.into_right_iff (hinv : Inv async s)
    (hstep : step async read s (.into dest) = some (o, u)) :
    (Right read ⟨s, .into dest, o, u⟩ ↔ Allowed s (.into dest)) ∧
      (Allowed s (.into dest) → Inv async u) := by
  rw [step] at hstep
  refine hinv.read_right_iff rfl (fun hempty => ?_) (fun hempty hit => ?_) fun hempty hit => ?_
  · rw [if_pos hempty] at hstep
    obtain ⟨rfl, rfl⟩ := Prod.mk.inj (Option.some.inj hstep)
    exact ⟨false, rfl, rfl⟩
  · rw [if_neg (Bool.eq_false_iff.mp hempty), (hinv.deliver read hempty dest).1 hit] at hstep
    obtain ⟨rfl, rfl⟩ := Prod.mk.inj (Option.some.inj hstep)
    exact ⟨_, _, .inr rfl, rfl, rfl⟩
  · rw [if_neg (Bool.eq_false_iff.mp hempty), (hinv.deliver read hempty dest).2 hit] at hstep
    exact (Prod.mk.inj (Option.some.inj hstep)).1.symm

theorem Inv.pipe_right_iff (hinv : Inv async s)
    (hstep : step async read s .pipe = some (o, u)) :
    (Right read ⟨s, .pipe, o, u⟩ ↔ Allowed (α := α) s .pipe) ∧
      (Allowed (α := α) s .pipe → Inv async u) := by
  rw [step] at hstep
  refine hinv.read_right_iff rfl (fun hempty => ?_) (fun hempty hit => ?_) fun hempty hit => ?_
  · rw [if_pos hempty] at hstep
    obtain ⟨rfl, rfl⟩ := Prod.mk.inj (Option.some.inj hstep)
    exact ⟨true, rfl, rfl⟩
  · rw [if_neg (Bool.eq_false_iff.mp hempty), (hinv.deliver read hempty []).1 hit] at hstep
    obtain ⟨rfl, rfl⟩ := Prod.mk.inj (Option.some.inj hstep)
    exact ⟨_, _, .inl rfl, rfl, rfl⟩
  · rw [if_neg (Bool.eq_false_iff.mp hempty), (hinv.deliver read hempty []).2 hit] at hstep
    exact (Prod.mk.inj (Option.some.inj hstep)).1.symm

theorem Inv.step_right_iff (hinv : Inv async s) (hstep : step async read s op = some (o, u)) :
    (Right read ⟨s, op, o, u⟩ ↔ Allowed s op) ∧ (Allowed s op → Inv async u) := by
  cases op with
  | into dest => exact hinv.into_right_iff hstep
  | pipe => exact hinv.pipe_right_iff hstep
  | sync reply =>
    rw [step] at hstep
    split_ifs at hstep with hasync
    obtain ⟨rfl, rfl⟩ := Prod.mk.inj (Option.some.inj hstep)
    obtain ⟨hcollecting, hsuccess, hgood⟩ := Collecting.executeSync s.result reply
    constructor
    · rw [executed_right_iff rfl, hsuccess]
      exact forall_congr' fun h => by rw [(hgood h).1]
    · intro hallowed
      refine .executed hcollecting (fun h => ?_) fun h => absurd h hasync
      obtain ⟨hfailure, hflatten⟩ := hgood (hsuccess.mp h)
      exact ⟨hfailure.trans (hallowed (hsuccess.mp h)), hflatten⟩
  | async sent finished replies =>
    rw [step] at hstep
    split_ifs at hstep with hasync
    obtain ⟨rfl, rfl⟩ := Prod.mk.inj (Option.some.inj hstep)
    have hfailed := hinv.mode hasync
    rw [executed_right_iff rfl, executeAsync]
    cases sent with
    | false =>
      refine ⟨iff_of_true nofun trivial, fun _ => ?_⟩
      exact .executed (.clear _) nofun fun _ => hfailed
    | true =>
      obtain ⟨hcollecting, hfailure, hflatten⟩ :=
        (Collecting.clear s.result).receive finished replies
      have hgood := hfailure.trans hfailed
      exact ⟨iff_of_true (fun _ => hgood) trivial, fun _ =>
        .executed hcollecting (fun h => ⟨hgood, hflatten h⟩) fun _ => hgood⟩

theorem Inv.empty : Inv async ({} : Statement Row) :=
  ⟨fun _ h => absurd h List.not_mem_nil, nofun, nofun, fun _ => rfl⟩

/-- **The runs in which every execution stands for itself** are those in which none succeeds after
one that failed without throwing, and rows are read while the iterator is at the first of them. -/
theorem run_rows_iff (async : Bool) (read : Row → Option α)
    {ms : List (Move (Statement Row) (Op Row α) (Answer α))} {s : Statement Row}
    (h : Run (step async read) {} ms s) :
    (∀ m ∈ ms, Right read m) ↔ ∀ m ∈ ms, Allowed m.before m.input :=
  h.moves_iff (R := Right read) Inv.empty fun _ _ _ _ hinv hstep => hinv.step_right_iff hstep

instance : DecidablePred (Allowed (α := α) s)
  | .sync reply => match reply with
    | .error => .isTrue fun h => absurd rfl h
    | .tuples .. | .command =>
      decidable_of_iff (s.result.failure = false) ⟨fun h _ => h, fun h => h nofun⟩
  | .async .. => inferInstanceAs (Decidable True)
  | .into _ | .pipe =>
    inferInstanceAs (Decidable (s.result.empty = false → s.result.it = some 0))

/-- Executions with two rows, with none and with three in two results, read in both ways. -/
theorem run_rows_of_three :
    let ops : List (Op ℕ ℕ) := [.sync (.tuples [1, 2] false), .into [], .sync .command, .into [],
      .sync (.tuples [3] false), .pipe, .pipe]
    let replies : List (Reply ℕ) := [.tuples [4, 5] false, .command, .tuples [6] false]
    (∀ m ∈ moves (step false some) {} ops, Right some m) ∧
      ∀ m ∈ moves (step true some) {} [.async true true replies, .into [3]], Right some m :=
  ⟨(run_rows_iff false some (run_final _ _ _)).mpr (by decide),
    (run_rows_iff true some (run_final _ _ _)).mpr (by decide)⟩

/-- An execution that succeeds after one that failed has a bad status and no rows; and what has
been read into a vector cannot be read again. -/
theorem not_run_rows :
    let failed := final (step (α := ℕ) false some) {} [.sync .error, .sync (.tuples [1] false)]
    let again := (moves (step false some) {} [.sync (.tuples [1] false), .into [], .into []]).map
      Move.output
    (failed.last = some [1] ∧ failed.result.failed = true ∧ failed.result.empty = true) ∧
      again = [.executed true, .rows true [1], .undefined] ∧
      ¬ ∀ async ms s, Run (step (α := ℕ) async (some : ℕ → Option ℕ)) {} ms s →
        ∀ m ∈ ms, Right some m := by
  refine ⟨by decide, by decide, fun hall => ?_⟩
  have hright := hall false _ _
    (run_final _ _ [.sync .error, .sync (.tuples [1] false)]) _
    (List.mem_cons_of_mem _ List.mem_cons_self)
  exact absurd (hright.status (by decide)) (by decide)

end PgResults
end Suil
