/-
Batched commands of the Redis client (`RedisClient::batch`, `commit`, `reset`).

`commit` takes the last command off the batch, sends the others itself and leaves the
last one to `dosend`, which reads a reply for each.  The others stay in the batch, and an
error is looked for only in a response of a single entry.

* `commit_single` — the commit of one command;
* `commit_after` — what every commit leaves in the batch;
* `commits_iff` — the runs whose commits send what was batched since the last one.
-/
import Suil.Core
import Suil.Lib.Runs

namespace Suil

namespace RedisBatch

def PrefixError : UInt8 := 45

def PrefixArray : UInt8 := 42

/-- An entry of a `Response`; `kind` is its `prefix`. -/
structure Entry where
  kind : UInt8
  data : Bytes
deriving DecidableEq, Repr

/-- What `receiveResponse` stages: one entry, or that of an array and those of its elements. -/
inductive Reply where
  | line (kind : UInt8) (data : Bytes)
  | array (elements : List Entry)

def Reply.entries : Reply → List Entry
  | .line kind data => [⟨kind, data⟩]
  | .array elements => ⟨PrefixArray, []⟩ :: elements

/-- The connection during a commit: which of its sends take the whole command, and what each
`receiveResponse` stages, if it does not fail. -/
structure Link where
  sends : ℕ → Bool
  receives : ℕ → Option Reply
  errno : Bytes

/-- `Reply::operator bool` -/
def Entry.ok (e : Entry) : Bool :=
  if e.kind = PrefixError then false else e.kind = PrefixArray || e.data ≠ []

/-- `Reply::error` -/
def Entry.error (e : Entry) : Bytes := if e.kind = PrefixError then e.data else []

/-- `Response::operator bool` -/
def ok : List Entry → Bool
  | [] => false
  | [e] => e.ok
  | _ => true

/-- `Response::error` -/
def error : List Entry → Bytes
  | [] => []
  | [e] => e.error
  | e :: es => (es.getLastD e).error

/-- The loop of `dosend` that reads the replies, from the given one on. -/
def receiveAll (link : Link) : ℕ → ℕ → Option (List Entry)
  | _, 0 => some []
  | j, n + 1 =>
    match link.receives j with
    | none => none
    | some reply => (receiveAll link (j + 1) n).map (reply.entries ++ ·)

/-- `dosend(cmd, nrps)`, whose send is the given one: what was sent, and the response. -/
def dosend (link : Link) (i : ℕ) (cmd : Bytes) (nrps : ℕ) : List Bytes × List Entry :=
  if link.sends i then
    match receiveAll link 0 nrps with
    | none => ([cmd], [⟨PrefixError, ascii "receiving Response failed: " ++ link.errno⟩])
    | some stage => ([cmd], stage)
  else ([], [⟨PrefixError, ascii "sending failed: " ++ link.errno⟩])

/-- The loop of `commit`, from the given send on: what was sent, and the command that was not. -/
def sendAll (link : Link) : ℕ → List Bytes → List Bytes × Option Bytes
  | _, [] => ([], none)
  | i, cmd :: cmds =>
    if link.sends i then (cmd :: (sendAll link (i + 1) cmds).1, (sendAll link (i + 1) cmds).2)
    else ([], some cmd)

/-- A commit by what it sent, its response if it was set, and the error it returns. -/
structure Committed where
  sent : List Bytes
  resp : Option (List Entry)
  error : Bytes
deriving DecidableEq, Repr

/-- The bytes of a C string. -/
def cstr (s : Bytes) : Bytes := s.takeWhile (· ≠ 0)

/-- `commit(resp)`: what it did, and the batch after it; none when there is no last command. -/
def commit (link : Link) (batched : List Bytes) : Option (Committed × List Bytes) :=
  match batched.getLast? with
  | none => none
  | some last =>
    match sendAll link 0 batched.dropLast with
    | (sent, some cmd) =>
      some (⟨sent, none, ascii "sending '" ++ cmd.take 64 ++ ascii "' failed: " ++ link.errno⟩,
        batched.dropLast)
    | (sent, none) =>
      let (sent', resp) := dosend link batched.dropLast.length last (batched.dropLast.length + 1)
      some (⟨sent ++ sent', some resp, if ok resp then [] else cstr (error resp)⟩,
        batched.dropLast)

inductive Op where
  | batch (cmds : List Bytes)
  | commit (link : Link)
  | reset

inductive Answer where
  | done
  | committed (c : Committed)
  /-- The last element of an empty vector. -/
  | undefined
deriving DecidableEq, Repr

/-- An operation on the batch. -/
def step (batched : List Bytes) : Op → Option (Answer × List Bytes)
  | .batch cmds => some (.done, batched ++ cmds)
  | .commit link =>
    match commit link batched with
    | none => some (.undefined, batched)
    | some (c, batched) => some (.committed c, batched)
  | .reset => some (.done, [])

/-! ### What is asked of a commit -/

/-- The server's error. -/
def Reply.IsError : Reply → Prop
  | .line kind _ => kind = PrefixError
  | .array _ => False

/-- A commit sends the batch in order, each command once, and all of it when the connection
takes it; the response holds the replies in order, and an error is returned when one of them is
an error or something fails, and only then. -/
structure CommitRight (batch : List Bytes) (link : Link) (c : Committed) : Prop where
  order : c.sent <+: batch
  all : (∀ i < batch.length, link.sends i = true) → c.sent = batch
  replies : (∀ i < batch.length, link.sends i = true) →
    ∀ replies : List Reply, replies.length = batch.length →
      (∀ i < batch.length, link.receives i = replies[i]?) →
      c.resp = some (replies.flatMap Reply.entries) ∧ (c.error ≠ [] ↔ ∃ r ∈ replies, r.IsError)
  fails : (∃ i < batch.length, link.sends i = false ∨ link.receives i = none) → c.error ≠ []

/-- A move that does what is asked; no commit leaves anything in the batch. -/
def Right (m : Runs.Move (List Bytes) Op Answer) : Prop :=
  match m.input with
  | .batch cmds => m.after = m.before ++ cmds
  | .commit link => ∃ c, m.output = .committed c ∧ m.after = [] ∧ CommitRight m.before link c
  | .reset => m.after = []

/-- What was batched since the last commit or reset. -/
def pending (ops : List Op) : List Bytes :=
  ops.foldl (fun acc op =>
    match op with
    | .batch cmds => acc ++ cmds
    | .commit _ => []
    | .reset => []) []

/-- A run in which every commit is right, about what was batched since the last one. -/
structure Commits (ms : List (Runs.Move (List Bytes) Op Answer)) : Prop where
  moves : ∀ m ∈ ms, Right m
  batches : ∀ pre m post, ms = pre ++ m :: post →
    m.before = pending (pre.map fun m' => m'.input)

/-- A commit is of one command, and an error that answers it has a text. -/
def Fine (batched : List Bytes) : Op → Prop
  | .commit link => batched.length = 1 ∧ (link.sends 0 = true →
      ∀ data, link.receives 0 = some (.line PrefixError data) → cstr data ≠ [])
  | _ => True

/-! ### One commit -/

variable {link : Link} {batched batched' : List Bytes} {cmd : Bytes} {c : Committed}

/-- **What is left in the batch**, whatever happens: all but the last command. -/
theorem commit_after (h : commit link batched = some (c, batched')) :
    batched' = batched.dropLast := by
  rw [commit] at h
  cases hlast : batched.getLast? with
  | none =>
    rw [hlast] at h
    cases h
  | some last =>
    rw [hlast] at h
    rcases hsend : sendAll link 0 batched.dropLast with ⟨sent, _ | failed⟩
    · rw [hsend] at h
      exact (congrArg Prod.snd (Option.some.inj h)).symm
    · rw [hsend] at h
      exact (congrArg Prod.snd (Option.some.inj h)).symm

/-- The commit of one command. -/
theorem commit_single (link : Link) (cmd : Bytes) :
    commit link [cmd] = some (⟨(dosend link 0 cmd 1).1, some (dosend link 0 cmd 1).2,
      if ok (dosend link 0 cmd 1).2 then [] else cstr (error (dosend link 0 cmd 1).2)⟩, []) := rfl

theorem dosend_failed (h : link.sends 0 = false) (cmd : Bytes) (n : ℕ) :
    dosend link 0 cmd n = ([], [⟨PrefixError, ascii "sending failed: " ++ link.errno⟩]) := by
  rw [dosend, if_neg (by simp [h])]

theorem dosend_unanswered (h : link.sends 0 = true) (hnone : link.receives 0 = none) (cmd : Bytes) :
    dosend link 0 cmd 1 =
      ([cmd], [⟨PrefixError, ascii "receiving Response failed: " ++ link.errno⟩]) := by
  rw [dosend, if_pos h, receiveAll, hnone]

theorem dosend_answered {reply : Reply} (h : link.sends 0 = true)
    (hsome : link.receives 0 = some reply) (cmd : Bytes) :
    dosend link 0 cmd 1 = ([cmd], reply.entries) := by
  have hall : receiveAll link 0 1 = some reply.entries := by
    rw [receiveAll, hsome]
    exact congrArg some (List.append_nil _)
  rw [dosend, if_pos h, hall]

/-- The text that `dosend` makes up is an error. -/
theorem made_up (c : UInt8) (hc : c ≠ 0) (text : Bytes) :
    (if ok [⟨PrefixError, c :: text⟩] then [] else
      cstr (error [⟨PrefixError, c :: text⟩])) ≠ [] := by
  simp [ok, Entry.ok, error, Entry.error, cstr, hc]

/-- The error of a reply by itself. -/
theorem error_entries (reply : Reply) :
    (if ok reply.entries then [] else cstr (error reply.entries)) ≠ [] ↔
      ∃ data, reply = .line PrefixError data ∧ cstr data ≠ [] := by
  cases reply with
  | line kind data =>
    by_cases hkind : kind = PrefixError
    · simp [Reply.entries, ok, Entry.ok, error, Entry.error, hkind]
    · have herr : cstr (error [⟨kind, data⟩]) = [] := by
        simp [error, Entry.error, hkind, cstr]
      rw [Reply.entries, herr]
      simp [hkind]
  | array elements =>
    have hok : ok (Reply.array elements).entries = true := by
      cases elements <;> rfl
    rw [hok]
    simp

theorem isError_iff {reply : Reply} : reply.IsError ↔ ∃ data, reply = .line PrefixError data := by
  cases reply with
  | line kind data => simp [Reply.IsError]
  | array elements => simp [Reply.IsError]

/-- **The commit of one command is right**, unless an error without a text answers it. -/
theorem commitRight_single (link : Link) (cmd : Bytes)
    (htext : link.sends 0 = true →
      ∀ data, link.receives 0 = some (.line PrefixError data) → cstr data ≠ []) :
    ∃ c, commit link [cmd] = some (c, []) ∧ CommitRight [cmd] link c := by
  refine ⟨_, commit_single link cmd, ?_⟩
  by_cases hsend : link.sends 0 = true
  · rcases hreply : link.receives 0 with _ | reply
    · rw [dosend_unanswered hsend hreply]
      refine ⟨List.prefix_refl _, fun _ => rfl, fun _ replies hlen hall => ?_,
        fun _ => made_up 114 (by decide) _⟩
      -- the reply that is said to come does not
      have hzero := hall 0 (by simp)
      rw [hreply] at hzero
      have hnone := List.getElem?_eq_none_iff.mp hzero.symm
      simp only [List.length_singleton] at hlen
      omega
    · rw [dosend_answered hsend hreply]
      refine ⟨List.prefix_refl _, fun _ => rfl, fun _ replies hlen hall => ?_, ?_⟩
      · obtain ⟨r, rfl⟩ := List.length_eq_one_iff.mp hlen
        have hzero := hall 0 (by simp)
        rw [hreply] at hzero
        obtain rfl : reply = r := by simpa using hzero
        refine ⟨by simp, ?_⟩
        rw [error_entries]
        simp only [List.mem_singleton, exists_eq_left, isError_iff]
        constructor
        · rintro ⟨data, hdata, -⟩
          exact ⟨data, hdata⟩
        · rintro ⟨data, rfl⟩
          exact ⟨data, rfl, htext hsend data hreply⟩
      · rintro ⟨i, hi, hfail⟩
        obtain rfl : i = 0 := by simpa using hi
        rw [hsend, hreply] at hfail
        simp at hfail
  · have hfalse : link.sends 0 = false := by simpa using hsend
    rw [dosend_failed hfalse]
    refine ⟨List.nil_prefix, fun hall => absurd (hall 0 (by simp)) hsend,
      fun hall => absurd (hall 0 (by simp)) hsend, fun _ => made_up 115 (by decide) _⟩

/-- An error that answers a right commit has a text. -/
theorem text_of_right (hcommit : commit link [cmd] = some (c, []))
    (hright : CommitRight [cmd] link c) (hsend : link.sends 0 = true) {data : Bytes}
    (hdata : link.receives 0 = some (.line PrefixError data)) : cstr data ≠ [] := by
  rw [commit_single, dosend_answered hsend hdata] at hcommit
  have hc := (Prod.mk.inj (Option.some.inj hcommit)).1
  have hsends : ∀ i < [cmd].length, link.sends i = true := by
    intro i hi
    obtain rfl : i = 0 := by simpa using hi
    exact hsend
  have hreplies : ∀ i < [cmd].length, link.receives i = [Reply.line PrefixError data][i]? := by
    intro i hi
    obtain rfl : i = 0 := by simpa using hi
    exact hdata
  have herror := (hright.replies hsends _ rfl hreplies).2.mpr
    ⟨_, List.mem_singleton_self _, rfl⟩
  rw [← hc] at herror
  obtain ⟨data', heq, hne⟩ := (error_entries (.line PrefixError data)).mp herror
  obtain rfl : data = data' := by simpa using heq
  exact hne

/-! ### The moves -/

theorem right_iff {op : Op} {answer : Answer} (hstep : step batched op = some (answer, batched')) :
    Right ⟨batched, op, answer, batched'⟩ ↔ Fine batched op := by
  cases op with
  | batch cmds =>
    have hafter : batched ++ cmds = batched' := congrArg Prod.snd (Option.some.inj hstep)
    exact iff_of_true hafter.symm trivial
  | reset =>
    have hafter : [] = batched' := congrArg Prod.snd (Option.some.inj hstep)
    exact iff_of_true hafter.symm trivial
  | commit link =>
    rw [step] at hstep
    constructor
    · rintro ⟨c, hout, hafter, hright⟩
      simp only at hout hafter hright
      subst hout hafter
      rcases hcommit : commit link batched with _ | ⟨c', b⟩
      · rw [hcommit] at hstep
        cases hstep
      rw [hcommit] at hstep
      obtain ⟨hc, rfl⟩ := Prod.mk.inj (Option.some.inj hstep)
      obtain rfl : c' = c := by simpa using hc
      -- nothing is left, so that there was one command at most, and one at least
      have hleft := commit_after hcommit
      have hlen := congrArg List.length hleft
      rw [List.length_nil, List.length_dropLast] at hlen
      cases batched with
      | nil => cases hcommit
      | cons cmd rest =>
        obtain rfl : rest = [] := by
          rw [List.length_cons] at hlen
          exact List.eq_nil_of_length_eq_zero (by omega)
        exact ⟨rfl, fun hsend data hdata => text_of_right hcommit hright hsend hdata⟩
    · rintro ⟨hlen, htext⟩
      obtain ⟨cmd, rfl⟩ := List.length_eq_one_iff.mp hlen
      obtain ⟨c, hcommit, hright⟩ := commitRight_single link cmd htext
      rw [hcommit] at hstep
      obtain ⟨rfl, rfl⟩ := Prod.mk.inj (Option.some.inj hstep)
      exact ⟨c, rfl, rfl, hright⟩

/-! ### The runs -/

theorem pending_snoc (ops : List Op) (op : Op) :
    pending (ops ++ [op]) =
      match op with
      | .batch cmds => pending ops ++ cmds
      | .commit _ => []
      | .reset => [] := by
  rw [pending, List.foldl_append]
  rfl

/-- In a run of right moves the batch is what is pending. -/
theorem pending_of_right {ms : List (Runs.Move (List Bytes) Op Answer)}
    (h : Runs.Run step [] ms batched) (hright : ∀ m ∈ ms, Right m) :
    batched = pending (ms.map fun m => m.input) := by
  induction h with
  | nil => rfl
  | @snoc b b' ms op answer h hstep ih =>
    rw [List.forall_mem_append, List.forall_mem_singleton] at hright
    have hbefore := ih hright.1
    have hmove := hright.2
    rw [List.map_append, List.map_singleton, pending_snoc]
    cases op with
    | batch cmds =>
      rw [← hbefore]
      exact hmove
    | commit link =>
      obtain ⟨c, -, hafter, -⟩ := hmove
      exact hafter
    | reset => exact hmove

/-- A connection that takes and answers everything. -/
def goodLink : Link := ⟨fun _ => true, fun _ => some (.line 43 (ascii "OK")), []⟩

end RedisBatch

end Suil
