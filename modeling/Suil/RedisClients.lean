/-
The clients of a redis database (`RedisDb`).

A client is put into a list when its connection is made, and is handed out when the server has
answered; when it is returned it goes to a cache, or is removed from the list.  A client that is
closed says that it is being destroyed.

* `Inv.connect_right_iff`, `Inv.give_right_iff` — what connecting and closing do to the list;
* `run_clients_iff` — the runs in which every client of the list has one owner, and which cache
  what is closed.
-/
import Suil.Lib.Runs

open Runs

namespace Suil

namespace RedisPool

/-- `cache_handle_t` -/
structure CacheHandle where
  client : ℕ
  db : ℤ
  alive : ℤ
deriving DecidableEq

/-- What of `RedisDbConfig` is read here: `Passwd` is set or not. -/
structure RedisDbConfig where
  keepAlive : ℤ
  passwd : Bool

/-- The list of clients and the cache, how many users have a client, and whose client was moved out
of the list and closed. -/
structure RedisDb where
  clients : List ℕ := []
  cache : List CacheHandle := []
  cleaning : Bool := false
  next : ℕ := 0
  users : ℕ → ℕ := fun _ => 0
  stale : ℕ → Bool := fun _ => false

/-- What comes of a command: `send` may throw. -/
inductive Reply where
  | yes
  | no
  | thrown
deriving DecidableEq

/-- What the server answers while a client is connected: to `SELECT` on a cached client, to the
connection, and to `AUTH`, `PING` and `SELECT`. -/
structure Replies where
  cached : Reply := .yes
  connects : Bool := true
  auth : Reply := .no
  ping : Reply := .yes
  select : Reply := .yes
deriving DecidableEq

/-- A user connects, or closes its client, which it may have moved out of the list, or destroys one
that it has moved; and the cleanup looks at the first client of the cache. -/
inductive Op where
  | connect (db : ℤ) (r : Replies)
  | close (c : ℕ) (now : ℤ)
  | closeMoved (c : ℕ) (now : ℤ)
  | destroy (c : ℕ) (now : ℤ)
  | cleanup (now : ℤ)
deriving DecidableEq

inductive Answer where
  | nothing
  | client (c : ℕ)
  | thrown
  | undefined
deriving DecidableEq

/-- A cached client, none if there is none or it cannot select the database; `SELECT` may throw. -/
def fromCache (s : RedisDb) (db : ℤ) (r : Replies) : Except Unit (Option ℕ × RedisDb) :=
  match s.cache with
  | [] => .ok (none, s)
  | handle :: rest =>
    if handle.db ≠ db ∧ r.cached = .thrown then .error ()
    -- `handle` is a copy, and the entry is left as it was
    else if handle.db ≠ db ∧ r.cached = .no then .ok (none, s)
    else .ok (some handle.client, { s with cache := rest })

/-- A new client, none when it throws. -/
def newConnection (config : RedisDbConfig) (s : RedisDb) (r : Replies) : Option ℕ × RedisDb :=
  if r.connects then
    let u := { s with clients := s.clients ++ [s.next], next := s.next + 1 }
    -- `if (it->auth(config.Passwd)) throw`
    if config.passwd ∧ r.auth ≠ .no then (none, u) else (some s.next, u)
  else (none, s)

/-- `connect`, up to the client, none when it throws. -/
def connect (config : RedisDbConfig) (s : RedisDb) (db : ℤ) (r : Replies) : Option ℕ × RedisDb :=
  match fromCache s db r with
  | .error () => (none, s)
  | .ok (some c, u) => (if r.ping = .yes then some c else none, u)
  | .ok (none, u) =>
    match newConnection config u r with
    | (none, u) => (none, u)
    | (some c, u) => (if r.ping = .yes ∧ r.select = .yes then some c else none, u)

def returnConnection (config : RedisDbConfig) (s : RedisDb) (c : ℕ) (dctor : Bool) (now : ℤ) :
    RedisDb :=
  if dctor = false ∧ config.keepAlive ≠ 0 then
    { s with cache := s.cache ++ [⟨c, -1, now + config.keepAlive⟩], cleaning := true }
  else { s with clients := s.clients.erase c }

/-- `RedisClient::close` and `~RedisClient` -/
def giveBack (config : RedisDbConfig) (s : RedisDb) (c : ℕ) (now : ℤ) : RedisDb :=
  returnConnection config s c true now

/-- One round of the inner loop of `cleanup`. -/
def cleanup (s : RedisDb) (now : ℤ) : RedisDb :=
  match s.cache with
  | [] => { s with cleaning := false }
  | handle :: rest =>
    if handle.alive ≤ now + 500 then
      { s with cache := rest, clients := s.clients.erase handle.client }
    else s

def RedisDb.setUsers (s : RedisDb) (c n : ℕ) : RedisDb :=
  { s with users := Function.update s.users c n }

def RedisDb.setStale (s : RedisDb) (c : ℕ) : RedisDb :=
  { s with stale := Function.update s.stale c true }

/-- Returning a client that is not in the list any more is undefined. -/
def step (config : RedisDbConfig) (s : RedisDb) : Op → Option (Answer × RedisDb)
  | .connect db r =>
    match connect config s db r with
    | (none, u) => some (.thrown, u)
    | (some c, u) => some (.client c, u.setUsers c (s.users c + 1))
  | .close c now =>
    if s.users c = 0 ∨ s.stale c then none
    else some (.nothing, (giveBack config s c now).setUsers c (s.users c - 1))
  | .closeMoved c now =>
    if s.users c = 0 then none
    else if s.stale c then some (.undefined, s)
    else some (.nothing, (giveBack config s c now).setStale c)
  | .destroy c now =>
    if s.users c = 0 then none
    else if s.stale c then some (.undefined, s)
    else some (.nothing, (giveBack config s c now).setUsers c (s.users c - 1))
  | .cleanup now => if s.cleaning then some (.nothing, cleanup s now) else none

/-- The client that an operation gives back. -/
def Op.returns : Op → Option ℕ
  | .close c _ | .closeMoved c _ | .destroy c _ => some c
  | .connect .. | .cleanup _ => none

def cachedTimes (s : RedisDb) (c : ℕ) : ℕ := (s.cache.map CacheHandle.client).count c

/-- Every client of the list has one user, or is in the cache once; the cache has no others; what is
given back is cached if that is wanted; and what throws changes neither the list nor the cache. -/
structure Right (config : RedisDbConfig) (m : Move RedisDb Op Answer) : Prop where
  owned : ∀ c ∈ m.after.clients, m.after.users c = 1 ∧ cachedTimes m.after c = 0 ∨
    m.after.users c = 0 ∧ cachedTimes m.after c = 1
  cached : ∀ handle ∈ m.after.cache, handle.client ∈ m.after.clients
  kept : config.keepAlive ≠ 0 → ∀ c, m.input.returns = some c → 0 < cachedTimes m.after c
  unchanged : m.output = .thrown →
    m.after.clients = m.before.clients ∧ m.after.cache = m.before.cache
  defined : m.output ≠ .undefined

/-- No client is given back where clients are to be kept, none twice; and a connection that is made
also answers, without `AUTH` being accepted. -/
def Allowed (config : RedisDbConfig) (s : RedisDb) : Op → Prop
  | .connect _ r => r.connects = true →
    (config.passwd = true → r.auth = .no) ∧ r.ping = .yes ∧ r.select = .yes
  | .close .. => config.keepAlive = 0
  | .closeMoved c _ | .destroy c _ => config.keepAlive = 0 ∧ s.stale c = false
  | .cleanup _ => True

/-- Nothing is cached, and every client has the one user that it was handed out to. -/
structure Inv (s : RedisDb) : Prop where
  cache : s.cache = []
  cleaning : s.cleaning = false
  nodup : s.clients.Nodup
  users : ∀ c ∈ s.clients, s.users c = 1 ∧ s.stale c = false
  held : ∀ c, s.users c ≠ 0 → s.stale c = false → c ∈ s.clients
  fresh : ∀ c, s.next ≤ c → s.users c = 0 ∧ s.stale c = false ∧ c ∉ s.clients

variable {config : RedisDbConfig} {s u : RedisDb} {o : Answer} {i : Op} {c : ℕ} {now : ℤ}

theorem Inv.empty : Inv {} :=
  ⟨rfl, rfl, List.nodup_nil, fun _ hc => absurd hc List.not_mem_nil, fun _ hc => absurd rfl hc,
    fun _ _ => ⟨rfl, rfl, List.not_mem_nil⟩⟩

/-- A step that ends in a state with the invariant. -/
theorem Inv.right (hinv : Inv u) (hkept : config.keepAlive ≠ 0 → i.returns = none)
    (hthrown : o = .thrown → u.clients = s.clients ∧ u.cache = s.cache)
    (hdefined : o ≠ .undefined) : Right config ⟨s, i, o, u⟩ := by
  refine ⟨fun c hc => .inl ⟨(hinv.users c hc).1, ?_⟩, fun handle hhandle => ?_, fun hne c hc => ?_,
    hthrown, hdefined⟩
  · show cachedTimes u c = 0
    rw [cachedTimes, hinv.cache]
    rfl
  · rw [show u.cache = [] from hinv.cache] at hhandle
    exact absurd hhandle List.not_mem_nil
  · rw [show i.returns = none from hkept hne] at hc
    cases hc

theorem Inv.fromCache_eq (hinv : Inv s) (db : ℤ) (r : Replies) :
    fromCache s db r = .ok (none, s) := by
  rw [fromCache]
  split
  · rfl
  · rename_i heq
    rw [hinv.cache] at heq
    cases heq

/-- What `connect` does when nothing is cached. -/
theorem Inv.connect_eq (hinv : Inv s) (db : ℤ) (r : Replies) : connect config s db r =
    if r.connects then
      (if (config.passwd = true → r.auth = .no) ∧ r.ping = .yes ∧ r.select = .yes then some s.next
        else none, { s with clients := s.clients ++ [s.next], next := s.next + 1 })
    else (none, s) := by
  rw [connect, hinv.fromCache_eq]
  show (match newConnection config s r with | (none, u) => _ | (some c, u) => _) = _
  rw [newConnection]
  by_cases hconnects : r.connects = true
  · rw [if_pos hconnects, if_pos hconnects]
    by_cases hpasswd : config.passwd = true ∧ r.auth ≠ .no
    · have hnot : ¬ ((config.passwd = true → r.auth = .no) ∧ r.ping = .yes ∧ r.select = .yes) :=
        fun hall => hpasswd.2 (hall.1 hpasswd.1)
      simp only [if_pos hpasswd, if_neg hnot]
    · have hauth : (config.passwd = true → r.auth = .no) ↔ True := iff_true_intro fun hset =>
        not_not.mp fun hne => hpasswd ⟨hset, hne⟩
      simp only [if_neg hpasswd, hauth, true_and]
  · rw [if_neg hconnects, if_neg hconnects]

/-- A new client, for its user. -/
theorem Inv.add (hinv : Inv s) :
    Inv ({ s with clients := s.clients ++ [s.next], next := s.next + 1 }.setUsers s.next
      (s.users s.next + 1)) := by
  obtain ⟨hnone, hstale, hnot⟩ := hinv.fresh s.next le_rfl
  have hother : ∀ c ∈ s.clients, c ≠ s.next := fun c hc heq => hnot (heq ▸ hc)
  refine ⟨hinv.cache, hinv.cleaning, ?_, fun c hc => ?_, fun c hc hcs => ?_, fun c hc => ?_⟩
  · exact hinv.nodup.append (List.nodup_singleton _)
      fun c hc hcn => hnot (List.mem_singleton.mp hcn ▸ hc)
  · show Function.update s.users s.next _ c = 1 ∧ s.stale c = false
    rcases List.mem_append.mp hc with hold | hnew
    · rw [Function.update_of_ne (hother c hold)]
      exact hinv.users c hold
    · obtain rfl := List.mem_singleton.mp hnew
      rw [Function.update_self, hnone]
      exact ⟨rfl, hstale⟩
  · by_cases hcn : c = s.next
    · exact List.mem_append_right _ (List.mem_singleton.mpr hcn)
    · refine List.mem_append_left _ (hinv.held c ?_ hcs)
      exact fun hzero => hc ((Function.update_of_ne hcn _ _).trans hzero)
  · have hlt : s.next < c := hc
    obtain ⟨hnone, hstale, hnot⟩ := hinv.fresh c hlt.le
    show Function.update s.users s.next _ c = 0 ∧ _ ∧ c ∉ s.clients ++ [s.next]
    rw [Function.update_of_ne hlt.ne', List.mem_append, List.mem_singleton]
    exact ⟨hnone, hstale, not_or.mpr ⟨hnot, hlt.ne'⟩⟩

theorem Inv.connect_right_iff (hinv : Inv s) {db : ℤ} {r : Replies}
    (hstep : step config s (.connect db r) = some (o, u)) :
    (Right config ⟨s, .connect db r, o, u⟩ ↔ Allowed config s (.connect db r)) ∧
      (Allowed config s (.connect db r) → Inv u) := by
  rw [step, hinv.connect_eq] at hstep
  by_cases hconnects : r.connects = true
  · rw [if_pos hconnects] at hstep
    by_cases hreplies : (config.passwd = true → r.auth = .no) ∧ r.ping = .yes ∧ r.select = .yes
    · rw [if_pos hreplies] at hstep
      obtain ⟨rfl, rfl⟩ := Prod.mk.inj (Option.some.inj hstep)
      exact ⟨iff_of_true (hinv.add.right (fun _ => rfl) nofun nofun) fun _ => hreplies,
        fun _ => hinv.add⟩
    · -- the client stays in the list
      rw [if_neg hreplies] at hstep
      obtain ⟨rfl, rfl⟩ := Prod.mk.inj (Option.some.inj hstep)
      refine ⟨iff_of_false (fun hright => ?_) fun h => hreplies (h hconnects),
        fun h => absurd (h hconnects) hreplies⟩
      have hlen := congrArg List.length (hright.unchanged rfl).1
      rw [List.length_append, List.length_singleton] at hlen
      exact absurd hlen (Nat.succ_ne_self _)
  · rw [if_neg hconnects] at hstep
    obtain ⟨rfl, rfl⟩ := Prod.mk.inj (Option.some.inj hstep)
    exact ⟨iff_of_true (hinv.right (fun _ => rfl) (fun _ => ⟨rfl, rfl⟩) nofun)
      fun h => absurd h hconnects, fun _ => hinv⟩

theorem giveBack_eq (c : ℕ) (now : ℤ) :
    giveBack config s c now = { s with clients := s.clients.erase c } := by
  rw [giveBack, returnConnection, if_neg fun hand => Bool.noConfusion hand.1]

/-- A client that is given back leaves the list, and its user has none or one that is stale. -/
theorem Inv.give (hinv : Inv s) (hc : c ∈ s.clients) {users : ℕ → ℕ} {stale : ℕ → Bool}
    (husers : ∀ d, d ≠ c → users d = s.users d ∧ stale d = s.stale d)
    (hgone : users c = 0 ∨ stale c = true) :
    Inv { s with clients := s.clients.erase c, users := users, stale := stale } := by
  have hmem : ∀ d, d ∈ s.clients.erase c ↔ d ≠ c ∧ d ∈ s.clients := fun d =>
    hinv.nodup.mem_erase_iff
  refine ⟨hinv.cache, hinv.cleaning, hinv.nodup.erase c, fun d hd => ?_, fun d hd hds => ?_,
    fun d hd => ?_⟩
  · obtain ⟨hne, hin⟩ := (hmem d).mp hd
    obtain ⟨hu, hs⟩ := husers d hne
    show users d = 1 ∧ stale d = false
    rw [hu, hs]
    exact hinv.users d hin
  · have hne : d ≠ c := by
      rintro rfl
      rcases hgone with hnone | hstale
      · exact hd hnone
      · rw [show stale d = false from hds] at hstale
        cases hstale
    obtain ⟨hu, hs⟩ := husers d hne
    exact (hmem d).mpr ⟨hne, hinv.held d (hu ▸ hd) (hs ▸ hds)⟩
  · obtain ⟨hnone, hstale, hnot⟩ := hinv.fresh d hd
    have hne : d ≠ c := fun heq => hnot (heq ▸ hc)
    obtain ⟨hu, hs⟩ := husers d hne
    show users d = 0 ∧ stale d = false ∧ d ∉ s.clients.erase c
    rw [hu, hs]
    exact ⟨hnone, hstale, fun hin => hnot (List.mem_of_mem_erase hin)⟩

/-- What is given back is not cached. -/
theorem Inv.give_right_iff (hinv : Inv u) (hreturns : i.returns = some c) :
    Right config ⟨s, i, .nothing, u⟩ ↔ config.keepAlive = 0 := by
  constructor
  · intro hright
    by_contra hne
    have hcached := hright.kept hne c hreturns
    rw [show cachedTimes u c = 0 by rw [cachedTimes, hinv.cache]; rfl] at hcached
    exact absurd hcached (Nat.lt_irrefl 0)
  · exact fun hzero => hinv.right (fun hne => absurd hzero hne) nofun nofun

theorem Inv.gone (hinv : Inv s) (husers : s.users c ≠ 0) (hstale : s.stale c = false) :
    Inv ((giveBack config s c now).setUsers c (s.users c - 1)) := by
  have hin := hinv.held c husers hstale
  rw [giveBack_eq]
  refine hinv.give hin (fun d hd => ⟨Function.update_of_ne hd _ _, rfl⟩) (.inl ?_)
  rw [Function.update_self, (hinv.users c hin).1]

theorem Inv.step_right_iff (hinv : Inv s) (hstep : step config s i = some (o, u)) :
    (Right config ⟨s, i, o, u⟩ ↔ Allowed config s i) ∧ (Allowed config s i → Inv u) := by
  cases i with
  | connect db r => exact hinv.connect_right_iff hstep
  | close c now =>
    rw [step] at hstep
    split_ifs at hstep with hnot
    obtain ⟨rfl, rfl⟩ := Prod.mk.inj (Option.some.inj hstep)
    obtain ⟨husers, hstale⟩ := not_or.mp hnot
    have hnext : Inv ((giveBack config s c now).setUsers c (s.users c - 1)) :=
      hinv.gone husers (Bool.eq_false_iff.mpr hstale)
    exact ⟨hnext.give_right_iff rfl, fun _ => hnext⟩
  | closeMoved c now =>
    rw [step] at hstep
    split_ifs at hstep with husers hstale
    · obtain ⟨rfl, rfl⟩ := Prod.mk.inj (Option.some.inj hstep)
      have hnot : ¬ Allowed config s (.closeMoved c now) := fun h => by
        rw [h.2] at hstale
        cases hstale
      exact ⟨iff_of_false (fun hright => hright.defined rfl) hnot, fun h => absurd h hnot⟩
    · obtain ⟨rfl, rfl⟩ := Prod.mk.inj (Option.some.inj hstep)
      have hfalse := Bool.eq_false_iff.mpr hstale
      have hnext : Inv ((giveBack config s c now).setStale c) := by
        rw [giveBack_eq]
        refine hinv.give (hinv.held c husers hfalse)
          (fun d hd => ⟨rfl, Function.update_of_ne hd _ _⟩) (.inr (Function.update_self _ _ _))
      exact ⟨(hnext.give_right_iff rfl).trans (and_iff_left hfalse).symm, fun _ => hnext⟩
  | destroy c now =>
    rw [step] at hstep
    split_ifs at hstep with husers hstale
    · obtain ⟨rfl, rfl⟩ := Prod.mk.inj (Option.some.inj hstep)
      have hnot : ¬ Allowed config s (.destroy c now) := fun h => by
        rw [h.2] at hstale
        cases hstale
      exact ⟨iff_of_false (fun hright => hright.defined rfl) hnot, fun h => absurd h hnot⟩
    · obtain ⟨rfl, rfl⟩ := Prod.mk.inj (Option.some.inj hstep)
      have hfalse := Bool.eq_false_iff.mpr hstale
      have hnext : Inv ((giveBack config s c now).setUsers c (s.users c - 1)) :=
        hinv.gone husers hfalse
      exact ⟨(hnext.give_right_iff rfl).trans (and_iff_left hfalse).symm, fun _ => hnext⟩
  | cleanup now =>
    rw [step, hinv.cleaning] at hstep
    cases hstep

/-- **The runs that keep the list and the cache** are those in which no client is given back where
clients are to be kept, or twice, and every connection that is made answers without `AUTH` being
accepted. -/
theorem run_clients_iff (config : RedisDbConfig) {ms : List (Move RedisDb Op Answer)} {s : RedisDb}
    (h : Run (step config) {} ms s) :
    (∀ m ∈ ms, Right config m) ↔ ∀ m ∈ ms, Allowed config m.before m.input :=
  h.moves_iff (R := Right config) Inv.empty fun _ _ _ _ hinv hstep => hinv.step_right_iff hstep

instance : DecidablePred (Allowed config s)
  | .connect _ r => inferInstanceAs (Decidable (r.connects = true →
      (config.passwd = true → r.auth = .no) ∧ r.ping = .yes ∧ r.select = .yes))
  | .close .. => inferInstanceAs (Decidable (config.keepAlive = 0))
  | .closeMoved c _ | .destroy c _ =>
    inferInstanceAs (Decidable (config.keepAlive = 0 ∧ s.stale c = false))
  | .cleanup _ => inferInstanceAs (Decidable True)

/-- Two clients of which one is closed, where clients are not kept, and a connection refused. -/
theorem run_clients_of_two :
    let ops : List Op := [.connect 0 {}, .connect 1 {}, .close 0 5,
      .connect 2 { connects := false }]
    (∀ m ∈ moves (step ⟨0, false⟩) {} ops, Right ⟨0, false⟩ m) ∧
      (final (step ⟨0, false⟩) {} ops).clients = [1] :=
  ⟨(run_clients_iff ⟨0, false⟩ (run_final _ _ _)).mpr (by decide), by decide⟩

/-- A client that is closed is not cached though clients are to be kept; and one whose `PING` or
`AUTH` makes `connect` throw stays in the list for nobody. -/
theorem not_run_clients :
    let kept := final (step ⟨30000, false⟩) {} [.connect 0 {}, .close 0 5]
    let failed := final (step ⟨0, true⟩) {} [.connect 0 { ping := .no },
      .connect 0 { auth := .yes }]
    (kept.clients = [] ∧ kept.cache = []) ∧ failed.clients = [0, 1] ∧
      ¬ ∀ config ms s, Run (step config) {} ms s → ∀ m ∈ ms, Right config m := by
  refine ⟨by decide, by decide, fun hall => ?_⟩
  have hright := hall ⟨30000, false⟩ _ _ (run_final _ _ [.connect 0 {}, .close 0 5]) _
    (List.mem_cons_of_mem _ List.mem_cons_self)
  exact absurd (hright.kept (by decide) 0 rfl) (by decide)

end RedisPool
end Suil
