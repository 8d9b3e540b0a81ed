/-
The sessions that hold refresh tokens.

The refresh token of a user is kept in Redis under the name of the user.  A revocation removes
that key and every key that matches a pattern made of the name, and what a request to the
revoke route does at its end is decided by comparing ids of routes, of which the first one is
zero, with fields that are zero until a route is set up.

* `lookup_revoke` — what a revocation leaves;
* `only_iff` — the moves that remove the session of nobody else;
* `latest_iff` — what is stored is the token that was stored last and not removed since;
* `run_sessions_iff` — the runs in which nobody loses a session to somebody else.
-/
import Suil.Jwt
import Suil.Lib.Runs

open Runs

namespace Suil

/-- `JwtSession`, with the ids of the routes that were set up; a rule has the number of rules
before it as its id. -/
structure JwtSession where
  refreshTokenKey : Bytes
  refreshTokenExpiry : Int64 := 1296000
  onTokenRefresh : Option ℕ := none
  onTokenRevoke : Option ℕ := none

namespace JwtSession

/-- A refresh token, and whether it has a time to live. -/
structure Session where
  token : Bytes
  expires : Bool
deriving DecidableEq

/-- The keys of the database of the sessions. -/
abbrev Db := AList fun _ : Bytes => Session

/-- `Context`, with what is used of the context of `JwtAuthorization`: the audience of its token
and the message of its last `authenticate`.  Two members are not in the source: the audience of
the token that the request came with, and whether its response is complete. -/
structure Context where
  routeId : ℕ
  carried : Option Bytes
  aud : Bytes
  token : Bytes := []
  tokenHdr : Bytes := []
  completed : Bool := false
deriving DecidableEq

structure State where
  db : Db
  contexts : ℕ → Option Context

/-- The calls on a context, which a request gets when it starts.  `before` has what
`JwtAuthorization` let in, `authorizeJwt` is the call of a handler on `JwtAuthorization`,
`authorize` has what the clock shows at its two readings and whether Redis answers `OK`, and
`expire` is a move of Redis. -/
inductive Op where
  | before (c routeId : ℕ) (token aud : Bytes)
  | authorizeJwt (c : ℕ) (aud : Bytes)
  | authorize (c : ℕ) (aud : Bytes) (now later : Int64) (saved : Bool)
  | authorizeUser (c : ℕ) (user : Bytes)
  | revoke (c : ℕ) (user : Bytes)
  | after (c : ℕ)
  | expire (key : Bytes)

inductive Answer where
  | passed
  | ended
  | returned (result : Bool)
  | thrown
  | done
deriving DecidableEq

section

variable {N : Type} (C : JwtCodec N) (glob : Bytes → Bytes → Bool) (session : JwtSession)

def refreshTokenRoute : ℕ := session.onTokenRefresh.getD 0

def revokeTokenRoute : ℕ := session.onTokenRevoke.getD 0

def isSpecialRoute (id : ℕ) : Prop :=
  id = session.revokeTokenRoute ∨ id = session.refreshTokenRoute

instance (id : ℕ) : Decidable (session.isSpecialRoute id) :=
  inferInstanceAs (Decidable (id = session.revokeTokenRoute ∨ id = session.refreshTokenRoute))

/-- The refresh token of an audience; none when `encode` throws.  (No clock comes near 2^63.) -/
def refreshToken (aud : Bytes) (now later : Int64) : Option Bytes :=
  Jwt.encode C
    { payload :=
        { aud := aud, iat := now,
          exp := if 0 < session.refreshTokenExpiry then later + session.refreshTokenExpiry else 0 } }
    session.refreshTokenKey

/-- `KEYS`, for the patterns of Redis. -/
def keys (db : Db) (pattern : Bytes) : List Bytes := db.keys.filter (glob pattern)

/-- `Context::revoke`, of a user: what it leaves in the database. -/
def revoked (db : Db) (user : Bytes) : Db :=
  (keys glob (db.erase user) (ascii "*" ++ user)).foldl (fun db key => db.erase key) (db.erase user)

/-- `doBefore`: whether the request goes on.  An empty reply to `GET` is none. -/
def doBefore (db : Db) (routeId : ℕ) (token aud : Bytes) : Bool :=
  if token ≠ [] ∧ session.isSpecialRoute routeId then
    match db.lookup aud with
    | none => false
    | some e => e.token ≠ [] && strEq e.token token
  else true

/-- Whether the token of a session is decoded. -/
def decoded (e : Session) : Call JwtError Bool :=
  (Jwt.decode C {} e.token session.refreshTokenKey false).map Prod.fst

/-- The context of a request that is being handled. -/
def State.running (s : State) (c : ℕ) : Option Context :=
  (s.contexts c).filter fun ctx => !ctx.completed

def State.put (s : State) (c : ℕ) (ctx : Context) : State :=
  { s with contexts := Function.update s.contexts c (some ctx) }

def invalidToken : Bytes :=
  ascii "Attempt to access a protected resource with an invalid token"

/-- One call, or an expiry.  Nothing is answered without a context, or when the process dies. -/
def step (s : State) : Op → Option (Answer × State)
  | .before c routeId token aud =>
    let ctx : Context :=
      { routeId := routeId, carried := if token = [] then none else some aud, aud := aud }
    if doBefore session s.db routeId token aud then some (.passed, s.put c ctx)
    else some (.ended, s.put c { ctx with tokenHdr := invalidToken, completed := true })
  | .authorizeJwt c aud => (s.running c).map fun ctx => (.done, s.put c { ctx with aud := aud })
  | .authorize c aud now later saved => (s.running c).map fun ctx =>
    match refreshToken C session aud now later with
    | none => (.thrown, s.put c { ctx with aud := aud })
    | some token =>
      if saved then
        let e : Session := ⟨token, 0 < session.refreshTokenExpiry⟩
        (.returned true,
          { s with db := s.db.insert aud e }.put c { ctx with aud := aud, token := token })
      else
        (.returned false, s.put c { ctx with
          aud := aud, token := token, tokenHdr := ascii "Creating session failed" })
  | .authorizeUser c user => (s.running c).bind fun ctx =>
    match s.db.lookup user with
    | none => some (.returned false, s)
    | some e =>
      if e.token = [] then some (.thrown, s)
      else
        match decoded C session e with
        | .error .crash => none
        | .error (.raised _) => some (.thrown, s)
        | .ok true => some (.returned true, s)
        | .ok false =>
          some (.returned false,
            { s with db := revoked glob s.db user }.put c { ctx with token := [] })
  | .revoke c user => (s.running c).map fun ctx =>
    (.done, { s with db := revoked glob s.db user }.put c { ctx with token := [] })
  | .after c => (s.contexts c).map fun ctx =>
    let db := if ctx.routeId = session.revokeTokenRoute ∧ ctx.aud ≠ [] then
      revoked glob s.db ctx.aud else s.db
    (.done, ⟨db, Function.update s.contexts c none⟩)
  | .expire key => (s.db.lookup key).bind fun e =>
    if e.expires then some (.done, { s with db := s.db.erase key }) else none

def start : State := ⟨∅, fun _ => none⟩

/-- The session of a user is removed. -/
def Removes (m : Move State Op Answer) (user : Bytes) : Prop :=
  (m.before.db.lookup user).isSome ∧ m.after.db.lookup user = none

/-- A refresh token is stored for a user. -/
def Stores (m : Move State Op Answer) (user token : Bytes) : Prop :=
  ∃ c now later, m.input = .authorize c user now later true ∧
    refreshToken C session user now later = some token ∧ m.output = .returned true

/-- What may remove the session of a user: expiry, a revocation of the user, and a request to the
route that was set up for it, which came with a token of the user. -/
def Permits (s : State) (user : Bytes) : Op → Prop
  | .expire key => key = user
  | .revoke _ user' => user' = user
  | .authorizeUser _ user' => user' = user
  | .after c => ∃ ctx, s.contexts c = some ctx ∧ session.onTokenRevoke = some ctx.routeId ∧
      ctx.carried = some user
  | _ => False

/-- What is to hold of a run: no session is removed by anything else, and a token on one of the
two routes goes through exactly when it was stored last for its audience and was not removed
since. -/
structure Right (ms : List (Move State Op Answer)) : Prop where
  only : ∀ m ∈ ms, ∀ user, Removes m user → Permits session m.before user m.input
  through : ∀ pre m post, ms = pre ++ m :: post → ∀ c routeId token aud,
    m.input = .before c routeId token aud → token ≠ [] →
    (session.onTokenRefresh = some routeId ∨ session.onTokenRevoke = some routeId) →
    (m.output = .passed ↔
      Latest (fun m token => Stores C session m aud token) (fun m => Removes m aud) pre token)

/-- Whoever has a session that a revocation of `user` removes is `user`. -/
def Alone (db : Db) (user : Bytes) : Prop :=
  ∀ key ∈ db.keys, glob (ascii "*" ++ user) key = true → key = user

/-- What is revoked is revoked of a user with whose name, as a pattern, no other one ends; at the
end of a request, on the route that was set up for it, and of the user whose token it came
with. -/
def Apart (s : State) : Op → Prop
  | .revoke _ user => Alone glob s.db user
  | .authorizeUser _ user => ∀ e ∈ s.db.lookup user, e.token ≠ [] →
      decoded C session e = .ok false → Alone glob s.db user
  | .after c => ∀ ctx ∈ s.contexts c, ctx.routeId = session.revokeTokenRoute → ctx.aud ≠ [] →
      ∀ key ∈ s.db.keys, key = ctx.aud ∨ glob (ascii "*" ++ ctx.aud) key = true →
        session.onTokenRevoke = some ctx.routeId ∧ ctx.carried = some key
  | _ => True

instance (db : Db) (user : Bytes) : Decidable (Alone glob db user) :=
  inferInstanceAs (Decidable (∀ key ∈ db.keys, glob (ascii "*" ++ user) key = true → key = user))

instance (s : State) : DecidablePred (Apart C glob session s)
  | .revoke _ user => inferInstanceAs (Decidable (Alone glob s.db user))
  | .authorizeUser _ user => inferInstanceAs (Decidable (∀ e ∈ s.db.lookup user, e.token ≠ [] →
      decoded C session e = .ok false → Alone glob s.db user))
  | .after c => inferInstanceAs (Decidable (∀ ctx ∈ s.contexts c,
      ctx.routeId = session.revokeTokenRoute → ctx.aud ≠ [] →
        ∀ key ∈ s.db.keys, key = ctx.aud ∨ glob (ascii "*" ++ ctx.aud) key = true →
          session.onTokenRevoke = some ctx.routeId ∧ ctx.carried = some key))
  | .before _ _ _ _ => inferInstanceAs (Decidable True)
  | .authorizeJwt _ _ => inferInstanceAs (Decidable True)
  | .authorize _ _ _ _ _ => inferInstanceAs (Decidable True)
  | .expire _ => inferInstanceAs (Decidable True)

end

section

variable {N : Type} {C : JwtCodec N} {glob : Bytes → Bytes → Bool} {session : JwtSession}
  {db db' : Db} {s t : State} {op : Op} {o : Answer} {user key token aud : Bytes} {c : ℕ}
  {now later : Int64} {ms : List (Move State Op Answer)}

/-! ### The database -/

theorem lookup_eraseAll (ks : List Bytes) (db : Db) :
    (ks.foldl (fun db key => db.erase key) db).lookup user =
      if user ∈ ks then none else db.lookup user := by
  induction ks generalizing db with
  | nil => rw [List.foldl_nil, if_neg List.not_mem_nil]
  | cons k ks ih =>
    rw [List.foldl_cons, ih]
    by_cases heq : user = k
    · subst heq
      rw [AList.lookup_erase, if_pos List.mem_cons_self, ite_self]
    · rw [AList.lookup_erase_ne heq]
      simp only [List.mem_cons, heq, false_or]

/-- **What a revocation leaves**: neither the key of the user nor one that matches. -/
theorem lookup_revoked (db : Db) (user key : Bytes) : (revoked glob db user).lookup key =
    if key = user ∨ glob (ascii "*" ++ user) key = true then none else db.lookup key := by
  rw [revoked, lookup_eraseAll]
  simp only [keys, List.mem_filter]
  by_cases heq : key = user
  · subst heq
    rw [AList.lookup_erase, ite_self, if_pos (Or.inl rfl)]
  · rw [AList.lookup_erase_ne heq]
    simp only [heq, false_or]
    by_cases hglob : glob (ascii "*" ++ user) key = true
    · rw [if_pos hglob, ite_eq_left_iff]
      intro hkey
      rw [AList.lookup_eq_none, AList.mem_keys]
      intro hmem
      exact hkey ⟨AList.mem_keys.mp (AList.mem_erase.mpr ⟨heq, hmem⟩), hglob⟩
    · rw [if_neg hglob, if_neg fun h => hglob h.2]

theorem removed_revoked : (db.lookup key).isSome ∧ (revoked glob db user).lookup key = none ↔
    key ∈ db.keys ∧ (key = user ∨ glob (ascii "*" ++ user) key = true) := by
  rw [lookup_revoked, AList.lookup_isSome, AList.mem_keys]
  refine and_congr_right fun hmem => ?_
  rw [ite_eq_left_iff]
  refine ⟨fun h => ?_, fun h hne => absurd h hne⟩
  by_contra hne
  exact AList.lookup_eq_none.mp (h hne) hmem

/-- When a revocation removes the session of nobody else. -/
theorem revoked_only_iff :
    (∀ key, (db.lookup key).isSome ∧ (revoked glob db user).lookup key = none → user = key) ↔
      Alone glob db user := by
  simp only [removed_revoked]
  constructor
  · intro h key hkey hglob
    exact (h key ⟨hkey, Or.inr hglob⟩).symm
  · rintro h key ⟨hkey, rfl | hglob⟩
    · rfl
    · exact (h key hkey hglob).symm

/-- For a name without special characters the pattern is every key that ends with the name. -/
theorem alone_iff_suffix (hglob : ∀ user key, (∀ c ∈ user, c ∉ ascii "*?[\\") →
      (glob (ascii "*" ++ user) key = true ↔ user <:+ key))
    (hplain : ∀ c ∈ user, c ∉ ascii "*?[\\") :
    Alone glob db user ↔ ∀ key ∈ db.keys, user <:+ key → key = user :=
  forall₂_congr fun key _ => by rw [hglob user key hplain]

/-- What shrinks a database loses some of its keys. -/
def Shrinks (db db' : Db) : Prop := ∀ key, db'.lookup key = none ∨ db'.lookup key = db.lookup key

theorem shrinks_refl (db : Db) : Shrinks db db := fun _ => Or.inr rfl

theorem shrinks_revoked (db : Db) (user : Bytes) : Shrinks db (revoked glob db user) := by
  intro key
  rw [lookup_revoked]
  split_ifs
  · exact Or.inl rfl
  · exact Or.inr rfl

theorem shrinks_erase (db : Db) (user : Bytes) : Shrinks db (db.erase user) := by
  intro key
  by_cases heq : key = user
  · subst heq
    exact Or.inl (AList.lookup_erase key db)
  · exact Or.inr (AList.lookup_erase_ne heq)

/-! ### A call -/

theorem step_before {routeId : ℕ}
    (h : step C glob session s (.before c routeId token aud) = some (o, t)) :
    (o = .passed ↔ doBefore session s.db routeId token aud = true) ∧ t.db = s.db := by
  by_cases hpass : doBefore session s.db routeId token aud = true
  · rw [step, if_pos hpass] at h
    obtain ⟨rfl, rfl⟩ := Prod.mk.inj (Option.some.inj h)
    exact ⟨iff_of_true rfl hpass, rfl⟩
  · rw [step, if_neg hpass] at h
    obtain ⟨rfl, rfl⟩ := Prod.mk.inj (Option.some.inj h)
    exact ⟨iff_of_false (by simp) hpass, rfl⟩

theorem step_authorizeJwt (h : step C glob session s (.authorizeJwt c aud) = some (o, t)) :
    t.db = s.db := by
  obtain ⟨ctx, -, h⟩ := Option.map_eq_some_iff.mp h
  obtain ⟨-, rfl⟩ := Prod.mk.inj h
  rfl

theorem step_authorize {saved : Bool}
    (h : step C glob session s (.authorize c aud now later saved) = some (o, t)) :
    (∃ e, saved = true ∧ refreshToken C session aud now later = some e.token ∧
      o = .returned true ∧ t.db = s.db.insert aud e) ∨ o ≠ .returned true ∧ t.db = s.db := by
  obtain ⟨ctx, -, h⟩ := Option.map_eq_some_iff.mp h
  rcases htoken : refreshToken C session aud now later with _ | token
  · rw [htoken] at h
    obtain ⟨rfl, rfl⟩ := Prod.mk.inj h
    exact Or.inr ⟨by simp, rfl⟩
  · simp only [htoken] at h
    cases saved with
    | false =>
      obtain ⟨rfl, rfl⟩ := Prod.mk.inj h
      exact Or.inr ⟨by simp, rfl⟩
    | true =>
      obtain ⟨rfl, rfl⟩ := Prod.mk.inj h
      exact Or.inl ⟨⟨token, 0 < session.refreshTokenExpiry⟩, rfl, rfl, rfl, rfl⟩

/-- A session whose token is not decoded is revoked. -/
theorem step_authorizeUser (h : step C glob session s (.authorizeUser c user) = some (o, t)) :
    (∃ e ∈ s.db.lookup user, e.token ≠ [] ∧ decoded C session e = .ok false) ∧
        t.db = revoked glob s.db user ∨
      (∀ e ∈ s.db.lookup user, e.token ≠ [] → decoded C session e ≠ .ok false) ∧ t.db = s.db := by
  obtain ⟨ctx, -, h⟩ := Option.bind_eq_some_iff.mp h
  rcases hlookup : s.db.lookup user with _ | e
  · rw [hlookup] at h
    obtain ⟨-, rfl⟩ := Prod.mk.inj (Option.some.inj h)
    exact Or.inr ⟨fun e he => absurd he (Option.not_mem_none e), rfl⟩
  simp only [hlookup] at h
  simp only [Option.mem_def, Option.some.injEq, exists_eq_left', forall_eq']
  split_ifs at h with hempty
  · obtain ⟨-, rfl⟩ := Prod.mk.inj (Option.some.inj h)
    exact Or.inr ⟨fun hne => absurd hempty hne, rfl⟩
  rcases hdecoded : decoded C session e with (_ | _) | (_ | _)
  · rw [hdecoded] at h
    obtain ⟨-, rfl⟩ := Prod.mk.inj (Option.some.inj h)
    exact Or.inr ⟨by simp, rfl⟩
  · rw [hdecoded] at h
    cases h
  · rw [hdecoded] at h
    obtain ⟨-, rfl⟩ := Prod.mk.inj (Option.some.inj h)
    exact Or.inl ⟨⟨hempty, rfl⟩, rfl⟩
  · rw [hdecoded] at h
    obtain ⟨-, rfl⟩ := Prod.mk.inj (Option.some.inj h)
    exact Or.inr ⟨by simp, rfl⟩

theorem step_revoke (h : step C glob session s (.revoke c user) = some (o, t)) :
    t.db = revoked glob s.db user := by
  obtain ⟨ctx, -, h⟩ := Option.map_eq_some_iff.mp h
  obtain ⟨-, rfl⟩ := Prod.mk.inj h
  rfl

theorem step_after (h : step C glob session s (.after c) = some (o, t)) :
    ∃ ctx, s.contexts c = some ctx ∧ t.db =
      if ctx.routeId = session.revokeTokenRoute ∧ ctx.aud ≠ [] then revoked glob s.db ctx.aud
      else s.db := by
  obtain ⟨ctx, hctx, h⟩ := Option.map_eq_some_iff.mp h
  obtain ⟨-, rfl⟩ := Prod.mk.inj h
  exact ⟨ctx, hctx, rfl⟩

theorem step_expire (h : step C glob session s (.expire key) = some (o, t)) :
    t.db = s.db.erase key := by
  obtain ⟨e, -, h⟩ := Option.bind_eq_some_iff.mp h
  obtain ⟨-, h⟩ := Option.ite_none_right_eq_some.mp h
  obtain ⟨-, rfl⟩ := Prod.mk.inj (Option.some.inj h)
  rfl

theorem not_stores (hop : ∀ c user now later, op ≠ .authorize c user now later true)
    (user token : Bytes) : ¬Stores C session ⟨s, op, o, t⟩ user token :=
  fun ⟨c, now, later, heq, _⟩ => hop c user now later heq

/-- What a call does to the database: it stores a token, and tells so, or it shrinks it. -/
theorem step_db (h : step C glob session s op = some (o, t)) :
    (∃ user e, Stores C session ⟨s, op, o, t⟩ user e.token ∧ t.db = s.db.insert user e) ∨
      (∀ user token, ¬Stores C session ⟨s, op, o, t⟩ user token) ∧ Shrinks s.db t.db := by
  cases op with
  | before c routeId token aud =>
    exact Or.inr ⟨not_stores (by simp), (step_before h).2 ▸ shrinks_refl _⟩
  | authorizeJwt c aud =>
    exact Or.inr ⟨not_stores (by simp), step_authorizeJwt h ▸ shrinks_refl _⟩
  | authorize c aud now later saved =>
    obtain ⟨e, rfl, htoken, rfl, hdb⟩ | ⟨hanswer, hdb⟩ := step_authorize h
    · exact Or.inl ⟨aud, e, ⟨c, now, later, rfl, htoken, rfl⟩, hdb⟩
    · exact Or.inr ⟨fun _ _ ⟨_, _, _, _, _, ho⟩ => hanswer ho, hdb ▸ shrinks_refl _⟩
  | authorizeUser c user =>
    obtain ⟨-, hdb⟩ | ⟨-, hdb⟩ := step_authorizeUser h
    · exact Or.inr ⟨not_stores (by simp), hdb ▸ shrinks_revoked _ _⟩
    · exact Or.inr ⟨not_stores (by simp), hdb ▸ shrinks_refl _⟩
  | revoke c user =>
    exact Or.inr ⟨not_stores (by simp), step_revoke h ▸ shrinks_revoked _ _⟩
  | after c =>
    obtain ⟨ctx, -, hdb⟩ := step_after h
    refine Or.inr ⟨not_stores (by simp), ?_⟩
    rw [hdb]
    split_ifs
    · exact shrinks_revoked _ _
    · exact shrinks_refl _
  | expire key =>
    exact Or.inr ⟨not_stores (by simp), step_expire h ▸ shrinks_erase _ _⟩

theorem not_removes_of_lookup (h : t.db.lookup user = s.db.lookup user) :
    ¬Removes ⟨s, op, o, t⟩ user := by
  rintro ⟨hbefore, hafter⟩
  rw [h] at hafter
  rw [hafter] at hbefore
  cases hbefore

theorem not_removes (h : t.db = s.db) (user : Bytes) : ¬Removes ⟨s, op, o, t⟩ user :=
  not_removes_of_lookup (by rw [h])

/-- **The calls that remove the session of nobody else.** -/
theorem only_iff (h : step C glob session s op = some (o, t)) :
    (∀ user, Removes ⟨s, op, o, t⟩ user → Permits session s user op) ↔
      Apart C glob session s op := by
  cases op with
  | before c routeId token aud =>
    exact iff_of_true (fun user hremoves => absurd hremoves (not_removes (step_before h).2 user))
      trivial
  | authorizeJwt c aud =>
    exact iff_of_true (fun user hremoves => absurd hremoves (not_removes (step_authorizeJwt h) user))
      trivial
  | authorize c aud now later saved =>
    refine iff_of_true (fun user hremoves => ?_) trivial
    obtain ⟨e, -, -, -, hdb⟩ | ⟨-, hdb⟩ := step_authorize h
    · -- a token that is stored removes none
      have hafter : t.db.lookup user = none := hremoves.2
      rw [hdb, AList.lookup_insert_eq_none] at hafter
      have hbefore : (s.db.lookup user).isSome := hremoves.1
      rw [hafter.2] at hbefore
      cases hbefore
    · exact absurd hremoves (not_removes hdb user)
  | authorizeUser c user =>
    obtain ⟨⟨e, he, hne, hdecoded⟩, hdb⟩ | ⟨hdecoded, hdb⟩ := step_authorizeUser h
    · have halone : Apart C glob session s (.authorizeUser c user) ↔ Alone glob s.db user := by
        refine ⟨fun hapart => hapart e he hne hdecoded, fun halone _ _ _ _ => halone⟩
      rw [halone, ← revoked_only_iff, ← hdb]
      rfl
    · refine iff_of_true (fun user' hremoves => absurd hremoves (not_removes hdb user')) ?_
      intro e he hne hfalse
      exact absurd hfalse (hdecoded e he hne)
  | revoke c user =>
    show _ ↔ Alone glob s.db user
    rw [← revoked_only_iff, ← step_revoke h]
    rfl
  | after c =>
    obtain ⟨ctx, hctx, hdb⟩ := step_after h
    have hpermits : ∀ user, Permits session s user (.after c) ↔
        session.onTokenRevoke = some ctx.routeId ∧ ctx.carried = some user := by
      intro user
      simp only [Permits, hctx, Option.some.injEq, exists_eq_left']
    simp only [hpermits, Apart, hctx, Option.mem_def, Option.some.injEq, forall_eq']
    by_cases hroute : ctx.routeId = session.revokeTokenRoute ∧ ctx.aud ≠ []
    · -- a server without the route has the id zero for it, as its first route has
      rw [if_pos hroute] at hdb
      simp only [hroute.1, hroute.2, ne_eq, not_false_eq_true, forall_true_left, Removes, hdb,
        removed_revoked, and_imp]
    · rw [if_neg hroute] at hdb
      refine iff_of_true (fun user hremoves => absurd hremoves (not_removes hdb user)) ?_
      intro hid hne
      exact absurd ⟨hid, hne⟩ hroute
  | expire key =>
    refine iff_of_true (fun user hremoves => ?_) trivial
    by_contra hne
    refine not_removes_of_lookup ?_ hremoves
    rw [step_expire h, AList.lookup_erase_ne fun heq => hne heq.symm]

/-! ### The runs -/

theorem stores_unique {user' token' : Bytes} (h : Stores C session ⟨s, op, o, t⟩ user token)
    (h' : Stores C session ⟨s, op, o, t⟩ user' token') : user' = user ∧ token' = token := by
  obtain ⟨c, now, later, hop, htoken, -⟩ := h
  obtain ⟨c', now', later', hop', htoken', -⟩ := h'
  obtain ⟨rfl, rfl, rfl, rfl, -⟩ := Op.authorize.inj (hop.symm.trans hop')
  exact ⟨rfl, Option.some.inj (htoken'.symm.trans htoken)⟩

/-- What is stored after a call. -/
theorem step_latest (h : step C glob session s op = some (o, t)) (user token : Bytes) :
    (∃ e, t.db.lookup user = some e ∧ e.token = token) ↔
      Stores C session ⟨s, op, o, t⟩ user token ∨
        (∃ e, s.db.lookup user = some e ∧ e.token = token) ∧ ¬Removes ⟨s, op, o, t⟩ user ∧
          ∀ token', ¬Stores C session ⟨s, op, o, t⟩ user token' := by
  obtain ⟨user', e, hstores, hdb⟩ | ⟨hstores, hshrinks⟩ := step_db h
  · -- a token of the user itself takes the place of the one before
    by_cases heq : user = user'
    · subst heq
      rw [hdb, AList.lookup_insert]
      constructor
      · rintro ⟨e', he', rfl⟩
        obtain rfl := Option.some.inj he'
        exact Or.inl hstores
      · rintro (htoken | ⟨-, -, hnone⟩)
        · exact ⟨e, rfl, (stores_unique hstores htoken).2.symm⟩
        · exact absurd hstores (hnone _)
    · have hlookup : t.db.lookup user = s.db.lookup user := by
        rw [hdb, AList.lookup_insert_ne heq]
      have hnot : ∀ token', ¬Stores C session ⟨s, op, o, t⟩ user token' :=
        fun token' hother => heq (stores_unique hstores hother).1
      rw [hlookup, or_iff_right (hnot token)]
      exact (and_iff_left ⟨not_removes_of_lookup hlookup, hnot⟩).symm
  · rw [or_iff_right (hstores user token), and_iff_left (hstores user)]
    rcases hshrinks user with hnone | hsame
    · rw [hnone]
      refine iff_of_false (by simp) ?_
      rintro ⟨⟨e, he, -⟩, hnot⟩
      exact hnot ⟨by rw [he]; rfl, hnone⟩
    · rw [hsame]
      exact (and_iff_left (not_removes_of_lookup hsame)).symm

/-- **What is stored** for a user is the token that was stored last and not removed since. -/
theorem latest_iff (h : Run (step C glob session) start ms s) (user token : Bytes) :
    (∃ e, s.db.lookup user = some e ∧ e.token = token) ↔
      Latest (fun m token => Stores C session m user token) (fun m => Removes m user) ms token := by
  refine h.rule (G := fun _ _ => True)
    (J := fun ms s => (∃ e, s.db.lookup user = some e ∧ e.token = token) ↔
      Latest (fun m token => Stores C session m user token) (fun m => Removes m user) ms token)
    (iff_of_false (by simp [start]) not_latest_nil) ?_ fun _ _ => trivial
  intro ms u op o v hlatest _ hstep
  rw [latest_concat, ← hlatest]
  exact step_latest hstep user token

/-- The tokens that are stored are compared exactly. -/
theorem stored_zero_free {e : Session} (h : Run (step C glob session) start ms s)
    (he : s.db.lookup user = some e) : (0 : UInt8) ∉ e.token ∧ e.token ≠ [] := by
  obtain ⟨pre, m, post, -, hstores, -⟩ := (latest_iff h user e.token).mp ⟨e, he, rfl⟩
  obtain ⟨c, now, later, -, htoken, -⟩ := hstores
  exact Jwt.encode_zero_free htoken

theorem isSpecialRoute_of_setup {routeId : ℕ}
    (h : session.onTokenRefresh = some routeId ∨ session.onTokenRevoke = some routeId) :
    session.isSpecialRoute routeId := by
  rcases h with h | h
  · exact Or.inr (by rw [refreshTokenRoute, h, Option.getD_some])
  · exact Or.inl (by rw [revokeTokenRoute, h, Option.getD_some])

/-- **What goes through** on a special route. -/
theorem doBefore_iff {routeId : ℕ} (hne : token ≠ []) (hroute : session.isSpecialRoute routeId)
    (hdb : ∀ e, db.lookup aud = some e → (0 : UInt8) ∉ e.token ∧ e.token ≠ []) :
    doBefore session db routeId token aud = true ↔
      ∃ e, db.lookup aud = some e ∧ e.token = token := by
  rw [doBefore, if_pos ⟨hne, hroute⟩]
  rcases hlookup : db.lookup aud with _ | e
  · simp
  · obtain ⟨hzero, hempty⟩ := hdb e hlookup
    simp only [Bool.and_eq_true, decide_eq_true_eq, Option.some.injEq, exists_eq_left']
    rw [and_iff_right (by simpa using hempty), strEq_eq_true_iff hzero hempty, eq_comm]

theorem only_run_iff (h : Run (step C glob session) start ms s) :
    (∀ m ∈ ms, ∀ user, Removes m user → Permits session m.before user m.input) ↔
      ∀ m ∈ ms, Apart C glob session m.before m.input :=
  forall₂_congr fun _ hm => only_iff (h.step_of_mem hm)

/-- **Of every run**: nobody loses a session to somebody else, and on the two routes the tokens
that were stored last go through and no others, if and only if what is revoked is always revoked
apart. -/
theorem run_sessions_iff (glob : Bytes → Bytes → Bool) {s : State}
    (h : Run (step C glob session) start ms s) :
    Right C session ms ↔ ∀ m ∈ ms, Apart C glob session m.before m.input := by
  refine ⟨fun hright => (only_run_iff h).mp hright.only,
    fun hapart => ⟨(only_run_iff h).mpr hapart, ?_⟩⟩
  rintro pre m post rfl c routeId token aud hop hne hroute
  obtain ⟨hpre, hstep⟩ := h.at_move
  rw [hop] at hstep
  rw [(step_before hstep).1, doBefore_iff hne (isSpecialRoute_of_setup hroute) fun e he =>
    stored_zero_free hpre he]
  exact latest_iff hpre aud token

end

namespace Sample

def ann : Bytes := ascii "ann"

def joann : Bytes := ascii "joann"

def annText : Bytes := ascii "\x7b\"aud\":\"ann\",\"exp\":1297000,\"iat\":1000\x7d"

def joannText : Bytes := ascii "\x7b\"aud\":\"joann\",\"exp\":1297000,\"iat\":1000\x7d"

/-- The texts of the two tokens, without their signatures. -/
def annData : Bytes := Base64.urlText Jwt.headerText ++ 46 :: Base64.urlText annText

def annDigest : Digest :=
  ⟨[159, 136, 251, 66, 198, 203, 136, 8, 79, 230, 238, 62, 8, 90, 11, 162, 90,
    109, 16, 27, 54, 89, 227, 84, 71, 186, 97, 236, 94, 237, 106, 109], rfl⟩

def joannDigest : Digest :=
  ⟨[53, 244, 241, 157, 154, 212, 109, 37, 76, 114, 106, 1, 129, 173, 121, 175, 20,
    66, 6, 183, 159, 130, 120, 105, 38, 245, 1, 124, 217, 91, 77, 26], rfl⟩

def codec : JwtCodec ℤ where
  hmac _ data := if data = annData then annDigest else joannDigest
  header := .single Jwt.headerText {}
  payload :=
    ⟨fun p => if p.aud = ann then annText else joannText,
      fun t _ =>
        if t = annText then some { aud := ann, exp := 1297000, iat := 1000 }
        else if t = joannText then some { aud := joann, exp := 1297000, iat := 1000 }
        else none⟩

def token (user : Bytes) : Bytes :=
  if user = ann then annData ++ 46 :: Base64.urlText annDigest.1
  else Base64.urlText Jwt.headerText ++ 46 :: Base64.urlText joannText ++
    46 :: Base64.urlText joannDigest.1

/-- The patterns that are a star and a name. -/
def glob (pattern key : Bytes) : Bool := (pattern.drop 1).isSuffixOf key

def key : Bytes := ascii "cR4jxGGe8q4mdKN0f1rhkA=="

/-- A request to the route with this id, in which a user logs in. -/
def login (c routeId : ℕ) (user : Bytes) : List Op :=
  [.before c routeId [] [], .authorize c user 1000 1000 true, .after c]

/-- A request to the route with this id, with the token of a user. -/
def request (c routeId : ℕ) (user : Bytes) : List Op :=
  [.before c routeId (token user) user, .after c]

end Sample

open Sample in
/-- Two users log in; one of them refreshes, revokes and is not let in any more, and the other
one is. -/
theorem run_sessions_iff_two :
    let session : JwtSession :=
      { refreshTokenKey := key, onTokenRefresh := some 4, onTokenRevoke := some 5 }
    let ops := login 0 3 ann ++ login 1 3 joann ++ request 2 4 joann ++ request 3 5 joann ++
      request 4 4 joann ++ request 5 4 ann
    let ms := moves (step codec Sample.glob session) start ops
    Right codec session ms ∧ ms.map Move.output =
      [.passed, .returned true, .done, .passed, .returned true, .done, .passed, .done,
        .passed, .done, .ended, .done, .passed, .done] :=
  ⟨(run_sessions_iff Sample.glob (run_final _ _ _)).mpr (by decide +kernel), by decide +kernel⟩

open Sample in
/-- Revoking `ann` removes the session of `joann`, and who logs in at the first route of a server
without a revoke route is logged out at the end of the request. -/
theorem not_run_sessions :
    let session : JwtSession := { refreshTokenKey := key }
    ∀ ops ∈ [login 0 3 joann ++ [.before 1 3 [] [], .revoke 1 ann], login 0 0 joann],
      let ms := moves (step codec Sample.glob session) start ops
      Run (step codec Sample.glob session) start ms
          (final (step codec Sample.glob session) start ops) ∧
        (final (step codec Sample.glob session) start ops).db.lookup joann = none ∧
        ms.any (·.output = .returned true) ∧ ¬Right codec session ms := by
  intro session ops hops ms
  have hrun : Run (step codec Sample.glob session) start ms
      (final (step codec Sample.glob session) start ops) := run_final _ _ _
  have hlost : ∀ ops ∈ [login 0 3 joann ++ [.before 1 3 [] [], .revoke 1 ann], login 0 0 joann],
      (final (step codec Sample.glob session) start ops).db.lookup joann = none ∧
        (moves (step codec Sample.glob session) start ops).any (·.output = .returned true) ∧
        ¬∀ m ∈ moves (step codec Sample.glob session) start ops,
          Apart codec Sample.glob session m.before m.input := by
    decide +kernel
  obtain ⟨hnone, hstored, happart⟩ := hlost ops hops
  exact ⟨hrun, hnone, hstored, fun hright => happart ((only_run_iff hrun).mp hright.only)⟩

end JwtSession
end Suil
