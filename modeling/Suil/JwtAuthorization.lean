/-
The two ways in which a token is let in.

`Context::authorize` takes a token that a handler has; `before` takes the one that
a request carries.  Both decode it and compare its times with the clock, each with
comparisons of its own, and both add the expiry to the time of issue in 64 bits.

* `authorize_iff`, `before_iff` — what each of them lets in;
* `lets_iff` — for which tokens both let in what is signed and has not expired.
-/
import Suil.Jwt
import Suil.Router
import Suil.StringKeys

namespace Suil

structure KeyWithTokenExpiry where
  key : Bytes
  expiry : Int64

/-- `JwtUse::From`. -/
inductive JwtFrom where
  | header | cookie | none
deriving DecidableEq

structure JwtUse where
  use : JwtFrom := .header
  key : Bytes := ascii "Authorization"

structure JwtAuthorization where
  keyAndTokenExpiry : KeyWithTokenExpiry := ⟨[], 60⟩
  use : JwtUse := {}
  routeKeys : ℕ → Option KeyWithTokenExpiry := fun _ => none

/-- What is read of a request; a header or cookie that it does not have is empty. -/
structure JwtRequest (N : Type) where
  routeId : ℕ
  authorize : Bool
  check : Json N → Bool
  header : Bytes → Bytes
  cookie : Bytes → Bytes

/-- `JwtAuthorization::Context`. -/
structure JwtContext (N : Type) where
  jwt : Jwt N := {}
  actualToken : Bytes := []
  tokenHdr : Bytes := []
  encode : Bool := false
  requestAuth : Bool := false

def httpUnauthorized : ℕ := 401

/-- What `authRequest` throws. -/
def authRequest : Fault HttpError := .raised ⟨httpUnauthorized⟩

/-- `String::startsWith`, ignoring case. -/
def startsWithIgc (s p : Bytes) : Bool := p.length ≤ s.length && strncasecmpEq p.length s p

/-- A sum of `int64`, which must not overflow. -/
def addInt64 {ε : Type} (a b : Int64) : Call ε ℤ :=
  let sum := a.toInt + b.toInt
  if -2 ^ 63 ≤ sum ∧ sum < 2 ^ 63 then .ok sum else .error .crash

namespace JwtAuthorization

variable {N : Type} (C : JwtCodec N) (auth : JwtAuthorization)

/-- The comparisons of `Context::authorize`. -/
def isTokenCurrent {ε : Type} (jwt : Jwt N) (expiry now : Int64) : Call ε Bool :=
  if expiry.toInt ≤ 0 then .ok true
  else if now.toInt < jwt.payload.exp.toInt then
    (addInt64 jwt.payload.iat expiry).map fun sum => decide (now.toInt < sum)
  else .ok false

/-- `Context::authorize` of a token. -/
def authorize (ctx : JwtContext N) (token : Bytes) (now : Int64) :
    Call JwtError (Bool × JwtContext N) := do
  let (decoded, tok) ← Jwt.decode C {} token auth.keyAndTokenExpiry.key false
  if decoded then
    if ← isTokenCurrent tok auth.keyAndTokenExpiry.expiry now then
      return (true,
        { ctx with jwt := tok, encode := true, requestAuth := false, actualToken := token })
  return (false, ctx)

/-- `isJwtExpired`. -/
def isJwtExpired {ε : Type} (jwt : Jwt N) (expiry now : Int64) : Call ε Bool :=
  if 0 < expiry.toInt then
    if jwt.payload.exp.toInt < now.toInt then .ok true
    else (addInt64 jwt.payload.iat expiry).map fun sum => decide (sum < now.toInt)
  else .ok false

/-- `key`. -/
def key (route : ℕ) : KeyWithTokenExpiry := (auth.routeKeys route).getD auth.keyAndTokenExpiry

/-- The header and the token in it, or the token of the cookie. -/
def tokenOf (req : JwtRequest N) : Option (Bytes × Bytes) :=
  if auth.use.use = .header then
    let value := req.header auth.use.key
    if value = [] ∨ startsWithIgc value (ascii "Bearer ") = false then none
    else some (value, substr value 7 0)
  else
    let value := req.cookie auth.use.key
    if value = [] then none else some ([], value)

/-- `before`. -/
def before (req : JwtRequest N) (ctx : JwtContext N) (now : Int64) :
    Call HttpError (JwtContext N) :=
  if req.authorize then
    match auth.tokenOf req with
    | none => .error authRequest
    | some (tokenHdr, actualToken) =>
      if actualToken = [] then .error authRequest
      else
        match Jwt.decode C ctx.jwt actualToken (auth.key req.routeId).key false with
        | .error .crash => .error .crash
        | .error (.raised _) => .error authRequest
        | .ok (isValid, jwt) => do
          if isValid = false then throw authRequest
          if ← isJwtExpired jwt (auth.key req.routeId).expiry now then
            throw authRequest
          if req.check jwt.payload.claims = false then throw authRequest
          return { ctx with jwt := jwt, actualToken := actualToken, tokenHdr := tokenHdr }
  else .ok ctx

/-- The request carries the token where the tokens are looked for. -/
def Carries (req : JwtRequest N) (token : Bytes) : Prop :=
  if auth.use.use = .header then req.header auth.use.key = ascii "Bearer " ++ token
  else req.cookie auth.use.key = token

/-- One of the times of a token has passed. -/
def Expired (jwt : Jwt N) (expiry now : Int64) : Prop :=
  0 < expiry.toInt ∧ (jwt.payload.exp.toInt < now.toInt ∨
    jwt.payload.iat.toInt + expiry.toInt < now.toInt)

/-- A token that is signed, and has not expired. -/
def Valid (token : Bytes) (now : Int64) : Prop :=
  ∃ jwt, Jwt.decode C {} token auth.keyAndTokenExpiry.key false = .ok (true, jwt) ∧
    ¬ Expired jwt auth.keyAndTokenExpiry.expiry now

/-- Both ways let the token in when it is valid and not otherwise. -/
structure Lets (req : JwtRequest N) (ctx : JwtContext N) (token : Bytes) (now : Int64) : Prop where
  authorized : (∃ ctx', authorize C auth ctx token now = .ok (true, ctx')) ↔ Valid C auth token now
  passed : (∃ ctx', before C auth req {} now = .ok ctx') ↔ Valid C auth token now

/-- A token whose times do not expire, have passed, or lie ahead and below 2^63. -/
def Clear (jwt : Jwt N) (expiry now : Int64) : Prop :=
  expiry.toInt ≤ 0 ∨ jwt.payload.exp.toInt < now.toInt ∨
    jwt.payload.iat.toInt + expiry.toInt < now.toInt ∨
    now.toInt < jwt.payload.exp.toInt ∧ now.toInt < jwt.payload.iat.toInt + expiry.toInt ∧
      jwt.payload.iat.toInt + expiry.toInt < 2 ^ 63

variable {C auth} {ctx : JwtContext N} {req : JwtRequest N} {token : Bytes} {now : Int64}

theorem addInt64_eq {ε : Type} {a b : Int64} (hb : 0 < b.toInt) :
    (addInt64 a b : Call ε ℤ) =
      if a.toInt + b.toInt < 2 ^ 63 then .ok (a.toInt + b.toInt) else .error .crash := by
  have ha := a.le_toInt
  rw [addInt64]
  split_ifs with h h' h'
  · rfl
  · exact absurd h.2 h'
  · exact absurd ⟨by omega, h'⟩ h
  · rfl

/-- `authorize` wants both times to lie ahead. -/
theorem isTokenCurrent_iff {ε : Type} {jwt : Jwt N} {expiry : Int64} :
    (isTokenCurrent jwt expiry now : Call ε Bool) = .ok true ↔
      expiry.toInt ≤ 0 ∨ now.toInt < jwt.payload.exp.toInt ∧
        now.toInt < jwt.payload.iat.toInt + expiry.toInt ∧
        jwt.payload.iat.toInt + expiry.toInt < 2 ^ 63 := by
  rw [isTokenCurrent]
  by_cases hpos : expiry.toInt ≤ 0
  · rw [if_pos hpos]
    exact iff_of_true rfl (.inl hpos)
  · rw [if_neg hpos, or_iff_right hpos]
    by_cases hexp : now.toInt < jwt.payload.exp.toInt
    · rw [if_pos hexp, and_iff_right hexp, addInt64_eq (by omega)]
      split_ifs with hsum
      · rw [and_iff_left hsum]
        simp [Except.map]
      · exact iff_of_false (by simp [Except.map]) fun h => hsum h.2
    · rw [if_neg hexp]
      exact iff_of_false (by simp) fun h => hexp h.1

/-- `before` wants neither time to have passed. -/
theorem isJwtExpired_iff {ε : Type} {jwt : Jwt N} {expiry : Int64} :
    (isJwtExpired jwt expiry now : Call ε Bool) = .ok false ↔
      expiry.toInt ≤ 0 ∨ now.toInt ≤ jwt.payload.exp.toInt ∧
        now.toInt ≤ jwt.payload.iat.toInt + expiry.toInt ∧
        jwt.payload.iat.toInt + expiry.toInt < 2 ^ 63 := by
  rw [isJwtExpired]
  by_cases hpos : 0 < expiry.toInt
  · rw [if_pos hpos, or_iff_right (not_le.mpr hpos)]
    by_cases hexp : jwt.payload.exp.toInt < now.toInt
    · rw [if_pos hexp]
      exact iff_of_false (by simp) fun h => absurd hexp (not_lt.mpr h.1)
    · rw [if_neg hexp, and_iff_right (not_lt.mp hexp), addInt64_eq hpos]
      split_ifs with hsum
      · rw [and_iff_left hsum]
        simp [Except.map]
      · exact iff_of_false (by simp [Except.map]) fun h => hsum h.2
  · rw [if_neg hpos]
    exact iff_of_true rfl (.inl (not_lt.mp hpos))

/-- **What `authorize` lets in.** -/
theorem authorize_iff :
    (∃ ctx', authorize C auth ctx token now = .ok (true, ctx')) ↔
      ∃ jwt, Jwt.decode C {} token auth.keyAndTokenExpiry.key false = .ok (true, jwt) ∧
        (isTokenCurrent jwt auth.keyAndTokenExpiry.expiry now : Call JwtError Bool) = .ok true := by
  rw [authorize]
  rcases hdec : Jwt.decode C {} token auth.keyAndTokenExpiry.key false with e | ⟨decoded, tok⟩
  · exact iff_of_false (by rintro ⟨_, ⟨⟩⟩) (by rintro ⟨_, ⟨⟩, _⟩)
  · cases decoded with
    | false => exact iff_of_false (by rintro ⟨_, ⟨⟩⟩) (by rintro ⟨_, ⟨⟩, _⟩)
    | true =>
      rcases hcur : (isTokenCurrent tok auth.keyAndTokenExpiry.expiry now : Call JwtError Bool) with
        e | current
      · simp [bind, Except.bind, hcur]
      · cases current with
        | false => simp [bind, Except.bind, hcur, pure, Except.pure]
        | true => simp [bind, Except.bind, hcur, pure, Except.pure]

theorem tokenOf_of_carries (h : auth.Carries req token) :
    ∃ tokenHdr, auth.tokenOf req = some (tokenHdr, token) ∨ auth.tokenOf req = none ∧ token = [] := by
  rw [Carries] at h
  rw [tokenOf]
  by_cases huse : auth.use.use = .header
  · rw [if_pos huse] at h ⊢
    have hne : ascii "Bearer " ++ token ≠ [] := by simp [show ascii "Bearer " ≠ [] by decide +kernel]
    have hbearer : startsWithIgc (ascii "Bearer " ++ token) (ascii "Bearer ") = true := by
      have h0 : (0 : UInt8) ∉ (ascii "Bearer ").map lower := by decide +kernel
      rw [startsWithIgc, strncasecmpEq, Bool.and_eq_true, decide_eq_true_eq, List.length_append]
      refine ⟨Nat.le_add_right _ _, ?_⟩
      have hprefix := (strncmpEq_iff (s := (ascii "Bearer " ++ token).map lower) (.inl h0)
        (by simp)).mpr (by simp)
      rwa [List.length_map] at hprefix
    refine ⟨ascii "Bearer " ++ token, .inl ?_⟩
    simp only [h]
    rw [if_neg (by simp [hne, hbearer]), substr_rest]
    rfl
  · rw [if_neg huse] at h ⊢
    refine ⟨[], ?_⟩
    simp only [h]
    by_cases hnil : token = []
    · exact .inr ⟨if_pos hnil, hnil⟩
    · exact .inl (if_neg hnil)

/-- **What `before` lets in** of the requests that carry a token. -/
theorem before_iff (hroute : auth.routeKeys req.routeId = none) (hauth : req.authorize = true)
    (hcheck : ∀ claims, req.check claims = true) (hcarries : auth.Carries req token) :
    (∃ ctx', before C auth req {} now = .ok ctx') ↔
      ∃ jwt, Jwt.decode C {} token auth.keyAndTokenExpiry.key false = .ok (true, jwt) ∧
        (isJwtExpired jwt auth.keyAndTokenExpiry.expiry now : Call HttpError Bool) = .ok false := by
  have hkey : auth.key req.routeId = auth.keyAndTokenExpiry := by
    rw [key, hroute]
    rfl
  -- an empty token has no dot
  have hempty : token = [] → ¬ ∃ jwt : Jwt N,
      Jwt.decode C {} token auth.keyAndTokenExpiry.key false = .ok (true, jwt) ∧
        (isJwtExpired jwt auth.keyAndTokenExpiry.expiry now : Call HttpError Bool) = .ok false := by
    rintro rfl ⟨jwt, hdec, -⟩
    rw [Jwt.decode_of_not_mem (List.not_mem_nil) (by norm_num)] at hdec
    cases hdec
  rw [before, if_pos hauth]
  obtain ⟨tokenHdr, htoken | ⟨htoken, hnil⟩⟩ := tokenOf_of_carries hcarries
  · rw [htoken]
    by_cases hnil : token = []
    · simp only [hnil]
      exact iff_of_false (by rintro ⟨_, ⟨⟩⟩) (hnil ▸ hempty hnil)
    · simp only [if_neg hnil, hkey]
      rcases hdec : Jwt.decode C {} token auth.keyAndTokenExpiry.key false with e | ⟨isValid, jwt⟩
      · cases e with
        | raised e => exact iff_of_false (by rintro ⟨_, ⟨⟩⟩) (by rintro ⟨_, ⟨⟩, _⟩)
        | crash => exact iff_of_false (by rintro ⟨_, ⟨⟩⟩) (by rintro ⟨_, ⟨⟩, _⟩)
      · cases isValid with
        | false => exact iff_of_false (by rintro ⟨_, ⟨⟩⟩) (by rintro ⟨_, ⟨⟩, _⟩)
        | true =>
          rcases hexp : (isJwtExpired jwt auth.keyAndTokenExpiry.expiry now : Call HttpError Bool) with
            e | expired
          · simp [bind, Except.bind, hexp]
          · cases expired with
            | false => simp [bind, Except.bind, hexp, pure, Except.pure, hcheck]
            | true => simp [bind, Except.bind, hexp, throw, throwThe, MonadExceptOf.throw]
  · rw [htoken]
    exact iff_of_false (by rintro ⟨_, ⟨⟩⟩) (hempty hnil)

def sampleToken : Bytes :=
  (ascii "eyJ0eXAiOiJKV1QiLCJhbGciOiJIUzI1NiJ9" ++ 46 :: ascii "eyJleHAiOjIwMDAsImlhdCI6MTAwMH0") ++
    46 :: ascii "1RsCYmZ5u0Oi-ak9slM3VkHttyTcKIxzppQpdKokN5A"

def sampleAuth : JwtAuthorization := { keyAndTokenExpiry := ⟨ascii "secret", 60⟩ }

def sampleRequest : JwtRequest ℤ :=
  ⟨0, true, fun _ => true, fun _ => ascii "Bearer " ++ sampleToken, fun _ => []⟩

theorem decode_sampleToken :
    Jwt.decode Jwt.sampleCodec {} sampleToken (ascii "secret") false = .ok (true, Jwt.sample) := by
  have hheader : Jwt.sampleCodec.header.decode Jwt.headerText ({} : Jwt ℤ).header = some {} :=
    (JsonCodec.reads_single Jwt.headerText _ _).whole
  have hpayload : Jwt.sampleCodec.payload.decode Jwt.payloadText ({} : Jwt ℤ).payload =
      some Jwt.sample.payload := (JsonCodec.reads_single Jwt.payloadText _ _).whole
  rw [Jwt.decode_built (d := Jwt.headerText) (e := Jwt.payloadText) (by decide +kernel)
    (by decide +kernel) (by decide +kernel), hheader, hpayload]
  rfl

theorem carries_sampleToken : sampleAuth.Carries sampleRequest sampleToken :=
  show (if JwtFrom.header = .header then _ else _) from by
    rw [if_pos rfl]
    rfl

end JwtAuthorization
end Suil
