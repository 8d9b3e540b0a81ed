/-
The login of the SMTP client.

A call connects, reads the greeting and the extensions of the server, and speaks to it
by the mechanism asked for.  What the socket takes of each write, what it flushes and
what the server replies are lists that the call works off; what was written before a
reply is kept beside it.

* `say_spec`, `initConnection_spec`, `authLogin_spec`, `authPlain_iff` — what each part of
  the exchange leaves behind;
* `loggedIn_iff` — for which servers a login that is reported was one.
-/
import Suil.SmtpAuth
import Suil.SmtpMessage
import Suil.StringParts

namespace Suil

namespace Smtp

inductive LoginError where
  | smtpClientError
  | strtonum
  | indexOutOfBounds
deriving DecidableEq, Repr

/-- The client and its connection.  `sends` is how many bytes each write takes, none for an
error; `pending` is what was written since the last reply. -/
structure Client where
  auth : List AuthMechanism := []
  sends : List (Option ℕ)
  flushes : List Bool
  replies : List (Option Reply)
  pending : Bytes := []
  turns : List (Bytes × Reply) := []

namespace Client

def sendPart (part : Bytes) (c : Client) : Bool × Client :=
  match c.sends with
  | [] => (false, c)
  | none :: sends => (false, { c with sends := sends })
  | some n :: sends =>
    (n = part.length, { c with sends := sends, pending := c.pending ++ part.take n })

/-- `sendParts`, whose result nothing looks at. -/
def sendParts : List Bytes → Client → Client
  | [], c => c
  | part :: parts, c =>
    if (sendPart part c).1 then sendParts parts (sendPart part c).2 else (sendPart part c).2

def sendFlush (c : Client) : Bool × Client :=
  if (sendPart crlf c).1 then
    match (sendPart crlf c).2.flushes with
    | [] => (false, (sendPart crlf c).2)
    | ok :: flushes => (ok, { (sendPart crlf c).2 with flushes := flushes })
  else (false, (sendPart crlf c).2)

def sendLine (part : Bytes) (parts : List Bytes) (c : Client) : Bool × Client :=
  if (sendPart part c).1 then sendFlush (sendParts parts (sendPart part c).2)
  else (false, (sendPart part c).2)

/-- A line whose failure is thrown. -/
def say (part : Bytes) (parts : List Bytes) (c : Client) : Call LoginError Client :=
  if (sendLine part parts c).1 then .ok (sendLine part parts c).2
  else .error (.raised .smtpClientError)

/-- `getResponse`; no reply, or one that is none, is thrown. -/
def getResponse (c : Client) : Call LoginError (Reply × Client) :=
  match c.replies with
  | some resp :: replies =>
    .ok (resp,
      { c with replies := replies, pending := [], turns := c.turns ++ [(c.pending, resp)] })
  | _ => .error (.raised .smtpClientError)

/-- The loop of `populateExtensions`.  `AUTH` without mechanisms is read beyond its end. -/
def populate : List Bytes → List AuthMechanism → Call LoginError (List AuthMechanism)
  | [], auth => .ok auth
  | ext :: exts, auth =>
    if ext.length < 4 then populate exts auth
    else if (ext.take 4).map toUpper = ascii "SIZE" then
      if ext.length < 6 then populate exts auth
      else if (castInt (ext.drop 5)).isNone then .error (.raised .strtonum)
      else populate exts auth
    else if (ext.take 4).map toUpper = ascii "AUTH" then
      if ext.length < 6 then .error .crash
      else
        match (Suil.parts 32 (ext.drop 5)).mapM parseAuthMechanism with
        | none => .error (.raised .indexOutOfBounds)
        | some mechanisms => populate exts (auth ++ mechanisms.filter (· ≠ .Unknown))
    else populate exts auth

def populateExtensions (resp : List Bytes) (c : Client) : Call LoginError (Bool × Client) := do
  let auth ← populate (resp.drop 1) c.auth
  return (true, { c with auth := auth })

def initConnection (domain : Bytes) (c : Client) : Call LoginError (Bool × Client) := do
  let (resp, c) ← getResponse c
  if resp.code ≠ 220 then return (false, c)
  let c ← say (ascii "EHLO ") [domain] c
  let (resp, c) ← getResponse c
  if resp.code = 250 then populateExtensions resp.lines c
  else if resp.code ≠ 502 then return (false, c)
  else
    let c ← say (ascii "HELO ") [domain] c
    let (resp, c) ← getResponse c
    return (resp.code = 250, c)

def authLogin (username password : Bytes) (c : Client) : Call LoginError (Bool × Client) :=
  match Base64.encode username, Base64.encode password with
  | some b64Username, some b64Passwd => do
    let c ← say (ascii "AUTH LOGIN") [] c
    let (resp, c) ← getResponse c
    if resp.code ≠ 334 then return (false, c)
    let c ← say b64Username [] c
    let (resp, c) ← getResponse c
    if resp.code ≠ 334 then return (false, c)
    let c ← say b64Passwd [] c
    let (resp, c) ← getResponse c
    return (resp.code = 235, c)
  | _, _ => .error .crash

def authPlain (username password : Bytes) (c : Client) : Call LoginError (Bool × Client) :=
  match plainResponse username password with
  | some authString => do
    let c ← say (ascii "AUTH PLAIN ") [authString] c
    let (resp, c) ← getResponse c
    return (resp.code = 235, c)
  | none => .error .crash

/-- `createAdaptor`: a new connection, if there is one. -/
def createAdaptor (c : Client) : Client := { c with pending := [], turns := [] }

/-- `endSession`. -/
def endSession (c : Client) : Client := (sendLine (ascii "QUIT") [] c).2

/-- What is returned, after the session that failed was ended. -/
def deferred (r : Bool × Client) : Bool × Client := if r.1 then r else (false, endSession r.2)

/-- `doLogin`, where `connected` is whether `createAdaptor` succeeds. -/
def doLogin (mechanism : AuthMechanism) (username passwd domain : Bytes) (connected : Bool)
    (c : Client) : Call LoginError (Bool × Client) :=
  if connected then do
    let (status, c) ← initConnection domain (createAdaptor c)
    if status = false then return deferred (false, c)
    -- the status is that of the connection
    if mechanism ∉ c.auth then return deferred (status, c)
    match mechanism with
    | .Plain => return deferred (← authPlain username passwd c)
    | .Login => return deferred (← authLogin username passwd c)
    | _ => return deferred (false, c)
  else .ok (false, c)

/-- The last turns are an exchange with these credentials that the server accepted. -/
def Authenticated (mechanism : AuthMechanism) (username passwd : Bytes)
    (turns : List (Bytes × Reply)) : Prop :=
  match mechanism with
  | .Plain => ∃ before authString resp, plainResponse username passwd = some authString ∧
      turns = before ++ [(ascii "AUTH PLAIN " ++ authString ++ crlf, resp)] ∧ resp.code = 235
  | .Login => ∃ before b64Username b64Passwd resp₀ resp₁ resp,
      Base64.encode username = some b64Username ∧ Base64.encode passwd = some b64Passwd ∧
      turns = before ++ [(ascii "AUTH LOGIN" ++ crlf, resp₀), (b64Username ++ crlf, resp₁),
        (b64Passwd ++ crlf, resp)] ∧ resp.code = 235
  | _ => False

/-- A login that is reported was one. -/
def LoggedIn (mechanism : AuthMechanism) (username passwd domain : Bytes) (connected : Bool)
    (c : Client) : Prop :=
  ∀ c', doLogin mechanism username passwd domain connected c = .ok (true, c') →
    Authenticated mechanism username passwd c'.turns

/-- The credentials are not written in full, and the server replies 235 to what is. -/
def Cut (c : Client) (authString : Bytes) : Prop :=
  ∃ taken sends flushes resp replies, c.sends = some 11 :: taken :: some 2 :: sends ∧
    taken.getD 0 < authString.length ∧ c.flushes = true :: flushes ∧
    c.replies = some resp :: replies ∧ resp.code = 235

end Client

namespace Client

variable {c c' : Client} {part : Bytes} {username passwd domain : Bytes}

theorem sendPart_spec (h : (sendPart part c).1 = true) :
    ∃ sends, c.sends = some part.length :: sends ∧
      (sendPart part c).2 = { c with sends := sends, pending := c.pending ++ part } := by
  rw [sendPart] at h ⊢
  match hsends : c.sends with
  | [] => simp [hsends] at h
  | none :: sends => simp [hsends] at h
  | some n :: sends =>
    simp only [hsends, decide_eq_true_eq] at h
    refine ⟨sends, by rw [h], ?_⟩
    simp only [h, List.take_length]

/-- Writing changes nothing but what is pending. -/
theorem sendPart_kept (part : Bytes) (c : Client) :
    (sendPart part c).2.auth = c.auth ∧ (sendPart part c).2.flushes = c.flushes ∧
      (sendPart part c).2.replies = c.replies ∧ (sendPart part c).2.turns = c.turns ∧
      ∃ rest, (sendPart part c).2.pending = c.pending ++ rest := by
  rw [sendPart]
  match hsends : c.sends with
  | [] => exact ⟨rfl, rfl, rfl, rfl, [], (List.append_nil _).symm⟩
  | none :: sends => exact ⟨rfl, rfl, rfl, rfl, [], (List.append_nil _).symm⟩
  | some n :: sends => exact ⟨rfl, rfl, rfl, rfl, _, rfl⟩

theorem sendParts_kept (parts : List Bytes) (c : Client) :
    (sendParts parts c).auth = c.auth ∧ (sendParts parts c).flushes = c.flushes ∧
      (sendParts parts c).replies = c.replies ∧ (sendParts parts c).turns = c.turns ∧
      ∃ rest, (sendParts parts c).pending = c.pending ++ rest := by
  induction parts generalizing c with
  | nil => exact ⟨rfl, rfl, rfl, rfl, [], (List.append_nil _).symm⟩
  | cons part parts ih =>
    have hpart := sendPart_kept part c
    rw [sendParts]
    split_ifs
    · obtain ⟨hauth, hflushes, hreplies, hturns, rest, hpending⟩ := hpart
      obtain ⟨hauth', hflushes', hreplies', hturns', rest', hpending'⟩ := ih (sendPart part c).2
      refine ⟨hauth'.trans hauth, hflushes'.trans hflushes, hreplies'.trans hreplies,
        hturns'.trans hturns, rest ++ rest', ?_⟩
      rw [hpending', hpending, List.append_assoc]
    · exact hpart

theorem sendPart_of_taken {p : Bytes} {l : List (Option ℕ)} (h : c.sends = some p.length :: l) :
    sendPart p c = (true, { c with sends := l, pending := c.pending ++ p }) := by
  rw [sendPart, h]
  simp

/-- One more part is written as far as it is taken. -/
theorem sendParts_one {p : Bytes} {taken : Option ℕ} {l : List (Option ℕ)} (h : c.sends = taken :: l) :
    sendParts [p] c = { c with sends := l, pending := c.pending ++ p.take (taken.getD 0) } := by
  have hone : sendParts [p] c = (sendPart p c).2 := by
    rw [sendParts, sendParts, ite_self]
  rw [hone, sendPart, h]
  cases taken with
  | none => simp
  | some n => rfl

/-- A flush that succeeds ends the line. -/
theorem sendFlush_spec (h : (sendFlush c).1 = true) :
    ∃ sends flushes, c.sends = some 2 :: sends ∧ c.flushes = true :: flushes ∧
      (sendFlush c).2 = { c with sends := sends, flushes := flushes, pending := c.pending ++ crlf } := by
  rw [sendFlush] at h ⊢
  by_cases hpart : (sendPart crlf c).1 = true
  · obtain ⟨sends, hsends, hc⟩ := sendPart_spec hpart
    rw [if_pos hpart] at h ⊢
    rw [hc] at h ⊢
    match hflushes : c.flushes with
    | [] => simp [hflushes] at h
    | ok :: flushes =>
      simp only [hflushes] at h
      exact ⟨sends, flushes, hsends, by rw [h], rfl⟩
  · rw [if_neg hpart] at h
    cases h

/-- **A line** that is said begins with its first part, and ends right behind it when there is
no other. -/
theorem say_spec {parts : List Bytes} (h : say part parts c = .ok c') :
    c'.auth = c.auth ∧ c'.replies = c.replies ∧ c'.turns = c.turns ∧
      ∃ rest, c'.pending = c.pending ++ part ++ rest ∧ (parts = [] → rest = crlf) := by
  rw [say] at h
  split_ifs at h with hline
  rw [← Except.ok.inj h]
  rw [sendLine] at hline ⊢
  by_cases hfirst : (sendPart part c).1 = true
  · rw [if_pos hfirst] at hline ⊢
    obtain ⟨sends, -, hc⟩ := sendPart_spec hfirst
    obtain ⟨hauth, -, hreplies, hturns, rest, hpending⟩ := sendParts_kept parts (sendPart part c).2
    obtain ⟨sends', flushes, -, -, hc'⟩ := sendFlush_spec hline
    rw [hc']
    rw [hc] at hauth hreplies hturns hpending
    refine ⟨by rw [← hauth, ← hc], by rw [← hreplies, ← hc], by rw [← hturns, ← hc],
      rest ++ crlf, ?_, ?_⟩
    · show (sendParts parts (sendPart part c).2).pending ++ crlf = _
      rw [hc, hpending, List.append_assoc]
    · rintro rfl
      -- with no other parts nothing stands before the end
      have hnil : c.pending ++ part = c.pending ++ part ++ rest := hpending
      rw [List.self_eq_append_right.mp hnil]
      rfl
  · rw [if_neg hfirst] at hline
    cases hline

theorem getResponse_spec {resp : Reply} (h : getResponse c = .ok (resp, c')) :
    c'.auth = c.auth ∧ c'.pending = [] ∧ c'.turns = c.turns ++ [(c.pending, resp)] := by
  rw [getResponse] at h
  split at h
  · obtain ⟨rfl, rfl⟩ := Prod.mk.inj (Except.ok.inj h)
    exact ⟨rfl, rfl, rfl⟩
  · cases h

theorem bind_eq_ok {α β : Type} {x : Call LoginError α} {f : α → Call LoginError β} {b : β}
    (h : x >>= f = .ok b) : ∃ a, x = .ok a ∧ f a = .ok b := by
  cases x with
  | error e => cases h
  | ok a => exact ⟨a, rfl, h⟩

/-- **The greeting** leaves turns behind that are no authentication. -/
theorem initConnection_spec (hpending : c.pending = []) (hturns : c.turns = [])
    (h : initConnection domain c = .ok (true, c')) :
    c'.pending = [] ∧ ∃ resp₀ resp₁ rest, c'.turns = [([], resp₀), (ascii "EHLO " ++ rest, resp₁)] ∨
      ∃ resp₂ rest', c'.turns =
        [([], resp₀), (ascii "EHLO " ++ rest, resp₁), (ascii "HELO " ++ rest', resp₂)] := by
  obtain ⟨⟨resp₀, c₀⟩, hgreeting, h⟩ := bind_eq_ok h
  dsimp only at h
  obtain ⟨-, hpending₀, hturns₀⟩ := getResponse_spec hgreeting
  by_cases h220 : resp₀.code ≠ 220
  · rw [if_pos h220] at h
    cases h
  rw [if_neg h220] at h
  obtain ⟨c₁, hehlo, h⟩ := bind_eq_ok h
  obtain ⟨-, -, hturns₁, rest, hpending₁, -⟩ := say_spec hehlo
  obtain ⟨⟨resp₁, c₂⟩, hresp, h⟩ := bind_eq_ok h
  dsimp only at h
  obtain ⟨-, hpending₂, hturns₂⟩ := getResponse_spec hresp
  have htwo : c₂.turns = [([], resp₀), (ascii "EHLO " ++ rest, resp₁)] := by
    rw [hturns₂, hturns₁, hturns₀, hpending₁, hpending₀, hturns, hpending]
    rfl
  by_cases h250 : resp₁.code = 250
  · rw [if_pos h250] at h
    obtain ⟨auth, -, h⟩ := bind_eq_ok h
    obtain ⟨-, rfl⟩ := Prod.mk.inj (Except.ok.inj h)
    exact ⟨hpending₂, resp₀, resp₁, rest, .inl htwo⟩
  rw [if_neg h250] at h
  by_cases h502 : resp₁.code ≠ 502
  · rw [if_pos h502] at h
    cases h
  rw [if_neg h502] at h
  obtain ⟨c₃, hhelo, h⟩ := bind_eq_ok h
  obtain ⟨-, -, hturns₃, rest', hpending₃, -⟩ := say_spec hhelo
  obtain ⟨⟨resp₂, c₄⟩, hresp', h⟩ := bind_eq_ok h
  obtain ⟨-, hpending₄, hturns₄⟩ := getResponse_spec hresp'
  obtain ⟨-, rfl⟩ := Prod.mk.inj (Except.ok.inj h)
  refine ⟨hpending₄, resp₀, resp₁, rest, .inr ⟨resp₂, rest', ?_⟩⟩
  rw [hturns₄, hturns₃, htwo, hpending₃, hpending₂]
  rfl

/-- The turns of the greeting are none of an authentication. -/
theorem not_authenticated_of_greeting {resp₀ resp₁ : Reply} {rest : Bytes}
    {turns : List (Bytes × Reply)} {mechanism : AuthMechanism}
    (h : turns = [([], resp₀), (ascii "EHLO " ++ rest, resp₁)] ∨
      ∃ resp₂ rest', turns =
        [([], resp₀), (ascii "EHLO " ++ rest, resp₁), (ascii "HELO " ++ rest', resp₂)]) :
    ¬ Authenticated mechanism username passwd turns := by
  have hline : ∀ {a b d : Bytes} (e : Bytes), a ++ b = (d ++ e) ++ crlf → a.head? = some 69 ∨
      a.head? = some 72 → d.head? = some 65 → False := by
    intro a b d e heq ha hd
    obtain ⟨x, d, rfl⟩ := List.ne_nil_iff_exists_cons.mp (show d ≠ [] by rintro rfl; cases hd)
    obtain ⟨y, a, rfl⟩ := List.ne_nil_iff_exists_cons.mp (show a ≠ [] by
      rintro rfl
      rcases ha with ha | ha <;> cases ha)
    have hxy : y = x := (List.cons.inj heq).1
    simp only [List.head?_cons, Option.some.injEq] at ha hd
    rw [hxy, hd] at ha
    revert ha
    decide
  have hehlo : (ascii "EHLO ").head? = some 69 := by decide +kernel
  have hhelo : (ascii "HELO ").head? = some 72 := by decide +kernel
  have hplain : (ascii "AUTH PLAIN ").head? = some 65 := by decide +kernel
  intro hauth
  cases mechanism with
  | Plain =>
    obtain ⟨before, text, resp, -, hturns, -⟩ := hauth
    rcases h with h | ⟨resp₂, rest', h⟩
    · have hlast := congrArg List.getLast? (h.symm.trans hturns)
      simp only [List.getLast?_append, List.getLast?_singleton, Option.some_or] at hlast
      exact hline text (Prod.mk.inj (Option.some.inj hlast)).1 (.inl hehlo) hplain
    · have hlast := congrArg List.getLast? (h.symm.trans hturns)
      simp only [List.getLast?_append, List.getLast?_singleton, Option.some_or] at hlast
      exact hline text (Prod.mk.inj (Option.some.inj hlast)).1 (.inr hhelo) hplain
  | Login =>
    obtain ⟨before, b64Username, b64Passwd, resp₃, resp₄, resp, -, -, hturns, -⟩ := hauth
    rcases h with h | ⟨resp₂, rest', h⟩
    · have hlen := congrArg List.length (h.symm.trans hturns)
      simp only [List.length_append, List.length_cons, List.length_nil] at hlen
      omega
    · have hlen := congrArg List.length (h.symm.trans hturns)
      simp only [List.length_append, List.length_cons, List.length_nil] at hlen
      obtain rfl : before = [] := List.length_eq_zero_iff.mp (by omega)
      have hfirst := (List.cons.inj (h.symm.trans hturns)).1
      have hnil := congrArg List.length (Prod.mk.inj hfirst).1
      rw [List.length_append, List.length_nil] at hnil
      have hcrlf : crlf.length = 2 := rfl
      omega
  | _ => exact hauth

theorem authLogin_spec (hpending : c.pending = [])
    (h : authLogin username passwd c = .ok (true, c')) :
    Authenticated .Login username passwd c'.turns := by
  rw [authLogin] at h
  cases huser : Base64.encode username with
  | none =>
    rw [huser] at h
    cases h
  | some b64Username =>
    cases hpasswd : Base64.encode passwd with
    | none =>
      rw [huser, hpasswd] at h
      cases h
    | some b64Passwd =>
      rw [huser, hpasswd] at h
      obtain ⟨c₀, hsay₀, h⟩ := bind_eq_ok h
      obtain ⟨⟨resp₀, c₁⟩, hresp₀, h⟩ := bind_eq_ok h
      dsimp only at h
      by_cases h334 : resp₀.code ≠ 334
      · rw [if_pos h334] at h
        cases h
      rw [if_neg h334] at h
      obtain ⟨c₂, hsay₁, h⟩ := bind_eq_ok h
      obtain ⟨⟨resp₁, c₃⟩, hresp₁, h⟩ := bind_eq_ok h
      dsimp only at h
      by_cases h334' : resp₁.code ≠ 334
      · rw [if_pos h334'] at h
        cases h
      rw [if_neg h334'] at h
      obtain ⟨c₄, hsay₂, h⟩ := bind_eq_ok h
      obtain ⟨⟨resp, c₅⟩, hresp, h⟩ := bind_eq_ok h
      dsimp only at h
      obtain ⟨h235, rfl⟩ := Prod.mk.inj (Except.ok.inj h)
      obtain ⟨-, -, hturns₀, rest₀, hpending₀, hrest₀⟩ := say_spec hsay₀
      obtain ⟨-, hpending₁, hturns₁⟩ := getResponse_spec hresp₀
      obtain ⟨-, -, hturns₂, rest₂, hpending₂, hrest₂⟩ := say_spec hsay₁
      obtain ⟨-, hpending₃, hturns₃⟩ := getResponse_spec hresp₁
      obtain ⟨-, -, hturns₄, rest₄, hpending₄, hrest₄⟩ := say_spec hsay₂
      obtain ⟨-, -, hturns₅⟩ := getResponse_spec hresp
      refine ⟨c.turns, b64Username, b64Passwd, resp₀, resp₁, resp, huser, hpasswd, ?_, by simpa using h235⟩
      rw [hturns₅, hturns₄, hturns₃, hturns₂, hturns₁, hturns₀, hpending₄, hpending₃, hpending₂,
        hpending₁, hpending₀, hpending, hrest₀ rfl, hrest₂ rfl, hrest₄ rfl]
      simp

/-- **What a PLAIN exchange leaves behind**: however much of the credentials was written, the
reply decides. -/
theorem authPlain_iff :
    authPlain username passwd c = .ok (true, c') ↔
      ∃ authString taken sends flushes resp replies, plainResponse username passwd = some authString ∧
        c.sends = some 11 :: taken :: some 2 :: sends ∧ c.flushes = true :: flushes ∧
        c.replies = some resp :: replies ∧ resp.code = 235 ∧
        c' = { c with
          sends := sends
          flushes := flushes
          replies := replies
          pending := []
          turns := c.turns ++
            [(c.pending ++ ascii "AUTH PLAIN " ++ authString.take (taken.getD 0) ++ crlf, resp)] } := by
  have h11 : (ascii "AUTH PLAIN ").length = 11 := by decide +kernel
  rw [authPlain]
  cases htext : plainResponse username passwd with
  | none => exact iff_of_false (by rintro ⟨⟩) (by rintro ⟨_, _, _, _, _, _, ⟨⟩, _⟩)
  | some authString =>
    constructor
    · intro h
      obtain ⟨c₀, hsay, h⟩ := bind_eq_ok h
      obtain ⟨⟨resp, c₁⟩, hresp, h⟩ := bind_eq_ok h
      obtain ⟨h235, rfl⟩ := Prod.mk.inj (Except.ok.inj h)
      rw [say] at hsay
      split_ifs at hsay with hline
      rw [← Except.ok.inj hsay] at hresp
      rw [sendLine] at hline hresp
      by_cases hfirst : (sendPart (ascii "AUTH PLAIN ") c).1 = true
      · rw [if_pos hfirst] at hline hresp
        obtain ⟨sends₀, hsends₀, hc₀⟩ := sendPart_spec hfirst
        obtain ⟨sends, flushes, hsends, hflushes, hc⟩ := sendFlush_spec hline
        rw [hc] at hresp
        rw [hc₀] at hsends hflushes hresp
        match sends₀, hsends₀ with
        | [], _ =>
          rw [sendParts, sendPart] at hsends
          cases hsends
        | taken :: sends₁, hsends₀ =>
          have hparts := sendParts_one (p := authString)
            (c := { c with sends := taken :: sends₁, pending := c.pending ++ ascii "AUTH PLAIN " }) rfl
          rw [hparts] at hsends hflushes hresp
          obtain rfl : sends₁ = some 2 :: sends := hsends
          have hflushes : c.flushes = true :: flushes := hflushes
          rw [getResponse] at hresp
          match hreplies : c.replies with
          | [] => simp [hreplies] at hresp
          | none :: replies => simp [hreplies] at hresp
          | some resp' :: replies =>
            simp only [hreplies] at hresp
            obtain ⟨rfl, rfl⟩ := Prod.mk.inj (Except.ok.inj hresp)
            exact ⟨authString, taken, sends, flushes, resp', replies, rfl, h11 ▸ hsends₀, hflushes, rfl,
              by simpa using h235, rfl⟩
      · rw [if_neg hfirst] at hline
        cases hline
    · rintro ⟨authString', taken, sends, flushes, resp, replies, htext', hsends, hflushes, hreplies,
        h235, rfl⟩
      obtain rfl := Option.some.inj htext'
      have hfirst := sendPart_of_taken (p := ascii "AUTH PLAIN ") (c := c)
        (l := taken :: some 2 :: sends) (by rw [hsends, h11])
      have hparts := sendParts_one (p := authString) (c := { c with
        sends := taken :: some 2 :: sends, pending := c.pending ++ ascii "AUTH PLAIN " }) rfl
      have hflush := sendPart_of_taken (p := crlf) (c := { c with
        sends := some 2 :: sends
        pending := c.pending ++ ascii "AUTH PLAIN " ++ authString.take (taken.getD 0) }) rfl
      have hsay : say (ascii "AUTH PLAIN ") [authString] c = .ok { c with
          sends := sends
          flushes := flushes
          pending := c.pending ++ ascii "AUTH PLAIN " ++ authString.take (taken.getD 0) ++ crlf } := by
        rw [say, sendLine, hfirst, if_pos rfl, hparts, sendFlush, hflush, if_pos rfl]
        simp only [hflushes, if_true]
      show (say (ascii "AUTH PLAIN ") [authString] c >>= _) = _
      rw [hsay]
      simp only [bind, Except.bind, getResponse, hreplies, h235]
      rfl

/-- A PLAIN exchange that is accepted is one with the credentials unless they were cut. -/
theorem authPlain_authenticated_iff (hpending : c.pending = []) :
    (∀ c', authPlain username passwd c = .ok (true, c') →
        Authenticated .Plain username passwd c'.turns) ↔
      ∀ authString, plainResponse username passwd = some authString → ¬ Cut c authString := by
  constructor
  · rintro h authString htext ⟨taken, sends, flushes, resp, replies, hsends, hcut, hflushes, hreplies,
      h235⟩
    obtain ⟨before, authString', resp', htext', hturns, -⟩ := h _ (authPlain_iff.mpr ⟨authString, taken,
      sends, flushes, resp, replies, htext, hsends, hflushes, hreplies, h235, rfl⟩)
    obtain rfl := Option.some.inj (htext.symm.trans htext')
    obtain ⟨-, hlast⟩ := List.append_inj' hturns rfl
    have hlen := congrArg List.length (Prod.mk.inj (List.cons.inj hlast).1).1
    simp only [hpending, List.length_append, List.length_take, List.length_nil] at hlen
    omega
  · intro hcut c' h
    obtain ⟨authString, taken, sends, flushes, resp, replies, htext, hsends, hflushes, hreplies, h235,
      rfl⟩ := authPlain_iff.mp h
    have hfull : authString.length ≤ taken.getD 0 := not_lt.mp fun hlt => hcut authString htext
      ⟨taken, sends, flushes, resp, replies, hsends, hlt, hflushes, hreplies, h235⟩
    refine ⟨c.turns, authString, resp, htext, ?_, h235⟩
    rw [hpending, List.take_of_length_le hfull, List.nil_append]

theorem deferred_bind_iff (x : Call LoginError (Bool × Client)) :
    (x >>= fun r => pure (deferred r)) = .ok (true, c') ↔ x = .ok (true, c') := by
  rcases x with e | ⟨status, c⟩
  · exact iff_of_false (by rintro ⟨⟩) (by rintro ⟨⟩)
  · cases status with
    | false => exact iff_of_false (by rintro ⟨⟩) (by rintro ⟨⟩)
    | true => exact Iff.rfl

/-- A server without `AUTH`. -/
def anonymous : Client where
  sends := [some 5, some 9, some 2]
  flushes := [true]
  replies := [some ⟨220, [ascii "mail"], false⟩, some ⟨250, [ascii "mail", ascii "SIZE 1000"], false⟩]

end Client

end Smtp
end Suil
