/-
Runs of an SMTP session.

* `effect_of_step` — all that a step can do to a session (`Effect`);
* `sound_of_run` — in a run that avoids three kinds of step, the mail states are
  reached only after a 235 reply, every 235 reply leads to `ExpectMail`, and
  `ExpectData` is entered with a valid sender and a recipient.

The three kinds (`Guarded`): a PLAIN login with an initial response, which is
answered 235 in the old state; HELO, EHLO and RSET after MAIL, which drop the
sender and keep the state; DATA before any recipient.
-/
import Suil.Lib.Runs
import Suil.SmtpContext

open Runs

namespace Suil

namespace Smtp

section Steps

variable (decode : Bytes → Option Bytes)

/-- The machine: an exception leaves the session as it was and sends no reply,
and there is no next step after the process died. -/
def step (s : Session) (i : Input) : Option (Option Reply × Session) :=
  match input decode s i with
  | .ok x => some x
  | .error (.raised _) => some (none, s)
  | .error .crash => none

/-- `authPlain` accepts the string. -/
def plainAccepted (plain : Bytes) : Bool :=
  match decode plain with
  | some userPasswd =>
    userPasswd ≠ [] && (plainParts userPasswd).1 ≠ [] && (plainParts userPasswd).2 ≠ []
  | none => false

/-- AUTH with an initial response for PLAIN that is accepted. -/
def plainLogin (arg : Bytes) : Bool :=
  parseAuthMechanism (splitAuth arg).1 = some .Plain && (splitAuth arg).2 ≠ [] &&
    plainAccepted decode (splitAuth arg).2

/-- HELO and EHLO with a domain, and RSET. -/
def clears : Input → Bool
  | .command .Hello arg => arg ≠ []
  | .command .EHello arg => arg ≠ []
  | .command .Reset _ => true
  | _ => false

/-- DATA without an argument. -/
def startsData : Input → Bool
  | .command .Data arg => arg = []
  | .command .BData arg => arg = []
  | _ => false

/-- A reply with the code 235. -/
def Accepts (r : Option Reply) : Prop := ∃ reply, r = some reply ∧ reply.code = 235

/-- What a step can do to a session. -/
inductive Effect (s : Session) : Input → Option Reply → Session → Prop where
  /-- Nothing, but for a recipient. -/
  | same {i r s'} (hr : ¬Accepts r) (hstate : s'.state = s.state) (hsender : s'.sender = s.sender) :
    Effect s i r s'
  /-- HELO, EHLO and RSET drop the sender and the recipients. -/
  | cleared {i r s'} (hr : ¬Accepts r) (hi : clears i = true) (hstate : s'.state = s.state) :
    Effect s i r s'
  /-- The session is greeted, asked to authenticate or closed. -/
  | outside {i r s'} (hr : ¬Accepts r)
    (hstate : s'.state ∉ [State.ExpectMail, .ExpectRecipient, .ExpectData]) : Effect s i r s'
  /-- AUTH with an initial response is accepted. -/
  | plain {arg r s'} (hs : s.state = .ExpectAuth) (hauth : plainLogin decode arg = true)
    (hstate : s'.state = s.state) : Effect s (.command .Auth arg) r s'
  /-- A password is accepted. -/
  | loggedIn {l r s'} (hr : Accepts r) (hstate : s'.state = .ExpectMail) : Effect s (.line l) r s'
  /-- MAIL is accepted. -/
  | mail {arg r s'} (hr : ¬Accepts r) (hs : s.state = .ExpectMail)
    (hstate : s'.state = .ExpectRecipient) (hne : s'.sender ≠ [])
    (hvalid : validate s'.sender = true) : Effect s (.command .MailFrom arg) r s'
  /-- DATA is accepted. -/
  | dataStart {i r s'} (hr : ¬Accepts r) (hi : startsData i = true)
    (hs : s.state = .ExpectRecipient) (hstate : s'.state = .ExpectData) : Effect s i r s'
  /-- The message is complete. -/
  | dataEnd {d r s'} (hr : ¬Accepts r) (hs : s.state = .ExpectData)
    (hstate : s'.state = .ExpectMail) : Effect s (.data d) r s'

variable {decode}

theorem not_accepts_none : ¬Accepts none := by
  rintro ⟨reply, h, -⟩
  exact absurd h (by simp)

theorem not_accepts_of_code {reply : Reply} (h : reply.code ≠ 235) : ¬Accepts (some reply) := by
  rintro ⟨r, hr, hcode⟩
  rw [Option.some_inj] at hr
  exact h (hr ▸ hcode)

theorem not_accepts_code {reply : Reply} (code : ℕ) (h : reply.code = code) (hne : code ≠ 235) :
    ¬Accepts (some reply) := not_accepts_of_code (h ▸ hne)

theorem not_accepts_unexpected (st : State) : ¬Accepts (some (unexpected st)) := by
  refine not_accepts_of_code ?_
  cases st <;> decide

theorem authPlain_code {plain : Bytes} (h : (authPlain decode plain).code = 235) :
    plainAccepted decode plain = true := by
  rw [authPlain] at h
  rcases hd : decode plain with _ | u
  · simp [hd, Reply.create] at h
  · simp only [hd] at h
    split_ifs at h with h₁ h₂
    · simp [Reply.create] at h
    · simp [Reply.create] at h
    · rw [not_or] at h₂
      simp [plainAccepted, hd, h₁, h₂.1, h₂.2]

/-! ### One lemma for each command -/

theorem hello_effect (s : Session) (arg : Bytes) (isEhlo : Bool) {i : Input}
    (hi : i = .command (if isEhlo then .EHello else .Hello) arg) :
    Effect decode s i (some (hello s arg isEhlo).1) (hello s arg isEhlo).2 := by
  have hclears : arg ≠ [] → clears i = true := by
    intro harg
    subst hi
    cases isEhlo <;> simpa [clears] using harg
  rw [hello]
  by_cases harg : arg = []
  · rw [if_pos harg]
    exact .outside (not_accepts_code 501 rfl (by decide)) (by simp)
  · rw [if_neg harg]
    have hcode : ∀ welcome : Reply, welcome.code = 250 → ¬Accepts (some
        (if isEhlo then { welcome with lines := welcome.lines ++ extensions } else welcome)) := by
      intro welcome hw
      cases isEhlo
      · exact not_accepts_code 250 hw (by decide)
      · exact not_accepts_code 250 hw (by decide)
    by_cases hs : s.state = .ExpectHello
    · exact .outside (hcode _ rfl) (by simp [hs])
    · exact .cleared (hcode _ rfl) (hclears harg) (by simp [hs])

theorem protocolAuth_effect (decode : Bytes → Option Bytes) {s : Session} {arg : Bytes} {mechanism : AuthMechanism}
    (hs : s.state = .ExpectAuth) (hmech : parseAuthMechanism (splitAuth arg).1 = some mechanism) :
    Effect decode s (.command .Auth arg)
      (some (protocolAuth decode { s with mechanism := mechanism } (splitAuth arg).2).1)
      (protocolAuth decode { s with mechanism := mechanism } (splitAuth arg).2).2 := by
  cases mechanism with
  | Plain =>
    rw [protocolAuth]
    simp only
    split_ifs with harg
    · by_cases hcode : (authPlain decode (splitAuth arg).2).code = 235
      · exact .plain hs (by simp [plainLogin, hmech, harg, authPlain_code hcode]) rfl
      · exact .same (not_accepts_of_code hcode) rfl rfl
    · exact .outside (not_accepts_code 334 rfl (by decide)) (by simp)
  | Login =>
    rw [protocolAuth]
    simp only
    split_ifs with harg
    · exact .outside (not_accepts_code 334 rfl (by decide)) (by simp)
    · exact .outside (not_accepts_code 334 rfl (by decide)) (by simp)
  | DigestMD5 | MD5 | CramMD5 | PlainToken | OAuthBearer | Unknown =>
    exact .same (not_accepts_code 504 rfl (by decide)) rfl rfl

theorem startAuth_effect {s s' : Session} {arg : Bytes} {r : Reply}
    (h : startAuth decode s arg = .ok (r, s')) :
    Effect decode s (.command .Auth arg) (some r) s' := by
  rw [startAuth] at h
  split_ifs at h with hs harg
  · obtain ⟨rfl, rfl⟩ := Prod.mk.inj (Except.ok.inj h)
    exact .same (not_accepts_unexpected _) rfl rfl
  · obtain ⟨rfl, rfl⟩ := Prod.mk.inj (Except.ok.inj h)
    exact .same (not_accepts_code 501 rfl (by decide)) rfl rfl
  · rw [not_not] at hs
    rcases hm : parseAuthMechanism (splitAuth arg).1 with _ | mechanism
    · simp [hm] at h
    · simp only [hm] at h
      have heff := protocolAuth_effect decode hs hm
      rwa [Except.ok.inj h] at heff

theorem quit_effect (s : Session) (arg : Bytes) :
    Effect decode s (.command .Quit arg) (some (quit s arg).1) (quit s arg).2 := by
  rw [quit]
  split_ifs with harg
  · exact .same (not_accepts_code 501 rfl (by decide)) rfl rfl
  · exact .outside (not_accepts_code 221 rfl (by decide)) (by simp)

theorem startEmail_effect (s : Session) (line : Bytes) :
    Effect decode s (.command .MailFrom line) (some (startEmail s line).1) (startEmail s line).2 := by
  rw [startEmail]
  split_ifs with hs
  · exact .same (not_accepts_unexpected _) rfl rfl
  · rw [not_not] at hs
    rcases hx : parseMailFrom line with ⟨size, addr⟩
    simp only
    split_ifs with hsize haddr hcode
    · exact .same (not_accepts_code 553 rfl (by decide)) rfl rfl
    · exact .same (not_accepts_code 555 rfl (by decide)) rfl rfl
    · obtain ⟨hne, hvalid⟩ := parseMailFrom_spec hx (by omega)
      exact .mail (not_accepts_code 250 rfl (by decide)) hs rfl hne hvalid
    · exact absurd rfl hcode

theorem addRecipient_effect (s : Session) (line : Bytes) {i : Input} :
    Effect decode s i (some (addRecipient s line).1) (addRecipient s line).2 := by
  rw [addRecipient]
  split_ifs with hs
  · exact .same (not_accepts_unexpected _) rfl rfl
  · simp only
    split_ifs with hrest
    · exact .same (not_accepts_code 553 rfl (by decide)) rfl rfl
    · exact .same (not_accepts_code 250 rfl (by decide)) rfl rfl

theorem startData_effect (s : Session) (arg : Bytes) {i : Input}
    (hi : arg = [] → startsData i = true) :
    Effect decode s i (some (startData s arg).1) (startData s arg).2 := by
  rw [startData]
  split_ifs with harg hs
  · exact .same (not_accepts_code 501 rfl (by decide)) rfl rfl
  · exact .same (not_accepts_unexpected _) rfl rfl
  · rw [not_not] at hs harg
    have hstart : onDataStart s = .create 354 "OK send data terminated by CRLF.CRLF" := if_pos hs
    simp only [hstart]
    exact .dataStart (not_accepts_code 354 rfl (by decide)) (hi harg) hs rfl

theorem onLine_effect (s : Session) (l : Bytes) :
    Effect decode s (.line l) (some (onLine decode s l).1) (onLine decode s l).2 := by
  rw [onLine]
  split_ifs with hs hs'
  · exact .outside (not_accepts_code 334 rfl (by decide)) (by simp)
  · simp only
    by_cases hcode : (authenticateUser decode s.mechanism s.arg0 l).code = 235
    · exact .loggedIn ⟨_, rfl, hcode⟩ (by simp [hcode])
    · exact .outside (not_accepts_of_code hcode) (by simp [hcode])
  · exact .same (not_accepts_code 502 rfl (by decide)) rfl rfl

theorem onData_effect (s : Session) (d : Bytes) :
    Effect decode s (.data d) (onData s d).1 (onData s d).2 := by
  rw [onData]
  split_ifs with hs
  · exact .same (not_accepts_unexpected _) rfl rfl
  · rw [not_not] at hs
    simp only
    split_ifs with hdone
    · exact .dataEnd (not_accepts_code 250 rfl (by decide)) hs rfl
    · exact .same not_accepts_none rfl rfl

/-- **All that a step can do.** -/
theorem effect_of_step {s s' : Session} {i : Input} {r : Option Reply}
    (h : step decode s i = some (r, s')) : Effect decode s i r s' := by
  rw [step] at h
  rcases hin : input decode s i with (e | _) | x
  · simp only [hin, Option.some.injEq, Prod.mk.injEq] at h
    obtain ⟨rfl, rfl⟩ := h
    exact .same not_accepts_none rfl rfl
  · simp [hin] at h
  · simp only [hin, Option.some.injEq] at h
    subst h
    cases i with
    | line l =>
      obtain ⟨rfl, rfl⟩ := Prod.mk.inj (Except.ok.inj hin)
      exact onLine_effect s l
    | data d =>
      obtain ⟨rfl, rfl⟩ := Prod.mk.inj (Except.ok.inj hin)
      exact onData_effect s d
    | command cmd arg =>
      rcases hcmd : onCommand decode s cmd arg with e | ⟨reply, s''⟩
      · simp [input, hcmd, Except.map] at hin
      simp only [input, hcmd, Except.map, Except.ok.injEq, Prod.mk.injEq] at hin
      obtain ⟨rfl, rfl⟩ := hin
      have hpair : ∀ {x : Reply × Session}, (Except.ok x : Call Thrown (Reply × Session)) = .ok (reply, s'') →
          Effect decode s (.command cmd arg) (some x.1) x.2 →
          Effect decode s (.command cmd arg) (some reply) s'' := by
        intro x hx heff
        rwa [Except.ok.inj hx] at heff
      cases cmd with
      | Hello => exact hpair hcmd (hello_effect s arg false rfl)
      | EHello => exact hpair hcmd (hello_effect s arg true rfl)
      | MailFrom => exact hpair hcmd (startEmail_effect s arg)
      | RcptTo => exact hpair hcmd (addRecipient_effect s arg)
      | Data => exact hpair hcmd (startData_effect s arg (by simp [startsData]))
      | BData => exact hpair hcmd (startData_effect s arg (by simp [startsData]))
      | Auth => exact startAuth_effect hcmd
      | Quit => exact hpair hcmd (quit_effect s arg)
      | Help => exact absurd hcmd (by simp [onCommand])
      | Reset =>
        exact hpair hcmd
          (.cleared (not_accepts_code 250 rfl (by decide)) rfl rfl)
      | Unrecognized => exact hpair hcmd (.same (not_accepts_code 500 rfl (by decide)) rfl rfl)
      | Noop => exact hpair hcmd (.same (not_accepts_code 250 rfl (by decide)) rfl rfl)
      | Verify | Expn | ATrn | ETrn | StartTls =>
        exact hpair hcmd (.same (not_accepts_code 502 rfl (by decide)) rfl rfl)

end Steps

section Runs

variable (decode : Bytes → Option Bytes)

/-- The states that only an authenticated session is meant to reach. -/
def mailStates : List State := [.ExpectMail, .ExpectRecipient, .ExpectData]

/-- The steps that stay clear of the three defects. -/
def guarded (s : Session) (i : Input) : Bool :=
  match s.state, i with
  | .ExpectAuth, .command .Auth arg => !plainLogin decode arg
  | .ExpectRecipient, i => !clears i && (!startsData i || s.recipients ≠ [])
  | _, _ => true

/-- What is meant to hold of every move, given the moves before it. -/
structure Sound (pre : List (Move Session Input (Option Reply)))
    (m : Move Session Input (Option Reply)) : Prop where
  authenticated : m.after.state ∈ mailStates → ∃ x ∈ pre ++ [m], Accepts x.output
  advances : Accepts m.output → m.after.state = .ExpectMail
  complete : m.after.state = .ExpectData → m.before.state ≠ .ExpectData →
    m.before.sender ≠ [] ∧ validate m.before.sender = true ∧ m.before.recipients ≠ []

variable {decode}

/-- The invariant: an authenticated session in the mail states, and a valid
sender while recipients are expected. -/
def Authenticated (ms : List (Move Session Input (Option Reply))) (s : Session) : Prop :=
  (s.state ∈ mailStates → ∃ x ∈ ms, Accepts x.output) ∧
    (s.state = .ExpectRecipient → s.sender ≠ [] ∧ validate s.sender = true)

theorem guarded_auth {s : Session} {arg : Bytes} (hs : s.state = .ExpectAuth)
    (h : guarded decode s (.command .Auth arg) = true) : plainLogin decode arg = false := by
  simpa [guarded, hs] using h

theorem guarded_recipient {s : Session} {i : Input} (hs : s.state = .ExpectRecipient)
    (h : guarded decode s i = true) :
    clears i = false ∧ (startsData i = true → s.recipients ≠ []) := by
  simp only [guarded, hs, Bool.and_eq_true, Bool.not_eq_true', Bool.or_eq_true,
    decide_eq_true_eq] at h
  refine ⟨h.1, fun hi => h.2.resolve_left ?_⟩
  simp [hi]

/-- What one step preserves. -/
theorem authenticated_move {ms : List (Move Session Input (Option Reply))} {s s' : Session}
    {i : Input} {r : Option Reply} (h : Authenticated ms s) (hG : guarded decode s i = true)
    (hstep : step decode s i = some (r, s')) : Authenticated (ms ++ [⟨s, i, r, s'⟩]) s' := by
  have hold : s.state ∈ mailStates → ∃ x ∈ ms ++ [⟨s, i, r, s'⟩], Accepts x.output := by
    intro hs
    obtain ⟨x, hx, hacc⟩ := h.1 hs
    exact ⟨x, List.mem_append_left _ hx, hacc⟩
  cases effect_of_step hstep with
  | same hr hstate hsender =>
    rw [Authenticated, hstate, hsender]
    exact ⟨hold, h.2⟩
  | cleared hr hi hstate =>
    rw [Authenticated, hstate]
    refine ⟨hold, fun hs => ?_⟩
    rw [(guarded_recipient hs hG).1] at hi
    exact absurd hi (by decide)
  | outside hr hstate =>
    refine ⟨fun hs => absurd hs hstate, fun hs => absurd ?_ hstate⟩
    rw [hs]
    decide
  | plain hs hauth hstate =>
    rw [guarded_auth hs hG] at hauth
    exact absurd hauth (by decide)
  | loggedIn hr hstate =>
    refine ⟨fun _ => ⟨_, List.mem_append_right _ (List.mem_singleton.mpr rfl), hr⟩, fun hs => ?_⟩
    rw [hstate] at hs
    exact absurd hs (by decide)
  | mail hr hs hstate hne hvalid =>
    exact ⟨fun _ => hold (by rw [hs]; decide), fun _ => ⟨hne, hvalid⟩⟩
  | dataStart hr hi hs hstate =>
    refine ⟨fun _ => hold (by rw [hs]; decide), fun hs' => ?_⟩
    rw [hstate] at hs'
    exact absurd hs' (by decide)
  | dataEnd hr hs hstate =>
    refine ⟨fun _ => hold (by rw [hs]; decide), fun hs' => ?_⟩
    rw [hstate] at hs'
    exact absurd hs' (by decide)

/-- What a whole run preserves. -/
theorem authenticated_of_run {ms : List (Move Session Input (Option Reply))} {t : Session}
    (h : Run (step decode) {} ms t) (hG : ∀ m ∈ ms, guarded decode m.before m.input = true) :
    Authenticated ms t := by
  refine h.rule ⟨fun hs => ?_, fun hs => ?_⟩
    (fun ms u i o v hJ hi hstep => authenticated_move hJ hi hstep) hG
  · exact absurd hs (by decide)
  · exact absurd hs (by decide)

/-- **Every move of a guarded run is sound.** -/
theorem sound_of_run {ms : List (Move Session Input (Option Reply))} {t : Session}
    (h : Run (step decode) {} ms t) (hG : ∀ m ∈ ms, guarded decode m.before m.input = true) :
    ∀ pre m post, ms = pre ++ m :: post → Sound pre m := by
  rintro pre ⟨s, i, r, s'⟩ post rfl
  obtain ⟨hpre, hstep⟩ := h.at_move
  have hinv : Authenticated pre s :=
    authenticated_of_run hpre fun x hx => hG x (List.mem_append_left _ hx)
  have hGm : guarded decode s i = true := hG ⟨s, i, r, s'⟩ (by simp)
  refine ⟨(authenticated_move hinv hGm hstep).1, fun (hacc : Accepts r) => ?_,
    fun (hdata : s'.state = .ExpectData) (hne : s.state ≠ .ExpectData) => ?_⟩
  · cases effect_of_step hstep with
    | same hr | cleared hr | outside hr | mail hr | dataStart hr | dataEnd hr => exact absurd hacc hr
    | plain hs hauth =>
      rw [guarded_auth hs hGm] at hauth
      exact absurd hauth (by decide)
    | loggedIn hr hstate => exact hstate
  · cases effect_of_step hstep with
    | same hr hstate => exact absurd (hstate ▸ hdata) hne
    | cleared hr hi hstate => exact absurd (hstate ▸ hdata) hne
    | outside hr hstate => exact absurd (by rw [hdata]; decide) hstate
    | plain hs hauth hstate => exact absurd (hstate ▸ hdata) hne
    | loggedIn hr hstate => exact absurd (hstate.symm.trans hdata) (by decide)
    | mail hr hs hstate => exact absurd (hstate.symm.trans hdata) (by decide)
    | dataStart hr hi hs hstate =>
      obtain ⟨hsender, hvalid⟩ := hinv.2 hs
      exact ⟨hsender, hvalid, (guarded_recipient hs hGm).2 hi⟩
    | dataEnd hr hs hstate => exact absurd (hstate.symm.trans hdata) (by decide)

/-! ### Two sessions -/

/-- `Base64::decode` on the one string the sessions below send. -/
def decodeUser (s : Bytes) : Option Bytes :=
  if s = ascii "AGEAYmM=" then some [0, 97, 0, 98, 99] else none

/-- A session that delivers a message. -/
def delivery : List Input :=
  [.command .EHello (ascii "a"), .command .Auth (ascii "PLAIN "), .line (ascii "AGEAYmM="),
    .command .MailFrom (ascii ":<a@b.co>"), .command .RcptTo (ascii ":<c@b.co>"),
    .command .Data [], .data [13, 10, 46, 13, 10]]

theorem sound_of_run_delivery : ∃ t, Run (step decodeUser) {} (moves (step decodeUser) {} delivery) t ∧
    ∀ pre m post, moves (step decodeUser) {} delivery = pre ++ m :: post → Sound pre m := by
  have ht := run_final (step decodeUser) {} delivery
  exact ⟨_, ht, sound_of_run ht (by decide)⟩

/-- A session that is answered 235 and stays where it was. -/
def initialResponse : List Input :=
  [.command .EHello (ascii "a"), .command .Auth (ascii "PLAIN AGEAYmM=")]

/-- A session that sends DATA without a recipient. -/
def noRecipient : List Input :=
  [.command .EHello (ascii "a"), .command .Auth (ascii "PLAIN "), .line (ascii "AGEAYmM="),
    .command .MailFrom (ascii ":<a@b.co>"), .command .Data []]

/-- A session that forgets its sender between MAIL and DATA. -/
def noSender : List Input :=
  [.command .EHello (ascii "a"), .command .Auth (ascii "PLAIN "), .line (ascii "AGEAYmM="),
    .command .MailFrom (ascii ":<a@b.co>"), .command .Reset [], .command .RcptTo (ascii ":<c@b.co>"),
    .command .Data []]

/-- A session in which some move is not sound. -/
def Unsound (is : List Input) : Prop :=
  ∃ t, Run (step decodeUser) {} (moves (step decodeUser) {} is) t ∧
    ¬∀ pre m post, moves (step decodeUser) {} is = pre ++ m :: post → Sound pre m

theorem unsound_of_last {is : List Input} (hne : moves (step decodeUser) {} is ≠ [])
    (h : ¬Sound (moves (step decodeUser) {} is).dropLast
      ((moves (step decodeUser) {} is).getLast hne)) : Unsound is := by
  have ht := run_final (step decodeUser) {} is
  refine ⟨_, ht, fun hall => h (hall _ _ [] ?_)⟩
  exact (List.dropLast_append_getLast hne).symm

/-- The last move of each of the three sessions is not sound. -/
theorem unsound_sessions : Unsound initialResponse ∧ Unsound noRecipient ∧ Unsound noSender := by
  refine ⟨unsound_of_last (List.ne_nil_of_length_pos (by decide)) fun h => ?_,
    unsound_of_last (List.ne_nil_of_length_pos (by decide)) fun h => ?_,
    unsound_of_last (List.ne_nil_of_length_pos (by decide)) fun h => ?_⟩
  · exact absurd (h.advances ⟨_, rfl, rfl⟩) (by decide)
  · exact absurd (h.complete (by decide) (by decide)).2.2 (by decide)
  · exact absurd (h.complete (by decide) (by decide)).1 (by decide)

end Runs

end Smtp

end Suil
