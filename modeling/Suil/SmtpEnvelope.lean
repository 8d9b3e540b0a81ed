/-
The sender and the recipients of a message.

The session keeps them through MAIL, RCPT and DATA until `onDataTerm` is called.  They are
emptied by HELO, EHLO, RSET and QUIT only, which leave the state as it is, and not by the
end of a message; a line of RCPT without a valid address adds the empty one.

* `envelope_of_step` — what a step does to the sender and the recipients (`Envelope`);
* `opened_of_run` — a session that waits for recipients or data had its MAIL accepted, and
  holds what came with it and since;
* `findsEnvelope_iff` — for which transactions `onDataTerm` finds the sender and the
  recipients that were accepted.
-/
import Suil.SmtpRuns

open Runs

namespace Suil

namespace Smtp

/-- The address of an accepted MAIL. -/
def mailAddress : Input → Option Reply → Option Bytes
  | .command .MailFrom arg, some reply =>
    if reply.code = 250 then some (parseMailFrom arg).2 else none
  | _, _ => none

/-- The address of an accepted RCPT. -/
def rcptAddress : Input → Option Reply → Option Bytes
  | .command .RcptTo arg, some reply => if reply.code = 250 then some (extractEmail arg).2 else none
  | _, _ => none

/-- The states between an accepted MAIL and the end of the message. -/
def openStates : List State := [.ExpectRecipient, .ExpectData]

/-- What a step does to the sender and the recipients. -/
inductive Envelope (s : Session) (i : Input) (r : Option Reply) (s' : Session) : Prop where
  /-- Both are kept. -/
  | kept (hmail : mailAddress i r = none) (hrcpt : rcptAddress i r = none)
    (hclears : clears i = false) (hstate : s'.state ∈ openStates → s.state ∈ openStates)
    (hsender : s'.sender = s.sender) (hrecipients : s'.recipients = s.recipients)
  /-- There is no message under way. -/
  | outside (hstate : s'.state ∉ openStates)
  /-- HELO, EHLO and RSET drop both. -/
  | cleared (hmail : mailAddress i r = none) (hrcpt : rcptAddress i r = none)
    (hclears : clears i = true) (hstate : s'.state = s.state) (hsender : s'.sender = [])
  /-- MAIL is accepted. -/
  | mail (hmail : mailAddress i r = some s'.sender) (hs : s.state = .ExpectMail)
    (hstate : s'.state = .ExpectRecipient) (hrecipients : s'.recipients = s.recipients)
    (hvalid : s'.sender ≠ [] ∧ validate s'.sender = true)
  /-- RCPT is accepted. -/
  | rcpt {addr} (hmail : mailAddress i r = none) (hrcpt : rcptAddress i r = some addr)
    (hclears : clears i = false) (hs : s.state = .ExpectRecipient) (hstate : s'.state = s.state)
    (hsender : s'.sender = s.sender) (hrecipients : s'.recipients = s.recipients ++ [addr])

section Steps

variable {decode : Bytes → Option Bytes}

theorem unexpected_code (st : State) : (unexpected st).code = 503 := by
  cases st <;> rfl

theorem hello_envelope (s : Session) (arg : Bytes) (isEhlo : Bool) {i : Input}
    (hi : i = .command (if isEhlo then .EHello else .Hello) arg) (r : Option Reply) :
    Envelope s i r (hello s arg isEhlo).2 := by
  rw [hello]
  by_cases harg : arg = []
  · rw [if_pos harg]
    exact .outside (by simp [openStates])
  · rw [if_neg harg]
    by_cases hs : s.state = .ExpectHello
    · exact .outside (by simp [hs, openStates])
    · subst hi
      cases isEhlo
      · exact .cleared rfl rfl (by simpa [clears] using harg) (by simp [hs]) rfl
      · exact .cleared rfl rfl (by simpa [clears] using harg) (by simp [hs]) rfl

theorem quit_envelope (s : Session) (arg : Bytes) (r : Option Reply) :
    Envelope s (.command .Quit arg) r (quit s arg).2 := by
  rw [quit]
  split_ifs with harg
  · exact .kept rfl rfl rfl id rfl rfl
  · exact .outside (by simp [openStates])

theorem startEmail_envelope (s : Session) (line : Bytes) :
    Envelope s (.command .MailFrom line) (some (startEmail s line).1) (startEmail s line).2 := by
  rw [startEmail]
  split_ifs with hs
  · exact .kept (by simp [mailAddress, unexpected_code]) rfl rfl id rfl rfl
  · rw [not_not] at hs
    rcases hx : parseMailFrom line with ⟨size, addr⟩
    simp only
    split_ifs with hsize haddr hcode
    · exact .kept rfl rfl rfl id rfl rfl
    · exact .kept rfl rfl rfl id rfl rfl
    · refine .mail ?_ hs rfl rfl (parseMailFrom_spec hx (by omega))
      simp [mailAddress, hx, hcode]
    · exact absurd rfl hcode

theorem addRecipient_envelope (s : Session) (line : Bytes) :
    Envelope s (.command .RcptTo line) (some (addRecipient s line).1) (addRecipient s line).2 := by
  rw [addRecipient]
  split_ifs with hs
  · exact .kept rfl (by simp [rcptAddress, unexpected_code]) rfl id rfl rfl
  · rw [not_not] at hs
    simp only
    split_ifs with hrest
    · exact .kept rfl rfl rfl id rfl rfl
    · exact .rcpt rfl rfl rfl hs rfl rfl rfl

theorem startData_envelope (s : Session) (arg : Bytes) {cmd : Command} (r : Option Reply)
    (hcmd : cmd = .Data ∨ cmd = .BData) :
    Envelope s (.command cmd arg) r (startData s arg).2 := by
  have hkept : ∀ s' : Session, (s'.state ∈ openStates → s.state ∈ openStates) →
      s'.sender = s.sender → s'.recipients = s.recipients → Envelope s (.command cmd arg) r s' := by
    intro s' hstate hsender hrecipients
    rcases hcmd with rfl | rfl
    · exact .kept rfl rfl rfl hstate hsender hrecipients
    · exact .kept rfl rfl rfl hstate hsender hrecipients
  rw [startData]
  split_ifs with harg hs
  · exact hkept s id rfl rfl
  · exact hkept s id rfl rfl
  · rw [not_not] at hs
    simp only
    split_ifs
    · exact hkept _ (fun _ => by rw [hs]; decide) rfl rfl
    · exact hkept s id rfl rfl

theorem startAuth_envelope {s s' : Session} {arg : Bytes} {reply : Reply}
    (h : startAuth decode s arg = .ok (reply, s')) (r : Option Reply) :
    Envelope s (.command .Auth arg) r s' := by
  rw [startAuth] at h
  split_ifs at h with hs harg
  · obtain ⟨-, rfl⟩ := Prod.mk.inj (Except.ok.inj h)
    exact .kept rfl rfl rfl id rfl rfl
  · obtain ⟨-, rfl⟩ := Prod.mk.inj (Except.ok.inj h)
    exact .kept rfl rfl rfl id rfl rfl
  · rw [not_not] at hs
    cases hm : parseAuthMechanism (splitAuth arg).1 with
    | none => simp [hm] at h
    | some mechanism =>
      simp only [hm, Except.ok.injEq] at h
      refine .outside ?_
      have hstate : s'.state ∈ [State.ExpectAuth, .AuthExpectUsername, .AuthExpectPassword] := by
        rw [protocolAuth] at h
        have hs' := congrArg (fun x => x.2.state) h
        simp only at hs'
        rw [← hs']
        split
        · split_ifs
          · simp [hs]
          · simp
        · split_ifs <;> simp
        · simp [hs]
      intro hopen
      revert hstate hopen
      generalize s'.state = st
      cases st <;> decide

theorem onLine_envelope (s : Session) (l : Bytes) (r : Option Reply) :
    Envelope s (.line l) r (onLine decode s l).2 := by
  rw [onLine]
  split_ifs with hs hs'
  · exact .outside (by simp [openStates])
  · refine .outside ?_
    simp only
    split_ifs <;> simp [openStates]
  · exact .kept rfl rfl rfl id rfl rfl

theorem onData_envelope (s : Session) (d : Bytes) (r : Option Reply) :
    Envelope s (.data d) r (onData s d).2 := by
  rw [onData]
  split_ifs with hs
  · exact .kept rfl rfl rfl id rfl rfl
  · simp only
    split_ifs
    · exact .outside (by simp [openStates])
    · exact .kept rfl rfl rfl id rfl rfl

/-- **What a step does** to the sender and the recipients. -/
theorem envelope_of_step {s s' : Session} {i : Input} {r : Option Reply}
    (h : step decode s i = some (r, s')) : Envelope s i r s' := by
  cases i with
  | line l =>
    obtain ⟨-, rfl⟩ := Prod.mk.inj (Option.some.inj h)
    exact onLine_envelope s l r
  | data d =>
    obtain ⟨-, rfl⟩ := Prod.mk.inj (Option.some.inj h)
    exact onData_envelope s d r
  | command cmd arg =>
    -- an exception is raised by AUTH only
    have hraised : ∀ e, onCommand decode s cmd arg = .error (.raised e) → cmd = .Auth := by
      intro e he
      cases cmd <;> first | rfl | (simp [onCommand] at he)
    rcases hcmd : onCommand decode s cmd arg with (e | _) | ⟨reply, s''⟩
    · obtain rfl := hraised e hcmd
      simp only [step, input, hcmd, Except.map, Option.some.injEq, Prod.mk.injEq] at h
      obtain ⟨-, rfl⟩ := h
      exact .kept rfl rfl rfl id rfl rfl
    · simp [step, input, hcmd, Except.map] at h
    · simp only [step, input, hcmd, Except.map, Option.some.injEq, Prod.mk.injEq] at h
      obtain ⟨rfl, rfl⟩ := h
      cases cmd with
      | Auth => exact startAuth_envelope hcmd _
      | Help => exact absurd hcmd (by simp [onCommand])
      | Hello =>
        obtain ⟨-, rfl⟩ := Prod.mk.inj (Except.ok.inj hcmd)
        exact hello_envelope s arg false rfl _
      | EHello =>
        obtain ⟨-, rfl⟩ := Prod.mk.inj (Except.ok.inj hcmd)
        exact hello_envelope s arg true rfl _
      | Quit =>
        obtain ⟨-, rfl⟩ := Prod.mk.inj (Except.ok.inj hcmd)
        exact quit_envelope s arg _
      | MailFrom =>
        obtain ⟨rfl, rfl⟩ := Prod.mk.inj (Except.ok.inj hcmd)
        exact startEmail_envelope s arg
      | RcptTo =>
        obtain ⟨rfl, rfl⟩ := Prod.mk.inj (Except.ok.inj hcmd)
        exact addRecipient_envelope s arg
      | Data =>
        obtain ⟨-, rfl⟩ := Prod.mk.inj (Except.ok.inj hcmd)
        exact startData_envelope s arg _ (.inl rfl)
      | BData =>
        obtain ⟨-, rfl⟩ := Prod.mk.inj (Except.ok.inj hcmd)
        exact startData_envelope s arg _ (.inr rfl)
      | Reset =>
        obtain ⟨-, rfl⟩ := Prod.mk.inj (Except.ok.inj hcmd)
        exact .cleared rfl rfl rfl rfl rfl
      | Unrecognized | Noop | Verify | Expn | ATrn | ETrn | StartTls =>
        obtain ⟨-, rfl⟩ := Prod.mk.inj (Except.ok.inj hcmd)
        exact .kept rfl rfl rfl id rfl rfl

end Steps

/-! ### Transactions -/

section Transactions

variable {ms post : List (Move Session Input (Option Reply))}
  {m : Move Session Input (Option Reply)} {addr : Bytes}

/-- The last accepted MAIL of a history, its address, and the moves after it. -/
structure LastMail (ms : List (Move Session Input (Option Reply)))
    (m : Move Session Input (Option Reply)) (addr : Bytes)
    (post : List (Move Session Input (Option Reply))) : Prop where
  split : ∃ pre, ms = pre ++ m :: post
  mail : mailAddress m.input m.output = some addr
  quiet : ∀ k ∈ post, mailAddress k.input k.output = none

/-- The addresses accepted by RCPT. -/
def accepted (post : List (Move Session Input (Option Reply))) : List Bytes :=
  post.filterMap fun k => rcptAddress k.input k.output

/-- What the session holds while the message is under way: nothing to send from when it was
cleared, else the address of MAIL, and behind the recipients from before it those accepted
since. -/
structure Opened (s : Session) (m : Move Session Input (Option Reply)) (addr : Bytes)
    (post : List (Move Session Input (Option Reply))) : Prop where
  valid : addr ≠ [] ∧ validate addr = true
  cleared : (∃ k ∈ post, clears k.input = true) → s.sender = []
  kept : (∀ k ∈ post, clears k.input = false) →
    s.sender = addr ∧ s.recipients = m.before.recipients ++ accepted post

/-- There is one such MAIL at most. -/
theorem LastMail.unique {m' : Move Session Input (Option Reply)} {addr' : Bytes}
    {post' : List (Move Session Input (Option Reply))} (h : LastMail ms m addr post)
    (h' : LastMail ms m' addr' post') : m' = m ∧ addr' = addr ∧ post' = post := by
  obtain ⟨pre, hpre⟩ := h.split
  obtain ⟨pre', hpre'⟩ := h'.split
  have hsome : mailAddress m.input m.output ≠ none := by simp [h.mail]
  have hsome' : mailAddress m'.input m'.output ≠ none := by simp [h'.mail]
  have hsplit : pre ++ m :: post = pre' ++ m' :: post' := hpre.symm.trans hpre'
  obtain ⟨as, h₁, h₂⟩ | ⟨as, h₁, h₂⟩ := List.append_eq_append_iff.mp hsplit
  · cases as with
    | nil =>
      obtain ⟨rfl, rfl⟩ := List.cons.inj h₂
      exact ⟨rfl, Option.some.inj (h'.mail.symm.trans h.mail), rfl⟩
    | cons a as =>
      obtain ⟨rfl, rfl⟩ := List.cons.inj h₂
      exact absurd (h.quiet m' (by simp)) hsome'
  · cases as with
    | nil =>
      obtain ⟨rfl, rfl⟩ := List.cons.inj h₂
      exact ⟨rfl, Option.some.inj (h'.mail.symm.trans h.mail), rfl⟩
    | cons a as =>
      obtain ⟨rfl, rfl⟩ := List.cons.inj h₂
      exact absurd (h'.quiet m (by simp)) hsome

/-- A move that is no accepted MAIL comes after the last one. -/
theorem LastMail.snoc (h : LastMail ms m addr post) {k : Move Session Input (Option Reply)}
    (hk : mailAddress k.input k.output = none) : LastMail (ms ++ [k]) m addr (post ++ [k]) := by
  obtain ⟨pre, rfl⟩ := h.split
  refine ⟨⟨pre, by simp⟩, h.mail, fun x hx => ?_⟩
  rcases List.mem_append.mp hx with hx | hx
  · exact h.quiet x hx
  · rwa [List.mem_singleton.mp hx]

/-- A move that clears nothing adds at most a recipient. -/
theorem Opened.snoc {s s' : Session} {k : Move Session Input (Option Reply)}
    (h : Opened s m addr post) (hclears : clears k.input = false) (hsender : s'.sender = s.sender)
    (hrecipients : s'.recipients = s.recipients ++ (rcptAddress k.input k.output).toList) :
    Opened s' m addr (post ++ [k]) := by
  refine ⟨h.valid, fun hk => ?_, fun hk => ?_⟩
  · rw [hsender]
    simp only [List.mem_append, List.mem_singleton] at hk
    obtain ⟨x, hx | rfl, hxc⟩ := hk
    · exact h.cleared ⟨x, hx, hxc⟩
    · rw [hclears] at hxc
      exact absurd hxc (by decide)
  · obtain ⟨h₁, h₂⟩ := h.kept fun x hx => hk x (List.mem_append_left _ hx)
    have haccepted : accepted (post ++ [k]) =
        accepted post ++ (rcptAddress k.input k.output).toList := by
      rw [accepted, List.filterMap_append]
      cases hr : rcptAddress k.input k.output <;> simp [accepted, hr]
    rw [hsender, hrecipients, h₂, haccepted, List.append_assoc]
    exact ⟨h₁, rfl⟩

variable {decode : Bytes → Option Bytes}

/-- What one step preserves. -/
theorem opened_move {s s' : Session} {i : Input} {r : Option Reply}
    (h : s.state ∈ openStates → ∃ m addr post, LastMail ms m addr post ∧ Opened s m addr post)
    (hstep : step decode s i = some (r, s')) (hs' : s'.state ∈ openStates) :
    ∃ m addr post, LastMail (ms ++ [⟨s, i, r, s'⟩]) m addr post ∧ Opened s' m addr post := by
  cases envelope_of_step hstep with
  | outside hstate => exact absurd hs' hstate
  | mail hmail hs hstate hrecipients hvalid =>
    refine ⟨⟨s, i, r, s'⟩, s'.sender, [], ⟨⟨ms, rfl⟩, hmail, by simp⟩, hvalid, by simp, fun _ => ?_⟩
    simp [hrecipients, accepted]
  | kept hmail hrcpt hclears hstate hsender hrecipients =>
    obtain ⟨m, addr, post, hlast, hopened⟩ := h (hstate hs')
    exact ⟨m, addr, _, hlast.snoc hmail, hopened.snoc hclears hsender (by simp [hrcpt, hrecipients])⟩
  | cleared hmail hrcpt hclears hstate hsender =>
    obtain ⟨m, addr, post, hlast, hopened⟩ := h (hstate ▸ hs')
    refine ⟨m, addr, _, hlast.snoc hmail, hopened.valid, fun _ => hsender, fun hk => ?_⟩
    have hno := hk ⟨s, i, r, s'⟩ (List.mem_append_right _ (List.mem_singleton_self _))
    simp [hclears] at hno
  | rcpt hmail hrcpt hclears hs hstate hsender hrecipients =>
    obtain ⟨m, addr, post, hlast, hopened⟩ := h (hstate ▸ hs')
    exact ⟨m, addr, _, hlast.snoc hmail, hopened.snoc hclears hsender (by simp [hrcpt, hrecipients])⟩

/-- What a whole run preserves. -/
theorem opened_of_run {t : Session} (h : Run (step decode) {} ms t) (ht : t.state ∈ openStates) :
    ∃ m addr post, LastMail ms m addr post ∧ Opened t m addr post := by
  revert ht
  exact Run.rule (G := fun _ _ => True) (J := fun ms s => s.state ∈ openStates →
    ∃ m addr post, LastMail ms m addr post ∧ Opened s m addr post) h
    (fun hs => absurd hs (by decide))
    (fun ms u i o v hJ _ hstep => opened_move hJ hstep) fun _ _ => trivial

/-! ### Complete messages -/

/-- The steps that call `onDataTerm`. -/
def completes (s : Session) : Input → Bool
  | .data d => s.state = .ExpectData && (isTermination s d).1
  | _ => false

/-- The steps that leave a message under way intact: no HELO, EHLO or RSET, and no RCPT
without a valid address. -/
def intact (s : Session) (i : Input) : Bool :=
  !clears i && match i with
    | .command .RcptTo arg => s.state ≠ .ExpectRecipient || (extractEmail arg).2 ≠ []
    | _ => true

/-- What `onDataTerm` is meant to find. -/
structure FindsEnvelope (addr : Bytes) (rcpts : List Bytes) (s : Session) : Prop where
  recipients : s.recipients = rcpts
  valid : ∀ a ∈ s.recipients, a ≠ [] ∧ validate a = true
  sender : s.sender = addr

/-- When RCPT is accepted, and with which address. -/
theorem rcptAddress_eq_some_iff {s : Session} {arg a : Bytes} :
    rcptAddress (.command .RcptTo arg) (some (addRecipient s arg).1) = some a ↔
      s.state = .ExpectRecipient ∧ extractEmail arg = ([], a) := by
  rw [rcptAddress, addRecipient]
  by_cases hs : s.state = .ExpectRecipient
  · rcases extractEmail arg with ⟨rest, addr⟩
    by_cases hrest : rest = []
    · simp [hs, hrest, onMailRcpt, Reply.create]
    · simp [hs, hrest, Reply.create]
  · simp [hs, unexpected_code]

/-- A step leaves the message intact iff it clears nothing and accepts no empty address. -/
theorem intact_iff {s s' : Session} {i : Input} {r : Option Reply}
    (h : step decode s i = some (r, s')) :
    (intact s i = true ↔ clears i = false ∧ rcptAddress i r ≠ some []) ∧
      ∀ a, rcptAddress i r = some a → a = [] ∨ validate a = true := by
  have hother : rcptAddress i r = none → (intact s i = true ↔ clears i = false) →
      (intact s i = true ↔ clears i = false ∧ rcptAddress i r ≠ some []) ∧
        ∀ a, rcptAddress i r = some a → a = [] ∨ validate a = true := by
    intro hnone hi
    simp [hnone, hi]
  cases i with
  | line l => exact hother rfl (by simp [intact])
  | data d => exact hother rfl (by simp [intact])
  | command cmd arg =>
    cases cmd with
    | RcptTo =>
      obtain ⟨rfl, -⟩ := Prod.mk.inj (Option.some.inj h)
      rcases hx : extractEmail arg with ⟨rest, addr⟩
      have hspec := extractEmail_spec hx
      constructor
      · simp only [ne_eq, rcptAddress_eq_some_iff, hx, Prod.mk.injEq]
        by_cases hs : s.state = .ExpectRecipient
        · have hrest : addr = [] → rest = [] := by
            intro hnil
            exact (hspec.resolve_right fun h => h.1 hnil).2
          simp only [intact, clears, hs, hx]
          simpa using imp_iff_or_not.mp hrest
        · simp [intact, clears, hs]
      · intro a ha
        obtain ⟨-, heq⟩ := rcptAddress_eq_some_iff.mp ha
        obtain rfl := (Prod.mk.inj (hx.symm.trans heq)).2
        exact hspec.imp And.left And.right
    | Hello | EHello | MailFrom | Data | BData | Auth | Quit | Help | Reset | Unrecognized | Noop
    | Verify | Expn | ATrn | ETrn | StartTls => exact hother rfl (by simp [intact])

theorem completes_spec {s s' : Session} {i : Input} {r : Option Reply}
    (h : step decode s i = some (r, s')) (hc : completes s i = true) :
    s.state ∈ openStates ∧ s'.sender = s.sender ∧ s'.recipients = s.recipients := by
  cases i with
  | line l => exact absurd hc Bool.false_ne_true
  | command cmd arg => exact absurd hc Bool.false_ne_true
  | data d =>
    obtain ⟨-, rfl⟩ := Prod.mk.inj (Option.some.inj h)
    simp only [completes, Bool.and_eq_true, decide_eq_true_eq] at hc
    show s.state ∈ openStates ∧ (onData s d).2.sender = s.sender ∧
      (onData s d).2.recipients = s.recipients
    rw [onData, if_neg (by simp [hc.1])]
    simp only [hc.2, if_true, hc.1]
    exact ⟨by decide, rfl, rfl⟩

/-- **When a complete message has its sender and its recipients**: the session had no
recipients left at MAIL, and every step since left them intact. -/
theorem findsEnvelope_iff {last : Move Session Input (Option Reply)} {t : Session}
    (h : Run (step decode) {} (ms ++ [last]) t) (hlast : completes last.before last.input = true) :
    (∃ m addr post, LastMail ms m addr post) ∧
      ∀ m addr post, LastMail ms m addr post →
        (FindsEnvelope addr (accepted post) last.after ↔
          m.before.recipients = [] ∧ ∀ k ∈ post, intact k.before k.input = true) := by
  obtain ⟨hrun, hstep⟩ := h.at_move
  obtain ⟨hopen, hsender, hrecipients⟩ := completes_spec hstep hlast
  obtain ⟨m, addr, post, hmail, hopened⟩ := opened_of_run hrun hopen
  refine ⟨⟨m, addr, post, hmail⟩, fun m' addr' post' hmail' => ?_⟩
  obtain ⟨rfl, rfl, rfl⟩ := hmail.unique hmail'
  have hstepOf : ∀ k ∈ post', step decode k.before k.input = some (k.output, k.after) := by
    intro k hk
    obtain ⟨pre, hpre⟩ := hmail.split
    exact hrun.step_of_mem (by rw [hpre]; simp [hk])
  constructor
  · rintro ⟨hrcpts, hvalid, haddr⟩
    rw [hsender] at haddr
    rw [hrecipients] at hrcpts hvalid
    have hclears : ∀ k ∈ post', clears k.input = false := by
      intro k hk
      by_contra hkc
      have hnil := hopened.cleared ⟨k, hk, by simpa using hkc⟩
      exact hopened.valid.1 (haddr ▸ hnil)
    have hkept := (hopened.kept hclears).2
    refine ⟨?_, fun k hk => (intact_iff (hstepOf k hk)).1.mpr ⟨hclears k hk, fun hnil => ?_⟩⟩
    · rw [hrcpts] at hkept
      simpa using hkept
    · have hmem : [] ∈ accepted post' := List.mem_filterMap.mpr ⟨k, hk, hnil⟩
      exact (hvalid [] (hrcpts ▸ hmem)).1 rfl
  · rintro ⟨hleft, hintact⟩
    obtain ⟨h₁, h₂⟩ := hopened.kept fun k hk => ((intact_iff (hstepOf k hk)).1.mp (hintact k hk)).1
    rw [hleft, List.nil_append] at h₂
    refine ⟨hrecipients.trans h₂, fun a ha => ?_, hsender.trans h₁⟩
    rw [hrecipients, h₂] at ha
    obtain ⟨k, hk, hka⟩ := List.mem_filterMap.mp ha
    obtain ⟨hproper, hvalid⟩ := intact_iff (hstepOf k hk)
    have hne : a ≠ [] := fun hnil => (hproper.mp (hintact k hk)).2 (hnil ▸ hka)
    exact ⟨hne, (hvalid a hka).resolve_left hne⟩

theorem findsEnvelope_iff_delivery : ∃ ms last, moves (step decodeUser) {} delivery = ms ++ [last] ∧
    (∃ m addr post, LastMail ms m addr post) ∧
    ∀ m addr post, LastMail ms m addr post → (FindsEnvelope addr (accepted post) last.after ↔
      m.before.recipients = [] ∧ ∀ k ∈ post, intact k.before k.input = true) := by
  have hsplit := List.dropLast_append_getLast (l := moves (step decodeUser) {} delivery)
    (List.ne_nil_of_length_pos (by decide))
  have hrun := run_final (step decodeUser) {} delivery
  rw [← hsplit] at hrun
  exact ⟨_, _, hsplit.symm, findsEnvelope_iff hrun (by decide)⟩

/-! ### Three sessions -/

/-- A session that delivers two messages. -/
def twoMessages : List Input :=
  delivery ++ [.command .MailFrom (ascii ":<a@b.co>"), .command .RcptTo (ascii ":<d@b.co>"),
    .command .Data [], .data terminator]

/-- A session with a recipient that is no address. -/
def noAddress : List Input :=
  [.command .EHello (ascii "a"), .command .Auth (ascii "PLAIN "), .line (ascii "AGEAYmM="),
    .command .MailFrom (ascii ":<a@b.co>"), .command .RcptTo (ascii ":<c>"),
    .command .Data [], .data terminator]

/-- A session that is reset behind MAIL. -/
def afterReset : List Input := noSender ++ [.data terminator]

/-- A session whose last move completes a message without its sender or its recipients. -/
def Misdelivers (is : List Input) : Prop :=
  ∃ ms last m addr post, moves (step decodeUser) {} is = ms ++ [last] ∧
    completes last.before last.input = true ∧ LastMail ms m addr post ∧
    ¬FindsEnvelope addr (accepted post) last.after

/-- The MAIL of such a session is move `i`. -/
theorem misdelivers_of_index {is : List Input} {i : ℕ} (a : Bytes)
    (hne : moves (step decodeUser) {} is ≠ [])
    (hc : completes ((moves (step decodeUser) {} is).getLast hne).before
      ((moves (step decodeUser) {} is).getLast hne).input = true)
    (hi : i < (moves (step decodeUser) {} is).dropLast.length)
    (hmail : mailAddress ((moves (step decodeUser) {} is).dropLast.get ⟨i, hi⟩).input
      ((moves (step decodeUser) {} is).dropLast.get ⟨i, hi⟩).output = some a)
    (hquiet : ∀ k ∈ (moves (step decodeUser) {} is).dropLast.drop (i + 1),
      mailAddress k.input k.output = none)
    (h : ¬FindsEnvelope a (accepted ((moves (step decodeUser) {} is).dropLast.drop (i + 1)))
      ((moves (step decodeUser) {} is).getLast hne).after) : Misdelivers is := by
  refine ⟨_, _, _, a, _, (List.dropLast_append_getLast hne).symm, hc,
    ⟨⟨(moves (step decodeUser) {} is).dropLast.take i, ?_⟩, hmail, hquiet⟩, h⟩
  rw [List.get_eq_getElem, List.getElem_cons_drop, List.take_append_drop]

/-- In the first the recipient of the first message gets the second one too; in the others
a message has an empty recipient, and an empty sender. -/
theorem misdelivers_sessions :
    Misdelivers twoMessages ∧ Misdelivers noAddress ∧ Misdelivers afterReset := by
  refine ⟨misdelivers_of_index (i := 7) (ascii "a@b.co")
      (List.ne_nil_of_length_pos (by decide)) (by decide +kernel) (by decide) (by decide +kernel)
      (by decide +kernel) fun h => ?_,
    misdelivers_of_index (i := 3) (ascii "a@b.co")
      (List.ne_nil_of_length_pos (by decide)) (by decide +kernel) (by decide) (by decide +kernel)
      (by decide +kernel) fun h => ?_,
    misdelivers_of_index (i := 3) (ascii "a@b.co")
      (List.ne_nil_of_length_pos (by decide)) (by decide +kernel) (by decide) (by decide +kernel)
      (by decide +kernel) fun h => ?_⟩
  · exact absurd h.recipients (by decide +kernel)
  · exact absurd rfl (h.valid [] (by decide +kernel)).1
  · exact absurd h.sender (by decide +kernel)

end Transactions

end Smtp

end Suil
