/-
The SMTP server context (`ServerContext`).

Every command, line and chunk of data is a function of the session; the
handlers that a subclass may override are the default ones.  Three outcomes:
a reply (data may go without one), an exception of `String::operator[]`, or
the end of the process (HELP calls itself without end).

* `input` — one step of a session;
* `isTermination` — the window after a chunk;
* `Window.push_eq` — the window is the end of what was received.
-/
import Suil.SmtpSession

namespace Suil

namespace Smtp

/-- `IndexOutOfBounds` -/
inductive Thrown where
  | indexOutOfBounds
deriving DecidableEq, Repr

/-- What is sent to a session through `ServerContext`. -/
inductive Input where
  | command (cmd : Command) (arg : Bytes)
  | line (line : Bytes)
  | data (data : Bytes)
deriving DecidableEq, Repr

/-- `hostname()` -/
def hostname : String := "suil-localhost"

/-- The extensions that `onConnect` adds. -/
def extensions : List Bytes := [ascii "AUTH LOGIN PLAIN"]

/-- "Username:" and "PasswordL" in base 64. -/
def UsernameB64 : String := "VXNlcm5hbWU6"
def PasswordB64 : String := "UGFzc3dvcmRM"

/-- The reply of `expectState` when the session is in another state. -/
def unexpected : State → Reply
  | .ExpectHello => .create 503 "Issue HELO/EHLO first"
  | .ExpectMail => .create 503 "Issue MAIL FROM first"
  | .ExpectRecipient => .create 503 "Issue RCPT TO first"
  | .ExpectAuth => .create 503 "Issue AUTH first"
  | _ => .create 503 "Unexpected command"

/-! ### The handlers -/

def onMailFrom : Reply := .create 250 "OK give me recipients"

def onMailRcpt : Reply := .create 250 "OK give more recipients"

def onDataStart (s : Session) : Reply :=
  if s.state = .ExpectRecipient then .create 354 "OK send data terminated by CRLF.CRLF"
  else unexpected s.state

def onDataTerm : Reply := .create 250 "OK message received"

def onAuthUsernamePasswd (_username _passwd : Bytes) : Reply :=
  .create 235 "OK Authorized, ready when you are"

/-! ### Authentication -/

section Context

-- `Base64::decode`, which throws (`none`) on some strings and reads past the
-- end of others; nothing is assumed about it.
variable (decode : Bytes → Option Bytes)

def authLogin (username passwd : Bytes) : Reply :=
  match decode username, decode passwd with
  | some plainUsername, some plainPasswd => onAuthUsernamePasswd plainUsername plainPasswd
  | _, _ => .create 501 "Cannot decode response"

def authPlain (plain : Bytes) : Reply :=
  match decode plain with
  | none => .create 501 "Cannot decode response"
  | some userPasswd =>
    if userPasswd = [] then .create 501 "Username and Password not accepted"
    else
      let (user, passwd) := plainParts userPasswd
      if user = [] ∨ passwd = [] then .create 501 "Username and Password not accepted"
      else onAuthUsernamePasswd user passwd

def authenticateUser (mechanism : AuthMechanism) (arg0 arg1 : Bytes) : Reply :=
  match mechanism with
  | .Login => authLogin decode arg0 arg1
  | .Plain => authPlain decode arg1
  | .CramMD5 | .MD5 | .DigestMD5 | .OAuthBearer | .PlainToken =>
    .create 504 "Authentication not supported"
  | .Unknown => .create 504 "Unrecognized authentication type"

def protocolAuth (s : Session) (arg : Bytes) : Reply × Session :=
  match s.mechanism with
  | .Plain =>
    if arg ≠ [] then (authenticateUser decode s.mechanism [] arg, s)
    else (.create 334 "", s.nextState .AuthExpectPassword)
  | .Login =>
    if arg ≠ [] then
      (.create 334 PasswordB64, { s with arg0 := arg }.nextState .AuthExpectPassword)
    else (.create 334 UsernameB64, s.nextState .AuthExpectUsername)
  | _ => (.create 504 "Unrecognized auth mechanism", s)

def startAuth (s : Session) (arg : Bytes) : Call Thrown (Reply × Session) :=
  if s.state ≠ .ExpectAuth then .ok (unexpected s.state, s)
  else if arg = [] then .ok (.create 501 "Empty AUTH argument not allowed", s)
  else
    let (proto, auth) := splitAuth arg
    match parseAuthMechanism proto with
    | none => .error (.raised .indexOutOfBounds)
    | some mechanism => .ok (protocolAuth decode { s with mechanism := mechanism } auth)

/-! ### The commands -/

def hello (s : Session) (domain : Bytes) (isEhlo : Bool) : Reply × Session :=
  if domain = [] then
    (.abort 501 "Empty HELO/EHLO argument not allowed, closing connection", s.nextState .Quit)
  else
    let nextState := if s.state = .ExpectHello then .ExpectAuth else s.state
    let welcome := Reply.create 250 (hostname ++ " at your service")
    (if isEhlo then { welcome with lines := welcome.lines ++ extensions } else welcome,
      s.reset nextState)

def quit (s : Session) (arg : Bytes) : Reply × Session :=
  if arg ≠ [] then (.create 501 "Syntax error, QUIT does not accept arguments", s)
  else (.create 221 "Closing connection! goodbye", (s.reset .ExpectHello).nextState .Quit)

def startEmail (s : Session) (line : Bytes) : Reply × Session :=
  if s.state ≠ .ExpectMail then (unexpected s.state, s)
  else
    let (size, tmp) := parseMailFrom line
    let s := { s with expectedSize := size }
    if size < 0 then
      (if tmp = [] then .create 553 "Syntax error, invalid email address"
        else .create 555 "Syntax error, unsupported parameters", s)
    else
      let s := { s with sender := tmp }
      let resp := onMailFrom
      (resp, if resp.code = 250 then s.nextState .ExpectRecipient else s)

def addRecipient (s : Session) (line : Bytes) : Reply × Session :=
  if s.state ≠ .ExpectRecipient then (unexpected s.state, s)
  else
    let (rest, addr) := extractEmail line
    if rest ≠ [] then (.create 553 "Syntax error, invalid email address", s)
    else (onMailRcpt, { s with recipients := s.recipients ++ [addr] })

def startData (s : Session) (arg : Bytes) : Reply × Session :=
  if arg ≠ [] then (.create 501 "Syntax error, DATA does not accept parameters", s)
  else if s.state ≠ .ExpectRecipient then (unexpected s.state, s)
  else
    let resp := onDataStart s
    (resp, if resp.code = 354 then s.nextState .ExpectData else s)

/-- `reset(session, arg)`: the data go, the state stays. -/
def reset (s : Session) : Reply × Session := (.create 250 "OK", s.reset s.state)

def onCommand (s : Session) (cmd : Command) (arg : Bytes) : Call Thrown (Reply × Session) :=
  match cmd with
  | .Hello | .EHello => .ok (hello s arg (cmd = .EHello))
  | .Auth => startAuth decode s arg
  | .Quit => .ok (quit s arg)
  | .MailFrom => .ok (startEmail s arg)
  | .RcptTo => .ok (addRecipient s arg)
  | .Data | .BData => .ok (startData s arg)
  | .Help => .error .crash
  | .Verify | .ETrn | .ATrn | .StartTls | .Expn => .ok (.create 502 "Unimplemented command", s)
  | .Reset => .ok (reset s)
  | .Noop => .ok (.create 250 "OK", s)
  | .Unrecognized => .ok (.create 500 "Unrecognised command", s)

def onLine (s : Session) (line : Bytes) : Reply × Session :=
  if s.state = .AuthExpectUsername then
    (.create 334 PasswordB64, { s with arg0 := line }.nextState .AuthExpectPassword)
  else if s.state = .AuthExpectPassword then
    let resp := authenticateUser decode s.mechanism s.arg0 line
    (resp, s.nextState (if resp.code ≠ 235 then .ExpectAuth else .ExpectMail))
  else (.create 502 "Issue AUTH first", s)

/-! ### The message -/

/-- CRLF.CRLF -/
def terminator : Bytes := [13, 10, 46, 13, 10]

/-- The window after a chunk: as many bytes leave it as come in, but for the
bytes it lacks. -/
def Window.push (w : Window) (data : Bytes) : Window :=
  let pick := min data.length 5
  ⟨w.1.drop (min w.1.length pick) ++ data.drop (data.length - pick), by
    have := w.2
    simp only [List.length_append, List.length_drop]
    omega⟩

def isTermination (s : Session) (data : Bytes) : Bool × Session :=
  let term := Window.push s.term data
  (if term.1.length < 5 then false else term.1 = terminator, { s with term := term })

def onData (s : Session) (data : Bytes) : Option Reply × Session :=
  if s.state ≠ .ExpectData then (some (unexpected s.state), s)
  else
    let (done, s) := isTermination s data
    let s := { s with rxd := data }
    if done then (some onDataTerm, s.nextState .ExpectMail) else (none, s)

/-- The window holds the last bytes received: as many as it held before, or as
many as the chunk brings, up to five. -/
theorem Window.push_eq (w : Window) (data : Bytes) :
    (Window.push w data).1.length = max w.1.length (min data.length 5) ∧
      (Window.push w data).1 <:+ w.1 ++ data := by
  have hw := w.2
  refine ⟨by simp only [Window.push, List.length_append, List.length_drop]; omega, ?_⟩
  simp only [Window.push]
  by_cases h : data.length ≤ 5
  · have hdrop : data.length - min data.length 5 = 0 := by omega
    rw [hdrop, List.drop_zero]
    obtain ⟨l, hl⟩ := List.drop_suffix (min w.1.length (min data.length 5)) w.1
    exact ⟨l, by rw [← List.append_assoc, hl]⟩
  · have hdrop : w.1.drop (min w.1.length (min data.length 5)) = [] :=
      List.drop_eq_nil_of_le (by omega)
    rw [hdrop, List.nil_append]
    exact (List.drop_suffix _ data).trans (List.suffix_append _ _)

/-- One step of a session. -/
def input (s : Session) : Input → Call Thrown (Option Reply × Session)
  | .command cmd arg => (onCommand decode s cmd arg).map fun x => (some x.1, x.2)
  | .line line => .ok (some (onLine decode s line).1, (onLine decode s line).2)
  | .data data => .ok (onData s data)

end Context

end Smtp

end Suil
