/-
The SMTP session (`suil::net::smtp`).

The state of a session and the parts of `ServerContext` that read a line: the
addresses of MAIL and RCPT, the authentication strings, and the window in
which the end of a message is looked for.

* `Window` — the window never holds more than five bytes, as part of its type;
* `extractEmail_spec` — an address is handed out only after it was validated.
-/
import Suil.Strings

namespace Suil

namespace Smtp

/-- `Session::State` -/
inductive State where
  | ExpectHello
  | ExpectAuth
  | AuthExpectUsername
  | AuthExpectPassword
  | ExpectMail
  | ExpectRecipient
  | ExpectData
  | Quit
deriving DecidableEq, Repr

/-- `AuthMechanism` -/
inductive AuthMechanism where
  | Plain
  | Login
  | DigestMD5
  | MD5
  | CramMD5
  | PlainToken
  | OAuthBearer
  | Unknown
deriving DecidableEq, Repr

/-- `Command` -/
inductive Command where
  | Unrecognized
  | Hello
  | EHello
  | MailFrom
  | RcptTo
  | Data
  | Noop
  | Help
  | Verify
  | Expn
  | Quit
  | Auth
  | ATrn
  | BData
  | ETrn
  | StartTls
  | Reset
deriving DecidableEq, Repr

/-- `Response`: the code, the lines and whether the connection is given up. -/
structure Reply where
  code : ℕ
  lines : List Bytes
  isAbort : Bool := false
deriving DecidableEq, Repr

namespace Reply

def create (code : ℕ) (line : String) : Reply := { code := code, lines := [ascii line] }

def abort (code : ℕ) (line : String) : Reply :=
  { code := code, lines := [ascii line], isAbort := true }

end Reply

/-- The last bytes received, at most five of them (`Session::term`). -/
abbrev Window := { w : Bytes // w.length ≤ 5 }

def emptyWindow : Window := ⟨[], Nat.zero_le 5⟩

/-- `Session`, without the data of the message store; `sender` is the field
`from`. -/
structure Session where
  state : State := .ExpectHello
  sender : Bytes := []
  recipients : List Bytes := []
  expectedSize : ℤ := 0
  rxd : Bytes := []
  term : Window := emptyWindow
  arg0 : Bytes := []
  mechanism : AuthMechanism := .Plain
deriving DecidableEq, Repr

namespace Session

/-- `reset(state)` -/
def reset (s : Session) (state : State) : Session :=
  { s with sender := [], recipients := [], state := state }

/-- `nextState(state)` -/
def nextState (s : Session) (state : State) : Session := { s with state := state }

@[simp] theorem reset_state (s : Session) (st : State) : (s.reset st).state = st := rfl
@[simp] theorem reset_sender (s : Session) (st : State) : (s.reset st).sender = [] := rfl
@[simp] theorem nextState_state (s : Session) (st : State) : (s.nextState st).state = st := rfl
@[simp] theorem nextState_sender (s : Session) (st : State) :
    (s.nextState st).sender = s.sender := rfl
@[simp] theorem nextState_recipients (s : Session) (st : State) :
    (s.nextState st).recipients = s.recipients := rfl

end Session

/-! ### Lines -/

/-- `eat(s, idx)` -/
def eat (s : Bytes) (idx : ℕ) : Bytes := (s.drop idx).dropWhile isSpace

/-- `capture(s, 1, isChar('>'))`: nothing unless the character is there. -/
def capture (s : Bytes) : Bytes :=
  let body := (s.drop 1).takeWhile (· ≠ 62)
  if body.length + 1 < s.length then body else []

def isAlpha (c : UInt8) : Bool := (65 ≤ c && c ≤ 90) || (97 ≤ c && c ≤ 122)

/-- `\w` -/
def isWord (c : UInt8) : Bool := isAlpha c || isDigit c || c == 95

/-- `Email::Address::validate`: the whole string is a name of word characters
and dots, an `@`, and labels of word characters between dots, at least two of
them, the last one of two or more letters. -/
def validate (addr : Bytes) : Bool :=
  let name := addr.takeWhile (· ≠ 64)
  let labels := (addr.drop (name.length + 1)).splitOn 46
  name.length < addr.length && !name.isEmpty && name.all (fun c => isWord c || c == 46) &&
    2 ≤ labels.length && labels.all (fun l => !l.isEmpty && l.all isWord) &&
    2 ≤ (labels.getLastD []).length && (labels.getLastD []).all isAlpha

/-- `extractEmail(line, addr)`: what follows the address, and the address. -/
def extractEmail (line : Bytes) : Bytes × Bytes :=
  let it := eat line 0
  if it = [] ∨ it.head? ≠ some 58 then ([], [])
  else
    let it := eat it 1
    if it = [] ∨ it.head? ≠ some 60 then ([], [])
    else
      let tmp := capture it
      if tmp = [] then ([], [])
      else if validate tmp then (it.drop (2 + tmp.length), tmp)
      else ([], [])

def toUpper (c : UInt8) : UInt8 := if 97 ≤ c && c ≤ 122 then c - 32 else c

/-- `suil::cast(str, size)` into an `int`: `strtonum`, where a string that no
digit of is read counts as zero as long as a point follows. -/
def castInt (s : Bytes) : Option ℤ :=
  let wrap (v : ℤ) : ℤ := (v + 2 ^ 31) % 2 ^ 32 - 2 ^ 31
  if 19 < s.length then none
  else match scanInteger s with
    | none => if s.headD 0 = 46 ∨ s.headD 0 = 0 then some 0 else none
    | some (_, _, n) =>
      match strtoll s with
      | none => none
      | some (v, _) =>
        if (s.drop n).headD 0 = 46 ∨ (s.drop n).headD 0 = 0 then some (wrap v) else none

/-- `parseMailFrom(line, addr)`: the announced size, negative when the line is
refused, and the address. -/
def parseMailFrom (line : Bytes) : ℤ × Bytes :=
  let (tmp, addr) := extractEmail line
  if tmp = [] then (if addr = [] then -1 else 0, addr)
  else
    let tmp := eat tmp 0
    if tmp = [] then (0, addr)
    else if tmp.length < 4 then (-1, addr)
    else if (tmp.take 4).map toUpper ≠ ascii "SIZE" then (-1, addr)
    else
      let tmp := eat tmp 4
      if tmp = [] then (-1, addr) else ((castInt tmp).getD (-1), addr)

/-- An address is handed out only when it is valid, and a rest only with an
address. -/
theorem extractEmail_spec {line rest addr : Bytes} (h : extractEmail line = (rest, addr)) :
    (addr = [] ∧ rest = []) ∨ (addr ≠ [] ∧ validate addr = true) := by
  simp only [extractEmail] at h
  split_ifs at h with h₁ h₂ h₃ h₄
  · exact .inl ⟨(Prod.mk.inj h).2.symm, (Prod.mk.inj h).1.symm⟩
  · exact .inl ⟨(Prod.mk.inj h).2.symm, (Prod.mk.inj h).1.symm⟩
  · exact .inl ⟨(Prod.mk.inj h).2.symm, (Prod.mk.inj h).1.symm⟩
  · obtain ⟨-, rfl⟩ := Prod.mk.inj h
    exact .inr ⟨h₃, h₄⟩
  · exact .inl ⟨(Prod.mk.inj h).2.symm, (Prod.mk.inj h).1.symm⟩

/-- A sender that is not refused is valid. -/
theorem parseMailFrom_spec {line addr : Bytes} {size : ℤ} (h : parseMailFrom line = (size, addr))
    (hsize : 0 ≤ size) : addr ≠ [] ∧ validate addr = true := by
  rcases hx : extractEmail line with ⟨rest, addr'⟩
  have hspec := extractEmail_spec hx
  simp only [parseMailFrom, hx] at h
  have haddr : addr' = addr := by
    split_ifs at h <;> exact (Prod.mk.inj h).2
  subst haddr
  rcases hspec with ⟨rfl, rfl⟩ | hvalid
  · simp only [if_true, Prod.mk.injEq] at h
    omega
  · exact hvalid

/-! ### Authentication strings -/

/-- `String::npos` -/
def npos : ℕ := 2 ^ 64 - 1

/-- `String::find(ch)` -/
def find (s : Bytes) (ch : UInt8) : ℕ := (s.idxOf? ch).getD npos

/-- `parseAuthMechanism`; the first four characters are read unchecked, and
`operator[]` throws (`none`) beyond the end. -/
def parseAuthMechanism (str : Bytes) : Option AuthMechanism :=
  if str.length < 4 then none
  else if str.map toUpper = ascii "LOGIN" then some .Login
  else if str.map toUpper = ascii "PLAIN" then some .Plain
  else some .Unknown

/-- The mechanism and the rest that `startAuth` splits its argument into; 64-bit
arithmetic on the position of the blank. -/
def splitAuth (arg : Bytes) : Bytes × Bytes :=
  let space := find arg 32
  if 0 < space then (substr arg 0 space, substr arg ((space + 1) % 2 ^ 64) 0) else (arg, [])

/-- What `authPlain` finds in the decoded string: the user and the password. -/
def plainParts (userPasswd : Bytes) : Bytes × Bytes :=
  let pos :=
    if userPasswd.headD 0 ≠ 0 then
      let tmp := find userPasswd 0
      if 0 < tmp then (tmp + 1) % 2 ^ 64 else 1
    else 1
  let tmp := find (substr userPasswd pos 0) 0
  if 0 < tmp then
    (substr userPasswd pos ((tmp + 2 ^ 64 - pos) % 2 ^ 64),
      substr userPasswd ((tmp + 1) % 2 ^ 64) 0)
  else ([], substr userPasswd pos 0)

end Smtp

end Suil
