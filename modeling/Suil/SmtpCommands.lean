/-
The command lines of the SMTP server (`ServerProtocol::parseCommand`).

The first four letters decide, in any case; three of the verbs are longer.  What is
behind the verb and one more byte is the argument, but for MAIL FROM and RCPT TO, whose
argument begins with what is behind the verb: `extractEmail` looks for the colon there.
NOOP has no argument.

* `parseCommand_verb`, `parseCommand_startTls`, `parseCommand_path` — the verbs;
* `parseCommand_grammar` — the lines of the grammar and those that no verb begins;
* `not_parsesRight` — the colon of MAIL FROM is no separator.
-/
import Suil.SmtpSession

namespace Suil

namespace Smtp

/-- `getArgument(offset)` -/
def getArgument (line : Bytes) (offset : ℕ) : Bytes :=
  if offset < line.length then substr line offset (line.length - offset) else []

/-- `parseCommand(line)` -/
def parseCommand (line : Bytes) : Command × Bytes :=
  if line.length < 4 then (.Unrecognized, [])
  else
    -- `tmp` shares its bytes with `line`, whose first four are upper-case from here on;
    -- none of them is read again
    let c0 := (substr line 0 4).map toUpper
    if c0 = ascii "HELO" then (.Hello, getArgument line 5)
    else if c0 = ascii "EHLO" then (.EHello, getArgument line 5)
    else if c0 = ascii "DATA" then (.Data, [])
    else if c0 = ascii "RCPT" then
      if line.length < 7 ∨ ((line.drop 4).take 3).map toUpper ≠ ascii " TO" then
        (.Unrecognized, [])
      else (.RcptTo, getArgument line 7)
    else if c0 = ascii "MAIL" then
      if line.length < 9 ∨ ((line.drop 4).take 5).map toUpper ≠ ascii " FROM" then
        (.Unrecognized, [])
      else (.MailFrom, getArgument line 9)
    else if c0 = ascii "NOOP" then (.Noop, [])
    else if c0 = ascii "HELP" then (.Help, getArgument line 5)
    else if c0 = ascii "VRFY" then (.Verify, getArgument line 5)
    else if c0 = ascii "EXPN" then (.Expn, getArgument line 5)
    else if c0 = ascii "RSET" then (.Reset, getArgument line 5)
    else if c0 = ascii "QUIT" then (.Quit, getArgument line 5)
    else if c0 = ascii "STAR" then
      if line.length < 8 ∨ ((line.drop 4).take 4).map toUpper ≠ ascii "TTLS" then
        (.Unrecognized, [])
      else (.StartTls, getArgument line 9)
    else if c0 = ascii "AUTH" then (.Auth, getArgument line 5)
    else if c0 = ascii "ATRN" then (.ATrn, getArgument line 5)
    else if c0 = ascii "BDAT" then (.BData, getArgument line 5)
    else if c0 = ascii "ETRN" then (.ETrn, getArgument line 5)
    else (.Unrecognized, [])

/-! ### The grammar -/

/-- The verbs of four letters that take an argument. -/
def letters : List (Command × Bytes) :=
  [(.Hello, ascii "HELO"), (.EHello, ascii "EHLO"), (.Help, ascii "HELP"),
    (.Verify, ascii "VRFY"), (.Expn, ascii "EXPN"), (.Reset, ascii "RSET"),
    (.Quit, ascii "QUIT"), (.Auth, ascii "AUTH"), (.ATrn, ascii "ATRN"),
    (.BData, ascii "BDAT"), (.ETrn, ascii "ETRN")]

/-- All of the verbs. -/
def verbs : List (Command × Bytes) :=
  letters ++ [(.Data, ascii "DATA"), (.Noop, ascii "NOOP"), (.StartTls, ascii "STARTTLS"),
    (.MailFrom, ascii "MAIL FROM"), (.RcptTo, ascii "RCPT TO")]

/-- `w` is the verb of a command, in any case. -/
def IsVerb (cmd : Command) (w : Bytes) : Prop := (cmd, w.map toUpper) ∈ verbs

/-- What may stand behind a verb, and the argument that it holds. -/
inductive Behind : Command → Bytes → Bytes → Prop
  | ended (cmd) : Behind cmd [] []
  | text (cmd arg) (h : cmd ∉ [.Data, .Noop, .MailFrom, .RcptTo]) : Behind cmd (32 :: arg) arg
  | data : Behind .Data [32] []
  | noop (text) : Behind .Noop (32 :: text) []
  | path (cmd) (n : ℕ) (arg) (h : cmd ∈ [.MailFrom, .RcptTo]) :
      Behind cmd (List.replicate n 32 ++ 58 :: arg) (List.replicate n 32 ++ 58 :: arg)

/-! ### The pieces of a line -/

variable {line w tail : Bytes}

theorem getArgument_eq (line : Bytes) (offset : ℕ) :
    getArgument line offset = line.drop offset := by
  rw [getArgument]
  by_cases h : offset < line.length
  · have hne : line.length - offset ≠ 0 := by omega
    rw [if_pos h, substr, if_neg hne, if_pos ⟨hne, le_refl _⟩, ← List.length_drop,
      List.take_length]
  · rw [if_neg h, List.drop_eq_nil_of_le (by omega)]

theorem substr_four (h : 4 ≤ line.length) : substr line 0 4 = line.take 4 := by
  have hfits : 4 ≠ 0 ∧ 4 ≤ line.length - 0 := ⟨by decide, by omega⟩
  rw [substr]
  exact if_pos hfits

/-- One of the verbs of four letters. -/
theorem parseCommand_letters {p : Command × Bytes} (hp : p ∈ letters) (h4 : 4 ≤ line.length)
    (hc : (line.take 4).map toUpper = p.2) : parseCommand line = (p.1, line.drop 5) := by
  have harg := getArgument_eq line 5
  rw [parseCommand, if_neg (by omega), substr_four h4, hc, ← harg]
  simp only [letters, List.mem_cons, List.not_mem_nil, or_false] at hp
  rcases hp with rfl | rfl | rfl | rfl | rfl | rfl | rfl | rfl | rfl | rfl | rfl <;> rfl

theorem parseCommand_data (h4 : 4 ≤ line.length)
    (hc : (line.take 4).map toUpper = ascii "DATA") : parseCommand line = (.Data, []) := by
  rw [parseCommand, if_neg (by omega), substr_four h4, hc]
  rfl

theorem parseCommand_noop (h4 : 4 ≤ line.length)
    (hc : (line.take 4).map toUpper = ascii "NOOP") : parseCommand line = (.Noop, []) := by
  rw [parseCommand, if_neg (by omega), substr_four h4, hc]
  rfl

/-- The longer verbs: the rest of the verb is compared where the four letters end. -/
theorem parseCommand_startTls (h4 : 4 ≤ line.length)
    (hc : (line.take 4).map toUpper = ascii "STAR") :
    parseCommand line =
      if line.length < 8 ∨ ((line.drop 4).take 4).map toUpper ≠ ascii "TTLS" then
        (.Unrecognized, [])
      else (.StartTls, line.drop 9) := by
  rw [parseCommand, if_neg (by omega), substr_four h4, hc, ← getArgument_eq line 9]
  rfl

theorem parseCommand_mail (h4 : 4 ≤ line.length)
    (hc : (line.take 4).map toUpper = ascii "MAIL") :
    parseCommand line =
      if line.length < 9 ∨ ((line.drop 4).take 5).map toUpper ≠ ascii " FROM" then
        (.Unrecognized, [])
      else (.MailFrom, line.drop 9) := by
  rw [parseCommand, if_neg (by omega), substr_four h4, hc, ← getArgument_eq line 9]
  rfl

theorem parseCommand_rcpt (h4 : 4 ≤ line.length)
    (hc : (line.take 4).map toUpper = ascii "RCPT") :
    parseCommand line =
      if line.length < 7 ∨ ((line.drop 4).take 3).map toUpper ≠ ascii " TO" then
        (.Unrecognized, [])
      else (.RcptTo, line.drop 7) := by
  rw [parseCommand, if_neg (by omega), substr_four h4, hc, ← getArgument_eq line 7]
  rfl

/-! ### The lines of the grammar -/

/-- The first letters of a line that begins with a longer word. -/
theorem take_append_letters {v : Bytes} (k : ℕ) (hw : w.map toUpper = v) (hk : k ≤ v.length) :
    ((w ++ tail).take k).map toUpper = v.take k := by
  have hlen : k ≤ w.length := by rwa [← hw, List.length_map] at hk
  rw [List.take_append_of_le_length hlen, List.map_take, hw]

/-- The letters behind the first four. -/
theorem drop_append_letters {v : Bytes} (k : ℕ) (hw : w.map toUpper = v)
    (hk : 4 + k = v.length) : (((w ++ tail).drop 4).take k).map toUpper = v.drop 4 := by
  have hlen : 4 + k = w.length := by rwa [← hw, List.length_map] at hk
  rw [List.drop_append_of_le_length (by omega), List.take_append_of_le_length (by simp; omega),
    List.take_of_length_le (by simp; omega), List.map_drop, hw]

theorem length_of_verb {v : Bytes} (hw : w.map toUpper = v) : w.length = v.length := by
  rw [← hw, List.length_map]

theorem length_letters : ∀ p ∈ letters, p.2.length = 4 := by decide

theorem parseCommand_append_letters {p : Command × Bytes} (hp : p ∈ letters)
    (hw : w.map toUpper = p.2) : parseCommand (w ++ tail) = (p.1, tail.drop 1) := by
  have hp4 : p.2.length = 4 := length_letters p hp
  have hlen : w.length = 4 := by rw [length_of_verb hw, hp4]
  have hc : ((w ++ tail).take 4).map toUpper = p.2 := by
    rw [take_append_letters 4 hw (by omega), ← hp4, List.take_length]
  rw [parseCommand_letters hp (by simp; omega) hc, List.drop_append, hlen,
    List.drop_eq_nil_of_le (by omega), List.nil_append]

theorem parseCommand_append_startTls (hw : w.map toUpper = ascii "STARTTLS") :
    parseCommand (w ++ tail) = (.StartTls, tail.drop 1) := by
  have hlen : w.length = 8 := length_of_verb hw
  have hrest : (((w ++ tail).drop 4).take 4).map toUpper = ascii "TTLS" :=
    drop_append_letters 4 hw rfl
  rw [parseCommand_startTls (by simp; omega) (take_append_letters 4 hw (by decide)), hrest,
    if_neg (by simp; omega), List.drop_append, hlen, List.drop_eq_nil_of_le (by omega),
    List.nil_append]

theorem parseCommand_append_mail (hw : w.map toUpper = ascii "MAIL FROM") :
    parseCommand (w ++ tail) = (.MailFrom, tail) := by
  have hlen : w.length = 9 := length_of_verb hw
  have hrest : (((w ++ tail).drop 4).take 5).map toUpper = ascii " FROM" :=
    drop_append_letters 5 hw rfl
  rw [parseCommand_mail (by simp; omega) (take_append_letters 4 hw (by decide)), hrest,
    if_neg (by simp; omega), ← hlen, List.drop_left]

theorem parseCommand_append_rcpt (hw : w.map toUpper = ascii "RCPT TO") :
    parseCommand (w ++ tail) = (.RcptTo, tail) := by
  have hlen : w.length = 7 := length_of_verb hw
  have hrest : (((w ++ tail).drop 4).take 3).map toUpper = ascii " TO" :=
    drop_append_letters 3 hw rfl
  rw [parseCommand_rcpt (by simp; omega) (take_append_letters 4 hw (by decide)), hrest,
    if_neg (by simp; omega), ← hlen, List.drop_left]

/-- A verb of a line is the first letters of the line. -/
theorem not_verb {v : Bytes} {cmd : Command} (hv : (cmd, v) ∈ verbs)
    (h : ∀ cmd w tail, IsVerb cmd w → line ≠ w ++ tail) : (line.take v.length).map toUpper ≠ v := by
  intro heq
  refine h cmd (line.take v.length) (line.drop v.length) ?_ (List.take_append_drop _ _).symm
  rw [IsVerb, heq]
  exact hv

/-- A longer verb is missing when its rest is. -/
theorem rest_missing {a b : Bytes} {cmd : Command} (hv : (cmd, a ++ b) ∈ verbs) (ha : a.length = 4)
    (h : ∀ cmd w tail, IsVerb cmd w → line ≠ w ++ tail) (hc : (line.take 4).map toUpper = a) :
    line.length < (a ++ b).length ∨ ((line.drop 4).take b.length).map toUpper ≠ b := by
  by_contra hboth
  have hrest := not_not.mp (not_or.mp hboth).2
  refine not_verb hv h ?_
  rw [List.length_append, ha, List.take_add, List.map_append, hc, hrest]

/-- A line that begins with none of the verbs. -/
theorem parseCommand_unrecognized (h : ∀ cmd w tail, IsVerb cmd w → line ≠ w ++ tail) :
    parseCommand line = (.Unrecognized, []) := by
  by_cases h4 : line.length < 4
  · rw [parseCommand, if_pos h4]
  have hfour : 4 ≤ line.length := by omega
  by_cases hrcpt : (line.take 4).map toUpper = ascii "RCPT"
  · have hv : (Command.RcptTo, ascii "RCPT" ++ ascii " TO") ∈ verbs := by decide
    rw [parseCommand_rcpt hfour hrcpt]
    exact if_pos (rest_missing hv rfl h hrcpt)
  by_cases hmail : (line.take 4).map toUpper = ascii "MAIL"
  · have hv : (Command.MailFrom, ascii "MAIL" ++ ascii " FROM") ∈ verbs := by decide
    rw [parseCommand_mail hfour hmail]
    exact if_pos (rest_missing hv rfl h hmail)
  by_cases hstar : (line.take 4).map toUpper = ascii "STAR"
  · have hv : (Command.StartTls, ascii "STAR" ++ ascii "TTLS") ∈ verbs := by decide
    rw [parseCommand_startTls hfour hstar]
    exact if_pos (rest_missing hv rfl h hstar)
  -- the verbs that are told by their four letters
  have hne : ∀ p ∈ letters ++ [(.Data, ascii "DATA"), (.Noop, ascii "NOOP")],
      (line.take 4).map toUpper ≠ p.2 := by
    intro p hp
    have hp4 : ∀ q ∈ letters ++ [(.Data, ascii "DATA"), (.Noop, ascii "NOOP")],
        q.2.length = 4 ∧ q ∈ verbs := by decide
    have hverb := not_verb (hp4 p hp).2 h
    rwa [(hp4 p hp).1] at hverb
  simp only [letters, List.cons_append, List.nil_append, List.forall_mem_cons] at hne
  obtain ⟨h₁, h₂, h₃, h₄, h₅, h₆, h₇, h₈, h₉, h₁₀, h₁₁, h₁₂, h₁₃, -⟩ := hne
  rw [parseCommand, if_neg h4, substr_four hfour]
  simp only [h₁, h₂, h₃, h₄, h₅, h₆, h₇, h₈, h₉, h₁₀, h₁₁, h₁₂, h₁₃, hrcpt, hmail, hstar, if_false]

/-- **The lines of the grammar and those that begin with none of its verbs.** -/
theorem parseCommand_grammar :
    (∀ cmd w tail arg, IsVerb cmd w → Behind cmd tail arg →
      parseCommand (w ++ tail) = (cmd, arg)) ∧
    ∀ line, (∀ cmd w tail, IsVerb cmd w → line ≠ w ++ tail) →
      parseCommand line = (.Unrecognized, []) := by
  refine ⟨fun cmd w tail arg hverb hbehind => ?_, fun line h => parseCommand_unrecognized h⟩
  rw [IsVerb, verbs, List.mem_append] at hverb
  rcases hverb with hp | hlong
  · have hcmd : cmd ∉ [.Data, .Noop, .MailFrom, .RcptTo] := by
      have hall : ∀ p ∈ letters, p.1 ∉ [.Data, .Noop, .MailFrom, .RcptTo] := by decide
      exact hall _ hp
    rw [parseCommand_append_letters hp rfl]
    cases hbehind with
    | ended => rfl
    | text => rfl
    | data => exact absurd (by decide) hcmd
    | noop => exact absurd (by decide) hcmd
    | path _ _ _ hpath =>
      refine absurd ?_ hcmd
      simp only [List.mem_cons, List.not_mem_nil, or_false] at hpath ⊢
      tauto
  · simp only [List.mem_cons, List.not_mem_nil, or_false, Prod.mk.injEq] at hlong
    rcases hlong with ⟨rfl, hw⟩ | ⟨rfl, hw⟩ | ⟨rfl, hw⟩ | ⟨rfl, hw⟩ | ⟨rfl, hw⟩
    · have hlen : w.length = 4 := length_of_verb hw
      rw [parseCommand_data (by simp; omega)
        ((take_append_letters 4 hw (by decide)).trans rfl)]
      cases hbehind with
      | ended => rfl
      | text _ _ h => exact absurd (by decide) h
      | data => rfl
      | path _ _ _ h => exact absurd h (by decide)
    · have hlen : w.length = 4 := length_of_verb hw
      rw [parseCommand_noop (by simp; omega)
        ((take_append_letters 4 hw (by decide)).trans rfl)]
      cases hbehind with
      | ended => rfl
      | text _ _ h => exact absurd (by decide) h
      | noop => rfl
      | path _ _ _ h => exact absurd h (by decide)
    · rw [parseCommand_append_startTls hw]
      cases hbehind with
      | ended => rfl
      | text => rfl
      | path _ _ _ h => exact absurd h (by decide)
    · rw [parseCommand_append_mail hw]
      cases hbehind with
      | ended => rfl
      | text _ _ h => exact absurd (by decide) h
      | path => rfl
    · rw [parseCommand_append_rcpt hw]
      cases hbehind with
      | ended => rfl
      | text _ _ h => exact absurd (by decide) h
      | path => rfl

/-- HELO in small letters with a domain, and a line of another protocol. -/
theorem parseCommand_helo :
    parseCommand (ascii "helo" ++ ascii " suil.org") = (.Hello, ascii "suil.org") ∧
      parseCommand (ascii "GET") = (.Unrecognized, []) :=
  ⟨parseCommand_grammar.1 .Hello (ascii "helo") (ascii " suil.org") (ascii "suil.org")
      (by rw [IsVerb]; decide) (.text _ _ (by decide)),
    parseCommand_grammar.2 (ascii "GET") (by
      intro cmd w tail hverb heq
      have hlong : ∀ p ∈ verbs, 4 ≤ p.2.length := by decide
      have h4 := hlong _ hverb
      have hlen := congrArg List.length heq
      rw [List.length_append] at hlen
      rw [List.length_map] at h4
      have hget : (ascii "GET").length = 3 := rfl
      omega)⟩

/-- A command is recognised when a verb ends the line or is followed by a separator, and
its argument is what is behind the separator. -/
def ParsesRight (separator : UInt8 → Prop) (line : Bytes) : Prop :=
  ∀ cmd arg, cmd ≠ .Unrecognized → (parseCommand line = (cmd, arg) ↔
    ∃ w tail, line = w ++ tail ∧ IsVerb cmd w ∧
      (tail = [] ∧ arg = [] ∨ ∃ sep, separator sep ∧ tail = sep :: arg))

/-- Whatever the separators are, the argument of MAIL FROM is not what is behind one. -/
theorem not_parsesRight :
    parseCommand (ascii "MAIL FROM:<a@b.cd>") = (.MailFrom, ascii ":<a@b.cd>") ∧
      ∀ separator, ¬∀ line, ParsesRight separator line := by
  have hparse : parseCommand (ascii "MAIL FROM:<a@b.cd>") = (.MailFrom, ascii ":<a@b.cd>") := by
    decide
  refine ⟨hparse, fun separator h => ?_⟩
  obtain ⟨w, tail, hline, hverb, htail⟩ := (h _ .MailFrom _ (by decide)).mp hparse
  have hw : w.map toUpper = ascii "MAIL FROM" := by
    have hall : ∀ p ∈ verbs, p.1 = .MailFrom → p.2 = ascii "MAIL FROM" := by decide
    exact hall _ hverb rfl
  have hlen := congrArg List.length hline
  rw [List.length_append, length_of_verb hw] at hlen
  have hlens : (ascii "MAIL FROM:<a@b.cd>").length = 18 ∧ (ascii "MAIL FROM").length = 9 ∧
      (ascii ":<a@b.cd>").length = 9 := by decide
  -- the argument is as long as what is behind the verb
  rcases htail with ⟨rfl, -⟩ | ⟨sep, -, rfl⟩
  · rw [List.length_nil] at hlen
    omega
  · rw [List.length_cons] at hlen
    omega

end Smtp

end Suil
