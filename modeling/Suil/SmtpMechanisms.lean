/-
The argument of AUTH (`ServerContext::startAuth`).

The argument is a mechanism and, behind blanks, an initial response.  The position
of the first blank is unsigned, so that `space > 0` holds also when there is none:
then the mechanism is a `substr` of more characters than there are, which is empty,
and `parseAuthMechanism` reads the first character of nothing.

* `splitAuth_blank`, `splitAuth_alone` — what the argument is cut into;
* `startsRight_iff` — the arguments that start the exchange they ask for;
* `not_startsRight` — "PLAIN" by itself is none of them.
-/
import Suil.SmtpContext

namespace Suil

namespace Smtp

/-- An argument of AUTH: a mechanism, and behind some blanks an initial response. -/
structure AuthArgument where
  name : Bytes
  spaces : ℕ
  initial : Bytes
  name_ne : name ≠ []
  name_blank : 32 ∉ name
  initial_blank : initial.head? ≠ some 32
  initial_behind : spaces = 0 → initial = []
  fits : (name ++ List.replicate spaces 32 ++ initial).length < 2 ^ 32

namespace AuthArgument

/-- The argument as it is received. -/
def text (a : AuthArgument) : Bytes := a.name ++ List.replicate a.spaces 32 ++ a.initial

/-- The mechanism that a name stands for, in any case. -/
def mechanism (a : AuthArgument) : AuthMechanism :=
  if a.name.map toUpper = ascii "LOGIN" then .Login
  else if a.name.map toUpper = ascii "PLAIN" then .Plain
  else .Unknown

end AuthArgument

/-- What the client is asked for next when it gave no initial response. -/
def asked : AuthMechanism → State
  | .Plain => .AuthExpectPassword
  | .Login => .AuthExpectUsername
  | _ => .ExpectAuth

/-- The exchange starts with the mechanism named and with exactly the initial response. -/
structure StartsRight (decode : Bytes → Option Bytes) (s : Session) (a : AuthArgument) :
    Prop where
  selects : parseAuthMechanism (splitAuth a.text).1 = some a.mechanism
  passes : (splitAuth a.text).2 = a.initial
  starts : startAuth decode { s with state := .ExpectAuth } a.text =
    .ok (protocolAuth decode { s with state := .ExpectAuth, mechanism := a.mechanism } a.initial)
  asks : a.initial = [] → a.mechanism ≠ .Unknown →
    ∃ reply after, startAuth decode { s with state := .ExpectAuth } a.text = .ok (reply, after) ∧
      reply.code = 334 ∧ after.state = asked a.mechanism ∧ after.mechanism = a.mechanism

/-! ### The cut -/

theorem find_of_not_mem {s : Bytes} {ch : UInt8} (h : ch ∉ s) : find s ch = npos := by
  have hnone : s.idxOf? ch = none := by simpa [List.idxOf?_eq_none_iff] using h
  rw [find, hnone]
  rfl

/-- Behind the name, one blank is the separator and the others belong to the rest. -/
theorem splitAuth_blank {name rest : Bytes} (hne : name ≠ []) (hblank : 32 ∉ name)
    (hlen : (name ++ 32 :: rest).length < 2 ^ 32) :
    splitAuth (name ++ 32 :: rest) = (name, rest) := by
  have hpos : name.length ≠ 0 := by simpa using hne
  have hfind : find (name ++ 32 :: rest) 32 = name.length := by
    rw [find, idxOf?_separator hblank]
    rfl
  have hwrap : (name.length + 1) % 2 ^ 64 = name.length + 1 := by
    rw [List.length_append] at hlen
    omega
  have hname : substr (name ++ 32 :: rest) 0 name.length = name := by
    rw [substr, if_neg hpos, if_pos ⟨hpos, by simp⟩, List.drop_zero, List.take_left]
  have hrest : substr (name ++ 32 :: rest) (name.length + 1) 0 = rest := by
    rw [substr_rest, ← List.drop_drop, List.drop_left]
    rfl
  simp only [splitAuth, hfind]
  rw [if_pos (Nat.pos_of_ne_zero hpos), hwrap, hname, hrest]

/-- Without a blank the position is the largest one: no mechanism is cut off. -/
theorem splitAuth_alone {name : Bytes} (hblank : 32 ∉ name) (hlen : name.length < 2 ^ 32) :
    (splitAuth name).1 = [] := by
  have hfits : ¬(npos ≠ 0 ∧ npos ≤ name.length - 0) := by
    rintro ⟨-, h⟩
    rw [npos] at h
    omega
  have hcut : substr name 0 npos = [] := by
    rw [substr]
    exact if_neg hfits
  simp only [splitAuth, find_of_not_mem hblank]
  rw [if_pos (by decide), hcut]

/-! ### The mechanism -/

theorem parseAuthMechanism_name (a : AuthArgument) :
    parseAuthMechanism a.name = if a.name.length < 4 then none else some a.mechanism := by
  rw [parseAuthMechanism, AuthArgument.mechanism]
  split_ifs <;> rfl

theorem mechanism_cases (a : AuthArgument) :
    a.mechanism = .Login ∨ a.mechanism = .Plain ∨ a.mechanism = .Unknown := by
  rw [AuthArgument.mechanism]
  split_ifs <;> simp

/-! ### The exchange -/

variable (decode : Bytes → Option Bytes) (s : Session)

/-- Without a response to go on with, the two mechanisms ask for one. -/
theorem protocolAuth_asks {a : AuthArgument} (hm : a.mechanism ≠ .Unknown) :
    ∃ reply after,
      protocolAuth decode { s with state := .ExpectAuth, mechanism := a.mechanism } [] =
        (reply, after) ∧
      reply.code = 334 ∧ after.state = asked a.mechanism ∧ after.mechanism = a.mechanism := by
  rcases mechanism_cases a with h | h | h
  · rw [h]
    exact ⟨_, _, rfl, rfl, rfl, rfl⟩
  · rw [h]
    exact ⟨_, _, rfl, rfl, rfl, rfl⟩
  · exact absurd h hm

theorem startAuth_of_split {a : AuthArgument}
    (hsel : parseAuthMechanism (splitAuth a.text).1 = some a.mechanism)
    (hpass : (splitAuth a.text).2 = a.initial) :
    startAuth decode { s with state := .ExpectAuth } a.text =
      .ok (protocolAuth decode { s with state := .ExpectAuth, mechanism := a.mechanism }
        a.initial) := by
  have hne : a.text ≠ [] := by
    intro h
    rw [AuthArgument.text, List.append_assoc, List.append_eq_nil_iff] at h
    exact a.name_ne h.1
  rw [startAuth, if_neg (by simp), if_neg hne]
  simp only [hsel, hpass]

/-- **The arguments that are understood** have exactly one blank behind a name of four
letters or more. -/
theorem startsRight_iff (a : AuthArgument) :
    StartsRight decode s a ↔ a.spaces = 1 ∧ 4 ≤ a.name.length := by
  have hfits := a.fits
  constructor
  · intro h
    rcases hspaces : a.spaces with _ | n
    · -- no blank: the name that is looked up is empty
      have htext : a.text = a.name := by
        rw [AuthArgument.text, hspaces, a.initial_behind hspaces]
        simp
      have hlen : a.name.length < 2 ^ 32 := by
        simp only [List.length_append] at hfits
        omega
      have hsel := h.selects
      rw [htext, splitAuth_alone a.name_blank hlen] at hsel
      exact absurd hsel (by simp [parseAuthMechanism])
    · -- the blanks behind the first one are taken for a part of the response
      have htext : a.text = a.name ++ 32 :: (List.replicate n 32 ++ a.initial) := by
        rw [AuthArgument.text, hspaces, List.replicate_succ]
        simp
      have hsplit : splitAuth a.text = (a.name, List.replicate n 32 ++ a.initial) := by
        rw [htext]
        refine splitAuth_blank a.name_ne a.name_blank ?_
        rwa [← htext]
      have hsel := h.selects
      have hpass := h.passes
      rw [hsplit] at hsel hpass
      have hn : n = 0 := by
        have hcount := congrArg List.length hpass
        simp only [List.length_append, List.length_replicate] at hcount
        omega
      refine ⟨by rw [hn], ?_⟩
      -- a shorter name is not looked up
      rw [parseAuthMechanism_name] at hsel
      by_contra hshort
      rw [if_pos (by omega)] at hsel
      exact absurd hsel (by simp)
  · rintro ⟨hspaces, hlong⟩
    have htext : a.text = a.name ++ 32 :: a.initial := by
      rw [AuthArgument.text, hspaces]
      simp
    have hsplit : splitAuth a.text = (a.name, a.initial) := by
      rw [htext]
      refine splitAuth_blank a.name_ne a.name_blank ?_
      rwa [← htext]
    have hsel : parseAuthMechanism (splitAuth a.text).1 = some a.mechanism := by
      rw [hsplit, parseAuthMechanism_name, if_neg (by omega)]
    have hpass : (splitAuth a.text).2 = a.initial := by rw [hsplit]
    have hstart := startAuth_of_split decode s hsel hpass
    refine ⟨hsel, hpass, hstart, fun hinit hm => ?_⟩
    obtain ⟨reply, after, hauth, hrest⟩ := protocolAuth_asks decode s hm
    exact ⟨reply, after, by rw [hstart, hinit, hauth], hrest⟩

/-- "PLAIN" by itself. -/
def plainAlone : AuthArgument where
  name := ascii "PLAIN"
  spaces := 0
  initial := []
  name_ne := by decide
  name_blank := by decide
  initial_blank := by decide
  initial_behind := by decide
  fits := by decide

/-- AUTH PLAIN without an initial response ends in an exception. -/
theorem not_startsRight :
    startAuth (fun _ => none) { state := .ExpectAuth } plainAlone.text =
        .error (.raised .indexOutOfBounds) ∧
      ¬∀ decode s a, StartsRight decode s a := by
  have hraised : startAuth (fun _ => none) { state := .ExpectAuth } plainAlone.text =
      .error (.raised .indexOutOfBounds) := by
    decide
  refine ⟨hraised, fun h => ?_⟩
  have hstart := (h (fun _ => none) {} plainAlone).starts
  rw [hraised] at hstart
  exact absurd hstart (by simp)

end Smtp

end Suil
