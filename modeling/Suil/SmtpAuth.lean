/-
The PLAIN response between the SMTP client and the server.

The client writes an empty identity, the user and the password, each behind a zero
byte, in base 64.  The server looks for the zero bytes from two origins: `find` counts
from where its own search began, `substr` from the start of the string.

* `find_separator` — where the first zero byte is found;
* `plainParts_message` — what the server takes for the user and the password;
* `not_understood` — it is never what the message was made of.
-/
import Suil.Base64
import Suil.SmtpContext

namespace Suil

namespace Smtp

/-- An identity, a user and a password between zero bytes. -/
def plainMessage (authzid authcid passwd : Bytes) : Bytes :=
  authzid ++ 0 :: (authcid ++ 0 :: passwd)

/-- The string behind AUTH PLAIN that `Client::authPlain` sends. -/
def plainResponse (username password : Bytes) : Option Bytes :=
  Base64.encode (plainMessage [] username password)

/-- `Base64::decode` of a string with something behind it in memory. -/
def base64 (behind : ℕ → UInt8) (plain : Bytes) : Option Bytes :=
  Base64.decode (Base64.stored plain behind) plain.length

/-- The user and the password that `authPlain` hands to `onAuthUsernamePasswd`; none when
it answers 501. -/
def credentials (decode : Bytes → Option Bytes) (plain : Bytes) : Option (Bytes × Bytes) :=
  match decode plain with
  | none => none
  | some userPasswd =>
    if userPasswd = [] ∨ (plainParts userPasswd).1 = [] ∨ (plainParts userPasswd).2 = [] then none
    else some (plainParts userPasswd)

theorem authPlain_eq (decode : Bytes → Option Bytes) (plain : Bytes) :
    (∀ username passwd, credentials decode plain = some (username, passwd) →
      authPlain decode plain = onAuthUsernamePasswd username passwd) ∧
    (credentials decode plain = none → (authPlain decode plain).code = 501) := by
  rw [credentials, authPlain]
  cases decode plain with
  | none => exact ⟨fun _ _ h => absurd h (by simp), fun _ => rfl⟩
  | some userPasswd =>
    simp only
    by_cases hempty : userPasswd = []
    · simp [hempty, Reply.create]
    · by_cases hparts : (plainParts userPasswd).1 = [] ∨ (plainParts userPasswd).2 = []
      · simp [hempty, hparts, Reply.create]
      · simp [hempty, hparts, onAuthUsernamePasswd]

/-- The first zero byte is the one behind a string that has none. -/
theorem find_separator {a : Bytes} (h : 0 ∉ a) (b : Bytes) : find (a ++ 0 :: b) 0 = a.length := by
  rw [find, idxOf?_separator h]
  rfl

/-- **What the server reads**: of the user as many bytes as it is longer than the identity,
less one, and of the whole message what is behind the length of the user. -/
theorem plainParts_message {authzid authcid : Bytes} (hz : 0 ∉ authzid) (hc : 0 ∉ authcid)
    (hne : authcid ≠ []) (passwd : Bytes)
    (hlen : (plainMessage authzid authcid passwd).length < 2 ^ 32) :
    plainParts (plainMessage authzid authcid passwd) =
      (substr (plainMessage authzid authcid passwd) (authzid.length + 1)
          ((authcid.length + 2 ^ 64 - (authzid.length + 1)) % 2 ^ 64),
        (plainMessage authzid authcid passwd).drop (authcid.length + 1)) := by
  have hlens : authzid.length + authcid.length + 2 ≤
      (plainMessage authzid authcid passwd).length := by
    simp only [plainMessage, List.length_append, List.length_cons]
    omega
  have hpos : (if (plainMessage authzid authcid passwd).headD 0 ≠ 0 then
        let tmp := find (plainMessage authzid authcid passwd) 0
        if 0 < tmp then (tmp + 1) % 2 ^ 64 else 1
      else 1) = authzid.length + 1 := by
    cases authzid with
    | nil => rfl
    | cons c authzid =>
      have hfirst : (plainMessage (c :: authzid) authcid passwd).headD 0 ≠ 0 :=
        fun heq => hz (heq ▸ List.mem_cons_self)
      rw [if_pos hfirst]
      show (if 0 < find (plainMessage (c :: authzid) authcid passwd) 0 then
        (find (plainMessage (c :: authzid) authcid passwd) 0 + 1) % 2 ^ 64 else 1) = _
      rw [plainMessage, find_separator hz, if_pos (by simp), Nat.mod_eq_of_lt (by omega)]
  have hrest : find (substr (plainMessage authzid authcid passwd) (authzid.length + 1) 0) 0 =
      authcid.length := by
    rw [substr_rest, plainMessage, List.drop_length_add_append, List.drop_succ_cons, List.drop_zero,
      find_separator hc]
  simp only [plainParts, hpos, hrest]
  rw [if_pos (List.length_pos_iff.mpr hne),
    Nat.mod_eq_of_lt (show authcid.length + 1 < 2 ^ 64 by omega), substr_rest]

/-- **No response is understood**: neither that of the client nor one with an identity gives
the server the user and the password that it was made of. -/
theorem not_understood {username passwd : Bytes} (hu : 0 ∉ username) (behind : ℕ → UInt8) :
    (∀ plain, plainResponse username passwd = some plain →
      credentials (base64 behind) plain ≠ some (username, passwd)) ∧
    ∀ authzid, 0 ∉ authzid →
      credentials (base64 behind) (Base64.encodeText (plainMessage authzid username passwd)) ≠
        some (username, passwd) := by
  have hmessage : ∀ authzid, 0 ∉ authzid →
      credentials (base64 behind) (Base64.encodeText (plainMessage authzid username passwd)) ≠
        some (username, passwd) := by
    intro authzid hz h
    rw [credentials] at h
    cases hdecode : base64 behind (Base64.encodeText (plainMessage authzid username passwd)) with
    | none => simp [hdecode] at h
    | some userPasswd =>
      have hnil : plainMessage authzid username passwd ≠ [] := by simp [plainMessage]
      obtain rfl : plainMessage authzid username passwd = userPasswd :=
        Option.some.inj ((Base64.loop_encodeText behind hnil).symm.trans
          (Base64.loop_of_decode hdecode))
      simp only [hdecode, Option.ite_none_left_eq_some, not_or] at h
      obtain ⟨⟨-, huser, -⟩, h⟩ := h
      have hne : username ≠ [] := fun hnil =>
        huser ((congrArg Prod.fst (Option.some.inj h)).trans hnil)
      rw [plainParts_message hz hu hne passwd (Base64.decode_length_lt hdecode)] at h
      -- the password still has the identity and two zero bytes in front of it, less the user
      have hlen := congrArg List.length (congrArg Prod.snd (Option.some.inj h))
      simp only [plainMessage, List.length_drop, List.length_append, List.length_cons] at hlen
      omega
  refine ⟨fun plain hplain => ?_, hmessage⟩
  rw [plainResponse, Base64.encode_eq, Option.ite_none_right_eq_some] at hplain
  rw [← Option.some.inj hplain.2]
  exact hmessage [] List.not_mem_nil

theorem not_understood_joe :
    (∀ plain, plainResponse (ascii "joe") (ascii "secret") = some plain →
      credentials (base64 fun _ => 0) plain ≠ some (ascii "joe", ascii "secret")) ∧
    ∀ authzid, 0 ∉ authzid →
      credentials (base64 fun _ => 0)
        (Base64.encodeText (plainMessage authzid (ascii "joe") (ascii "secret"))) ≠
        some (ascii "joe", ascii "secret") :=
  not_understood (by decide) _

/-- The last letter of the user is lost, and the password begins with the zero byte. -/
theorem joe_misread :
    ((plainResponse (ascii "joe") (ascii "secret")).bind fun plain =>
      credentials (base64 fun _ => 0) plain) = some (ascii "jo", 0 :: ascii "secret") := by
  decide +kernel

end Smtp

end Suil
