/-
Signatures in compact form.

`toCompactForm` writes `r` and `s` with leading zeros, and `fromCompactForm` reads as many bytes.
The base64 text may be longer than what it is read into: `b642bin` logs that, and copies all of
the bytes.

* `fromCompactForm_toCompactForm` — a signature comes back;
* `decodeLoop_stored` — how many bytes a text is decoded to, with a zero byte behind it;
* `within_iff` — the texts of which no byte is copied behind the destination;
* `compactForms_iff` — both.
-/
import Suil.Crypto
import Suil.Base64Reading

namespace Suil.Crypto

open Base64 (stored decodeLoop decodeLast lookup scan firstBad groupsBefore lastGroup Roomy)

variable {Point : Type} {o : OpenSSL Point} {sig : ECDSASignature} {r s : ℕ} {text out : Bytes}
  {behind : ℕ → UInt8}

/-! ### The destination -/

/-- A `String`. -/
abbrev Text := { t : Bytes // t.length < 2 ^ 32 }

/-- The bytes that `b642bin` and `hex2bin` put into `compact`, from its first on; none when they
fail before. -/
def copied (behind : ℕ → UInt8) (b64 : Bool) (text : Bytes) : Option Bytes :=
  if b64 then Base64.decode (stored text behind) text.length else bytes text 65

theorem copied_filled (behind : ℕ → UInt8) (b64 : Bool) (text : Bytes) :
    (if b64 then b642bin behind 65 text else hex2bin 65 text) =
      (copied behind b64 text).bind (Blob.filled 65) := by
  cases b64 <;> rfl

/-- The call fails, or writes only inside of `compact`. -/
def Within (behind : ℕ → UInt8) (b64 : Bool) (text : Bytes) : Prop :=
  ∀ out, copied behind b64 text = some out → out.length ≤ 65

/-! ### How long a text is decoded -/

/-- The groups before the last one have no bad character, and the first one of the last group, if
there is one, is a pad. -/
def Decodable (text : Bytes) : Prop :=
  firstBad (groupsBefore text) = (groupsBefore text).length ∧
    (firstBad (lastGroup text) = (lastGroup text).length ∨
      (lastGroup text)[firstBad (lastGroup text)]? = some 61)

/-- The bytes of the last group.  `sz -= 4-i` is a subtraction of `size_t`, so that less than four
make three bytes. -/
def lastBytes (n : ℕ) : ℕ := if n < 4 then 3 else n - 5

/-- Three bytes for each group before the last one, and the last ones. -/
def decodedLength (text : Bytes) : ℕ :=
  3 * ((text.length - 1) / 4) + lastBytes ((lastGroup text).length + firstBad (lastGroup text))

instance (text : Bytes) : Decidable (Decodable text) := inferInstanceAs (Decidable (_ ∧ (_ ∨ _)))

theorem stored_of_lt {l : Bytes} {j : ℕ} (hj : j < l.length) : stored l behind j = l[j] := by
  induction l generalizing j with
  | nil => exact absurd hj (Nat.not_lt_zero j)
  | cons c l ih =>
    cases j with
    | zero => rfl
    | succ j => exact ih (Nat.lt_of_succ_lt_succ hj)

theorem stored_length (l : Bytes) : stored l behind l.length = 0 := by
  induction l with
  | nil => rfl
  | cons c l ih => exact ih

/-- The zero byte behind a last group ends the scan. -/
theorem scan_stored {l : Bytes} (hlen : l.length ≤ 4) :
    scan (stored l behind) 5 0 = firstBad l := by
  have hle := Base64.firstBad_le l
  refine Base64.scan_eq (fun j _ hj => ?_) ?_ (Nat.zero_le _) (by omega) (by omega)
  · have hin : j < l.length := by omega
    have hgood := Base64.lookup_of_lt hj hin
    rw [stored_of_lt hin]
    exact ⟨fun heq => hgood (by rw [heq]; decide), hgood⟩
  · rcases Nat.lt_or_eq_of_le hle with hlt | heq
    · rw [stored_of_lt hlt]
      exact .inr (Base64.lookup_firstBad hlt)
    · rw [heq, stored_length]
      exact .inr (by decide)

/-- The last group. -/
theorem decodeLast_stored {l : Bytes} (hlen : l.length ≤ 4) :
    if firstBad l = l.length ∨ l[firstBad l]? = some 61 then
      ∃ out, decodeLast (stored l behind) l.length = some out ∧
        out.length = lastBytes (l.length + firstBad l)
    else decodeLast (stored l behind) l.length = none := by
  have hle := Base64.firstBad_le l
  have hread : (l.length ≠ firstBad l ∧ stored l behind (firstBad l) ≠ 61) ↔
      ¬ (firstBad l = l.length ∨ l[firstBad l]? = some 61) := by
    rw [not_or]
    refine and_congr ne_comm ?_
    rcases Nat.lt_or_eq_of_le hle with hlt | heq
    · rw [stored_of_lt hlt, List.getElem?_eq_getElem hlt, Option.some_inj]
    · rw [heq, stored_length, List.getElem?_eq_none le_rfl]
      exact iff_of_true (by decide) (by simp)
  rw [decodeLast, scan_stored hlen]
  dsimp only
  by_cases hgood : firstBad l = l.length ∨ l[firstBad l]? = some 61
  · rw [if_pos hgood, if_neg fun h => hread.mp h hgood]
    refine ⟨_, rfl, ?_⟩
    simp only [List.length_append, lastBytes, apply_ite List.length, List.length_singleton,
      List.length_nil]
    split_ifs <;> omega
  · rw [if_neg hgood, if_pos (hread.mpr hgood)]

theorem decodable_short {l : Bytes} (hlen : l.length ≤ 4) :
    Decodable l ↔ firstBad l = l.length ∨ l[firstBad l]? = some 61 := by
  rw [Decodable, Base64.groupsBefore_short hlen, Base64.lastGroup_short hlen]
  exact and_iff_right rfl

/-- A group before the last one has four characters of the alphabet. -/
theorem decodable_group (a b c d e : UInt8) (text : Bytes) :
    Decodable (a :: b :: c :: d :: e :: text) ↔
      ¬ (lookup a = 64 ∨ lookup b = 64 ∨ lookup c = 64 ∨ lookup d = 64) ∧
        Decodable (e :: text) := by
  have hbad : (lookup a = 64 ∨ lookup b = 64 ∨ lookup c = 64 ∨ lookup d = 64) ↔
      firstBad [a, b, c, d] < 4 := by
    show _ ↔ List.findIdx _ _ < [a, b, c, d].length
    rw [List.findIdx_lt_length]
    simp
  have hfirst := Base64.firstBad_append [a, b, c, d] (groupsBefore (e :: text))
  have hle := Base64.firstBad_le (groupsBefore (e :: text))
  rw [Decodable, Decodable, Base64.groupsBefore_group, Base64.lastGroup_group, hbad, ← and_assoc]
  refine and_congr_left fun _ => ?_
  show firstBad ([a, b, c, d] ++ groupsBefore (e :: text)) =
    (groupsBefore (e :: text)).length + 4 ↔ _
  rw [hfirst]
  show (if firstBad [a, b, c, d] < 4 then _ else _ + 4) = _ ↔ _
  split_ifs with hlt
  · exact iff_of_false (by omega) fun h => h.1 hlt
  · rw [and_iff_right hlt, Nat.add_left_inj]

theorem decodedLength_group (a b c d e : UInt8) (text : Bytes) :
    decodedLength (a :: b :: c :: d :: e :: text) = decodedLength (e :: text) + 3 := by
  rw [decodedLength, decodedLength, Base64.lastGroup_group]
  simp only [List.length_cons]
  omega

/-- **How many bytes a text is decoded to**, by induction on its groups. -/
theorem decodeLoop_stored (behind : ℕ → UInt8) : ∀ text : Bytes,
    if Decodable text then
      ∃ out, decodeLoop (stored text behind) text.length = some out ∧
        out.length = decodedLength text
    else decodeLoop (stored text behind) text.length = none := by
  refine Base64.group_cases (fun l hl => ?_) fun a b c d e text ih => ?_
  · have hlast : decodeLoop (stored l behind) l.length = decodeLast (stored l behind) l.length := by
      obtain ⟨n, hn⟩ : ∃ n, l.length = n := ⟨_, rfl⟩
      rw [hn] at hl ⊢
      rw [decodeLoop]
      intro sz hsz
      omega
    have hlength : decodedLength l = lastBytes (l.length + firstBad l) := by
      rw [decodedLength, Base64.lastGroup_short hl, show (l.length - 1) / 4 = 0 by omega]
      exact Nat.zero_add _
    simp only [decodable_short hl, hlast, hlength]
    exact decodeLast_stored hl
  · have hstep : decodeLoop (stored (a :: b :: c :: d :: e :: text) behind)
        (a :: b :: c :: d :: e :: text).length =
        if lookup a = 64 ∨ lookup b = 64 ∨ lookup c = 64 ∨ lookup d = 64 then none
        else (decodeLoop (stored (e :: text) behind) (e :: text).length).map fun data =>
          Base64.byte₀ (stored (a :: b :: c :: d :: e :: text) behind) ::
            Base64.byte₁ (stored (a :: b :: c :: d :: e :: text) behind) ::
            Base64.byte₂ (stored (a :: b :: c :: d :: e :: text) behind) :: data := by
      rw [show (a :: b :: c :: d :: e :: text).length = text.length + 5 from rfl, decodeLoop]
      rfl
    rw [hstep, decodedLength_group]
    simp only [decodable_group]
    by_cases hbad : lookup a = 64 ∨ lookup b = 64 ∨ lookup c = 64 ∨ lookup d = 64
    · rw [if_pos hbad, if_neg fun h => h.1 hbad]
    · rw [if_neg hbad]
      by_cases hrest : Decodable (e :: text)
      · rw [if_pos ⟨hbad, hrest⟩]
        rw [if_pos hrest] at ih
        obtain ⟨out, hout, hlen⟩ := ih
        exact ⟨_, congrArg (Option.map _) hout, by simp only [List.length_cons, hlen]⟩
      · rw [if_neg fun h => hrest h.2]
        rw [if_neg hrest] at ih
        exact congrArg (Option.map _) ih

theorem decodedLength_bounds (text : Bytes) : decodedLength text ≤ 3 * (text.length / 4) + 3 ∧
    3 * (text.length / 4) ≤ decodedLength text + 3 := by
  have hle := Base64.firstBad_le (lastGroup text)
  have hlast := Base64.length_lastGroup_le text
  rw [decodedLength, lastBytes]
  split_ifs
  · omega
  · omega

/-! ### The forms -/

/-- **The texts of which no byte is copied behind the destination.** -/
theorem within_iff (behind : ℕ → UInt8) (b64 : Bool) (text : Text) :
    Within behind b64 text.val ↔ ¬ (b64 = true ∧ Decodable text.val ∧
      65 < decodedLength text.val ∧ Roomy (text.val.length / 4)) := by
  cases b64 with
  | false =>
    refine iff_of_true (fun out hout => ?_) fun h => Bool.false_ne_true h.1
    change bytes text.val 65 = some out at hout
    rw [bytes] at hout
    split_ifs at hout with hlong
    have hlen := length_hexPairs_le hout
    omega
  | true =>
    have hloop := decodeLoop_stored behind text.val
    obtain ⟨hle, hge⟩ := decodedLength_bounds text.val
    rw [Within]
    show (∀ out, Base64.decode _ _ = some out → _) ↔ _
    by_cases hdec : Decodable text.val
    · rw [if_pos hdec] at hloop
      obtain ⟨out, hout, hlen⟩ := hloop
      rw [Base64.decode_of_loop text.2 hout (hlen ▸ hle) (hlen ▸ hge)]
      by_cases hroomy : Roomy (text.val.length / 4)
      · rw [if_pos hroomy]
        constructor
        · rintro h ⟨-, -, hmore, -⟩
          have hshort := h out rfl
          omega
        · intro h out' hout'
          obtain rfl := Option.some.inj hout'
          by_contra hmore
          exact h ⟨rfl, hdec, by omega, hroomy⟩
      · rw [if_neg hroomy]
        exact iff_of_true (fun out h => by cases h) fun h => hroomy h.2.2.2
    · rw [if_neg hdec] at hloop
      refine iff_of_true (fun out hout => ?_) fun h => hdec h.2.1
      rw [Base64.loop_of_decode hout] at hloop
      cases hloop

/-- **A signature comes back**, with its `RecId`. -/
theorem fromCompactForm_toCompactForm (h : Trusted o) (hsig : Holds o sig r s)
    (hlow : -128 ≤ sig.recId) (hhigh : sig.recId < 128) (behind : ℕ → UInt8) (b64 : Bool) :
    fromCompactForm o behind b64 (toCompactForm o b64 sig) = sig := by
  rw [hsig.read_compact h behind b64]
  have hrec : ((UInt8.ofNat ((sig.recId + 31) % 256).toNat).toNat - 31 + 128 : ℤ) % 256 - 128 =
      sig.recId := by
    rw [UInt8.toNat_ofNat']
    omega
  rw [hrec]

/-- **When the compact form is read as it should be**: a signature always, and a text unless it is
decoded to more than 65 bytes. -/
theorem compactForms_iff (h : Trusted o) :
    (∀ sig r s, Holds o sig r s → -128 ≤ sig.recId → sig.recId < 128 → ∀ behind b64,
      fromCompactForm o behind b64 (toCompactForm o b64 sig) = sig) ∧
    ∀ behind b64 (text : Text), Within behind b64 text.val ↔ ¬ (b64 = true ∧
      Decodable text.val ∧ 65 < decodedLength text.val ∧ Roomy (text.val.length / 4)) :=
  ⟨fun _ _ _ hsig hlow hhigh => fromCompactForm_toCompactForm h hsig hlow hhigh, within_iff⟩

theorem compactForms_secp256k1 :
    (∀ sig r s, Holds secp256k1 sig r s → -128 ≤ sig.recId → sig.recId < 128 → ∀ behind b64,
      fromCompactForm secp256k1 behind b64 (toCompactForm secp256k1 b64 sig) = sig) ∧
    ∀ behind b64 (text : Text), Within behind b64 text.val ↔ ¬ (b64 = true ∧
      Decodable text.val ∧ 65 < decodedLength text.val ∧ Roomy (text.val.length / 4)) :=
  compactForms_iff trusted_secp256k1

/-- 88 characters are decoded to 66 bytes, all of which are copied. -/
theorem not_within : ¬ ∀ behind b64 (text : Text), Within behind b64 text.val := by
  intro h
  have hwithin := h (fun _ => 0) true ⟨List.replicate 88 65, by decide⟩
  rw [within_iff] at hwithin
  exact hwithin ⟨rfl, by decide +kernel, by decide +kernel, by decide +kernel⟩

end Suil.Crypto
