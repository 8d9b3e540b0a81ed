/-
What the URL-safe decoder accepts.

The decoder checks the characters of a group only while more than four are left,
so nothing is checked in the last group, and a last group of one character stands
for no byte.

* `urlDecodeText_eq_none_iff` — the texts that are refused for a character;
* `urlDecode_of_some` — what is read is returned when the buffer has room for it;
* `urlDecode_urlEncode_and_accepts_iff` — the byte strings that come back, and the
  texts that are answered as their characters and their length demand.
-/
import Suil.Base64Url

namespace Suil.Base64

/-- The characters are those of the alphabets, and an encoder can produce the length. -/
def UrlAccepted (text : Bytes) : Prop := (∀ c ∈ text, urlLookup c ≠ 64) ∧ text.length % 4 ≠ 1

instance (text : Bytes) : Decidable (UrlAccepted text) :=
  inferInstanceAs (Decidable ((∀ c ∈ text, urlLookup c ≠ 64) ∧ text.length % 4 ≠ 1))

/-- A character that is not in the alphabets stands before the last group. -/
def UrlSpoilt (text : Bytes) : Prop :=
  ∃ c ∈ text.take (4 * ((text.length - 1) / 4)), urlLookup c = 64

instance (text : Bytes) : Decidable (UrlSpoilt text) :=
  inferInstanceAs (Decidable (∃ c ∈ text.take (4 * ((text.length - 1) / 4)), urlLookup c = 64))

/-- The buffer has room for what is read from `n` groups and a part of one. -/
def UrlRoomy (n : ℕ) : Prop := aligned (3 * n) < 2 ^ 32 ∧ Roomy n

instance (n : ℕ) : Decidable (UrlRoomy n) :=
  inferInstanceAs (Decidable (aligned (3 * n) < 2 ^ 32 ∧ Roomy n))

/-! ### The characters -/

theorem urlSpoilt_group (a b c d e : UInt8) (text : Bytes) :
    UrlSpoilt (a :: b :: c :: d :: e :: text) ↔
      (urlLookup a = 64 ∨ urlLookup b = 64 ∨ urlLookup c = 64 ∨ urlLookup d = 64) ∨
        UrlSpoilt (e :: text) := by
  have hlen : 4 * (((a :: b :: c :: d :: e :: text).length - 1) / 4) =
      4 * (((e :: text).length - 1) / 4) + 4 := by
    simp only [List.length_cons]
    omega
  rw [UrlSpoilt, UrlSpoilt, hlen]
  simp only [List.take_succ_cons, List.mem_cons, exists_eq_or_imp, or_assoc]

/-- One group is the last one. -/
theorem not_urlSpoilt {text : Bytes} (h : text.length ≤ 4) : ¬UrlSpoilt text := by
  rintro ⟨c, hc, -⟩
  rw [show 4 * ((text.length - 1) / 4) = 0 by omega, List.take_zero] at hc
  exact List.not_mem_nil hc

/-- **The texts that are refused** for a character. -/
theorem urlDecodeText_eq_none_iff : ∀ text : Bytes, urlDecodeText text = none ↔ UrlSpoilt text
  | a :: b :: c :: d :: e :: text => by
    have ih := urlDecodeText_eq_none_iff (e :: text)
    rw [urlDecodeText, urlSpoilt_group]
    split_ifs with hbad
    · exact iff_of_true rfl (Or.inl hbad)
    · rw [Option.map_eq_none_iff, ih, or_iff_right hbad]
  | [a, b, c, d] => iff_of_false nofun (not_urlSpoilt le_rfl)
  | [a, b, c] => iff_of_false nofun (not_urlSpoilt (by simp))
  | [a, b] => iff_of_false nofun (not_urlSpoilt (by simp))
  | [a] => iff_of_false nofun (not_urlSpoilt (by simp))
  | [] => iff_of_false nofun (not_urlSpoilt (by simp))

/-- A spoilt text is not accepted. -/
theorem UrlSpoilt.not_accepted {text : Bytes} (h : UrlSpoilt text) : ¬UrlAccepted text := by
  obtain ⟨c, hc, hbad⟩ := h
  exact fun haccepted => haccepted.1 c (List.mem_of_mem_take hc) hbad

/-- Three bytes a group, and one or two for a last group that is short. -/
theorem length_of_urlDecodeText : ∀ {text data : Bytes}, urlDecodeText text = some data →
    data.length = 3 * (text.length / 4) + (text.length % 4 - 1)
  | a :: b :: c :: d :: e :: text, data, h => by
    rw [urlDecodeText, Option.ite_none_left_eq_some] at h
    obtain ⟨rest, hrest, rfl⟩ := Option.map_eq_some_iff.mp h.2
    have ih := length_of_urlDecodeText hrest
    simp only [List.length_cons] at ih ⊢
    omega
  | [a, b, c, d], _, rfl => by simp
  | [a, b, c], _, rfl => by simp
  | [a, b], _, rfl => by simp
  | [a], _, rfl => by simp
  | [], _, rfl => by simp

/-! ### The buffer -/

/-- Growing keeps the size a multiple of the alignment, below 2^32. -/
theorem reserve_size {ob ob' : Buffer} (h : ob.Sound) {n : ℕ} (hreserve : ob.reserve n = some ob') :
    ob'.size ≤ 2 ^ 32 - 8 := by
  have hdvd := h.aligned
  have hlt := h.size_lt
  rw [Buffer.reserve] at hreserve
  split_ifs at hreserve with hfull
  · rcases Nat.eq_zero_or_pos (max ob.size ((n - ob.capacity) % 2 ^ 32)) with hzero | hpos
    · rw [hzero] at hreserve
      obtain rfl := Option.some.inj hreserve
      omega
    · have hsize := Buffer.grow_size hreserve hpos
      have hmore := dvd_aligned (max ob.size ((n - ob.capacity) % 2 ^ 32))
      omega
  · obtain rfl := Option.some.inj hreserve
    omega

/-- **What is read is returned** when the buffer has room for it. -/
theorem urlDecode_of_some {text data : Bytes} (h : urlDecodeText text = some data) :
    urlDecode text = if UrlRoomy (text.length / 4) then some data else none := by
  have hlen := length_of_urlDecodeText h
  set n := text.length / 4 with hn
  have hmod : text.length % 4 < 4 := Nat.mod_lt _ (by norm_num)
  have hdvd := dvd_aligned (3 * n)
  have hup := le_aligned (3 * n)
  by_cases hbig : aligned (3 * n) < 2 ^ 32
  · -- neither the size nor the reserve wraps
    have hsizes : n % 2 ^ 32 * 3 % 2 ^ 32 = 3 * n ∧ (n * 3 + 4) % 2 ^ 32 = 3 * n + 4 := by omega
    have hroom := room_eq hbig (show data.length ≤ 3 * n + 3 by omega) (by omega)
    have hiff : UrlRoomy n ↔ Roomy n := and_iff_right hbig
    simp only [urlDecode, ← hn, hsizes.1, hsizes.2, h, Option.bind_eq_bind, Option.bind_some, hiff]
    exact hroom
  · rw [if_neg fun h => hbig h.1]
    have hnear := aligned_lt (3 * n)
    -- no buffer has a size that `seek` would let the offset move to
    cases hdecode : urlDecode text with
    | none => rfl
    | some out =>
      obtain ⟨ob, hnew, hdecode⟩ := Option.bind_eq_some_iff.mp hdecode
      obtain ⟨ob₁, hreserve, hdecode⟩ := Option.bind_eq_some_iff.mp hdecode
      obtain ⟨d, hd, hdecode⟩ := Option.bind_eq_some_iff.mp hdecode
      obtain ⟨ob₂, hcopy, hdecode⟩ := Option.bind_eq_some_iff.mp hdecode
      obtain ⟨hfits, -⟩ := Option.ite_none_right_eq_some.mp hdecode
      obtain ⟨ob', hnew', -, -, hsound⟩ := Buffer.new_eq_some (n % 2 ^ 32 * 3 % 2 ^ 32)
      obtain rfl := Option.some.inj (hnew.symm.trans hnew')
      obtain rfl := Option.some.inj (hd.symm.trans h)
      obtain ⟨-, hbytes, hsize, -⟩ := Buffer.copyIn_eq_some_iff.mp hcopy
      have hbound := reserve_size hsound hreserve
      rw [hbytes, hsize, List.length_append] at hfits
      omega

/-! ### The byte strings and the texts -/

theorem urlEncodeText_of_urlEncode {data text : Bytes} (h : urlEncode data = some text) :
    urlEncodeText data = some text := by
  obtain ⟨ob, hnew, h⟩ := Option.bind_eq_some_iff.mp h
  obtain ⟨ob', hto, htext⟩ := Option.bind_eq_some_iff.mp h
  obtain ⟨out, hout, hbytes⟩ := urlEncodeTo_bytes hto
  obtain ⟨b, hnew', hempty, -⟩ := Buffer.new_eq_some (2 + (data.length + 2) / 3 * 4)
  obtain rfl := Option.some.inj (hnew.symm.trans hnew')
  rw [← Option.some.inj htext, hbytes, hempty, List.nil_append, hout]

/-- What is encoded is a text of the first bytes, of all of them below 2^31. -/
theorem urlEncode_long {data text : Bytes} (hlong : 2 ^ 31 ≤ data.length)
    (h : urlEncode data = some text) : ∃ m < data.length, text = urlText (data.take m) :=
  urlEncodeText_cut hlong (urlEncodeText_of_urlEncode h)

theorem urlRoomy_text {n : ℕ} (h : n < 2 ^ 31) : UrlRoomy ((4 * n + 2) / 3 / 4) ↔ n + 2 < 2 ^ 31 := by
  rw [UrlRoomy, Roomy, aligned]
  omega

/-- The byte strings that come back. -/
theorem urlDecode_urlEncode_iff (data : Bytes) :
    (urlEncode data).bind urlDecode = some data ↔ data.length + 2 < 2 ^ 31 := by
  by_cases hlen : data.length < 2 ^ 31
  · rw [urlEncode_eq hlen, Option.bind_some, urlDecode_of_some (urlDecodeText_urlText data),
      length_urlText, ← urlRoomy_text hlen, Option.ite_none_right_eq_some]
    simp
  · -- what is encoded is shorter than the data, and so is what comes back
    refine iff_of_false (fun h => ?_) (by omega)
    obtain ⟨text, hencode, hdecode⟩ := Option.bind_eq_some_iff.mp h
    obtain ⟨m, hm, rfl⟩ := urlEncode_long (not_lt.mp hlen) hencode
    rw [urlDecode_of_some (urlDecodeText_urlText _), Option.ite_none_right_eq_some] at hdecode
    have hshort := congrArg List.length (Option.some.inj hdecode.2)
    rw [List.length_take] at hshort
    omega

/-- A text that is refused is not decoded. -/
theorem urlDecode_of_none {text : Bytes} (h : urlDecodeText text = none) : urlDecode text = none := by
  cases hdecode : urlDecode text with
  | none => rfl
  | some out =>
    obtain ⟨ob, -, hdecode⟩ := Option.bind_eq_some_iff.mp hdecode
    obtain ⟨ob₁, -, hdecode⟩ := Option.bind_eq_some_iff.mp hdecode
    obtain ⟨d, hd, -⟩ := Option.bind_eq_some_iff.mp hdecode
    rw [h] at hd
    cases hd

/-- **The byte strings that come back**, and the texts that are answered as their characters and
their length demand: accepted ones are decoded and the others are refused for a character. -/
theorem urlDecode_urlEncode_and_accepts_iff (data text : Bytes) :
    ((urlEncode data).bind urlDecode = some data ↔ data.length + 2 < 2 ^ 31) ∧
      ((if UrlAccepted text then ∃ out, urlDecode text = some out
        else urlDecode text = none ∧ urlDecodeText text = none) ↔
          UrlAccepted text ∧ UrlRoomy (text.length / 4) ∨ UrlSpoilt text) := by
  refine ⟨urlDecode_urlEncode_iff data, ?_⟩
  split_ifs with haccepted
  · have hwhole : ¬UrlSpoilt text := fun h => h.not_accepted haccepted
    obtain ⟨out, hout⟩ := Option.ne_none_iff_exists'.mp
      ((urlDecodeText_eq_none_iff text).not.mpr hwhole)
    rw [urlDecode_of_some hout, or_iff_left hwhole, and_iff_right haccepted]
    simp
  · rw [urlDecodeText_eq_none_iff, or_iff_right fun h => haccepted h.1]
    exact and_iff_right_of_imp fun h =>
      urlDecode_of_none ((urlDecodeText_eq_none_iff text).mpr h)

/-- A lone character, and a last group of other characters, are decoded. -/
theorem not_urlDecode_accepts :
    ¬((∃ out, urlDecode (ascii "A") = some out) ↔ UrlAccepted (ascii "A")) ∧
      ¬((∃ out, urlDecode (ascii "AAAA!!!!") = some out) ↔ UrlAccepted (ascii "AAAA!!!!")) := by
  constructor
  · intro h
    have hdecode : urlDecode (ascii "A") = some [] := by decide +kernel
    exact absurd (h.mp ⟨_, hdecode⟩) (by decide +kernel)
  · intro h
    have hdecode : urlDecode (ascii "AAAA!!!!") = some [0, 0, 0, 4, 16, 64] := by decide +kernel
    exact absurd (h.mp ⟨_, hdecode⟩) (by decide +kernel)

end Suil.Base64
