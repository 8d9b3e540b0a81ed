/-
Encryption with AES-256-CBC.

OpenSSL's cipher is a parameter, with what is relied on as a list of assumptions.  The
decryption puts a zero byte behind the plain text and counts it.

* `decryptBin_encryptBin`, `decrypt_text` — what comes back is the text and a zero byte;
* `encryptBin_isSome`, `decryptBin_isSome` — both write within their buffers, whatever
  they are given;
* `round_trips_never` — no text comes back as it was, in any of the three forms.
-/
import Suil.Base64Url
import Suil.Lib.BlockCipher

namespace Suil

namespace Encryption

open Base64 (int32 groups encodeText stored)

/-- What is used of OpenSSL, where the key and the first block come from a secret by
`EVP_BytesToKey`: what each call writes for an input that is given in one piece. -/
structure EVP where
  /-- `EVP_EncryptUpdate` -/
  encryptUpdate : Bytes → Bytes → Bytes
  /-- `EVP_EncryptFinal_ex`, behind what the first call wrote -/
  encryptFinal : Bytes → Bytes → Bytes
  /-- `EVP_DecryptUpdate`: what it writes, and how much of it it tells -/
  decryptUpdate : Bytes → Bytes → Bytes × ℕ
  /-- `EVP_DecryptFinal_ex`, behind what was told; none when it fails -/
  decryptFinal : Bytes → Bytes → Option Bytes

/-- The encryption of a text. -/
def EVP.encrypt (evp : EVP) (secret x : Bytes) : Bytes :=
  evp.encryptUpdate secret x ++ evp.encryptFinal secret x

/-- What is relied on: blocks of 16 bytes with PKCS#7 padding. -/
structure EVP.Trusted (evp : EVP) : Prop where
  length_encrypt : ∀ secret x, (evp.encrypt secret x).length = (x.length / 16 + 1) * 16
  decrypt_encrypt : ∀ secret x, ∃ last,
    evp.decryptFinal secret (evp.encrypt secret x) = some last ∧
      (evp.decryptUpdate secret (evp.encrypt secret x)).1.take
        (evp.decryptUpdate secret (evp.encrypt secret x)).2 ++ last = x
  told_le : ∀ secret y, (evp.decryptUpdate secret y).2 ≤ (evp.decryptUpdate secret y).1.length
  written_le : ∀ secret y, (evp.decryptUpdate secret y).1.length ≤ y.length
  last_lt : ∀ secret y last, evp.decryptFinal secret y = some last →
    (evp.decryptUpdate secret y).2 + last.length < y.length

section

variable (evp : EVP)

/-- `AES_EncryptBin`.  Like the calls below it is `none` when the call throws or leaves its
buffer; it also is when `EVP_BytesToKey` is given a secret of 2^31 bytes, which it takes to
be of a length below zero. -/
def encryptBin (secret x : Bytes) : Option Bytes :=
  if int32 secret.length < 0 then none
  else
    let cipherLen := int32 (x.length + 16)
    -- `malloc` of a size below zero fails, and so does `EVP_EncryptUpdate`
    if cipherLen < 0 ∨ int32 x.length < 0 then some []
    else
      let data := x.take (int32 x.length).toNat
      if (evp.encrypt secret data).length ≤ cipherLen.toNat then some (evp.encrypt secret data)
      else none

/-- `AES_DecryptBin` -/
def decryptBin (secret y : Bytes) : Option Bytes :=
  if int32 secret.length < 0 then none
  else if int32 y.length < 0 then some []
  else
    let data := y.take (int32 y.length).toNat
    let written := (evp.decryptUpdate secret data).1
    let p_len := (evp.decryptUpdate secret data).2
    if written.length ≤ y.length then
      match evp.decryptFinal secret data with
      | none => some []
      | some last =>
        -- `plainText[p_len++] = '\0'`
        if p_len + last.length < y.length then some (written.take p_len ++ last ++ [0]) else none
    else none

/-- `AES_Encrypt` -/
def encrypt (secret x : Bytes) (b64 : Bool) : Option Bytes := do
  let bin ← encryptBin evp secret x
  if b64 then Base64.encode bin else some (hexText bin)

/-- `suil::bytes` of a text with something behind it in memory. -/
def bytesOf (behind : ℕ → UInt8) (b64 : Bool) (text : Bytes) : Option Bytes :=
  if b64 then do
    let ob ← Buffer.new 0
    let ob ← ob.reserve ((text.length / 4 * 3 + 4) % 2 ^ 32)
    let data ← Base64.decodeLoop (stored text behind) text.length
    let ob ← ob.copyIn data
    if ob.bytes.length ≤ ob.size then some ob.bytes else none
  else bytes text (text.length / 2 + 3)

/-- `AES_Decrypt` -/
def decrypt (behind : ℕ → UInt8) (secret text : Bytes) (b64 : Bool) : Option Bytes := do
  let dec ← bytesOf behind b64 text
  decryptBin evp secret dec

end

variable {evp : EVP} {secret x y out bin text : Bytes}

/-! ### Sizes -/

theorem int32_of_lt {n : ℕ} (h : n < 2 ^ 31) : int32 n = n := by
  rw [int32, Nat.mod_eq_of_lt (by omega), if_pos h]

theorem int32_nonneg {n : ℕ} (h : 0 ≤ int32 n) :
    (int32 n).toNat = n % 2 ^ 32 ∧ n % 2 ^ 32 < 2 ^ 31 := by
  rw [int32] at h ⊢
  split_ifs at h ⊢ with hlt
  · exact ⟨Int.toNat_natCast _, hlt⟩
  · omega

/-- Where both lengths are not below zero, the buffer has 16 bytes more than the input. -/
theorem int32_add (h : 0 ≤ int32 x.length) (h16 : 0 ≤ int32 (x.length + 16)) :
    (int32 (x.length + 16)).toNat = (int32 x.length).toNat + 16 := by
  obtain ⟨hn, hlt⟩ := int32_nonneg h
  obtain ⟨hn16, hlt16⟩ := int32_nonneg h16
  omega

/-- **The encryption has room for what it writes.** -/
theorem encryptBin_eq (h : evp.Trusted) (hsecret : 0 ≤ int32 secret.length) (x : Bytes) :
    encryptBin evp secret x =
      if int32 (x.length + 16) < 0 ∨ int32 x.length < 0 then some []
      else some (evp.encrypt secret (x.take (int32 x.length).toNat)) := by
  rw [encryptBin, if_neg (not_lt.mpr hsecret)]
  simp only
  split_ifs with hneg hfits
  · rfl
  · rfl
  · have hroom := int32_add (x := x) (by omega) (by omega)
    have hle := List.length_take_le (int32 x.length).toNat x
    rw [h.length_encrypt] at hfits
    omega

theorem encryptBin_isSome (h : evp.Trusted) (hsecret : 0 ≤ int32 secret.length) (x : Bytes) :
    (encryptBin evp secret x).isSome := by
  rw [encryptBin_eq h hsecret]
  split_ifs <;> rfl

/-- **The decryption has room for what it writes**, and for the zero byte, whatever it is
given. -/
theorem decryptBin_eq (h : evp.Trusted) (hsecret : 0 ≤ int32 secret.length) (y : Bytes) :
    decryptBin evp secret y =
      if int32 y.length < 0 then some []
      else
        let data := y.take (int32 y.length).toNat
        some (((evp.decryptFinal secret data).map fun last =>
          (evp.decryptUpdate secret data).1.take (evp.decryptUpdate secret data).2 ++ last ++
            [0]).getD []) := by
  rw [decryptBin, if_neg (not_lt.mpr hsecret)]
  split_ifs with hneg
  · rfl
  · have hle := List.length_take_le' (int32 y.length).toNat y
    generalize hdata : y.take (int32 y.length).toNat = data at hle ⊢
    simp only
    rw [if_pos ((h.written_le secret data).trans hle)]
    cases hlast : evp.decryptFinal secret data with
    | none => rfl
    | some last =>
      have hlt := h.last_lt secret data last hlast
      simp only [Option.map_some, Option.getD_some]
      rw [if_pos (by omega)]

theorem decryptBin_isSome (h : evp.Trusted) (hsecret : 0 ≤ int32 secret.length) (y : Bytes) :
    (decryptBin evp secret y).isSome := by
  rw [decryptBin_eq h hsecret]
  split_ifs <;> rfl

/-- What is decrypted is no longer than what it is decrypted from. -/
theorem length_decryptBin_le (h : evp.Trusted) (hout : decryptBin evp secret y = some out) :
    out.length ≤ y.length := by
  by_cases hsecret : int32 secret.length < 0
  · rw [decryptBin, if_pos hsecret] at hout
    cases hout
  rw [decryptBin, if_neg hsecret] at hout
  split_ifs at hout with hneg
  · obtain rfl := Option.some.inj hout
    exact Nat.zero_le _
  · have hle := List.length_take_le' (int32 y.length).toNat y
    generalize y.take (int32 y.length).toNat = data at hle hout
    simp only at hout
    split_ifs at hout
    cases hlast : evp.decryptFinal secret data with
    | none =>
      rw [hlast] at hout
      obtain rfl := Option.some.inj hout
      exact Nat.zero_le _
    | some last =>
      have hlt := h.last_lt secret data last hlast
      rw [hlast] at hout
      simp only [Option.ite_none_right_eq_some, Option.some.injEq] at hout
      obtain ⟨-, rfl⟩ := hout
      simp only [List.length_append, List.length_take, List.length_singleton]
      omega

/-! ### Back again -/

theorem decryptBin_encrypt (h : evp.Trusted) (hsecret : 0 ≤ int32 secret.length)
    (hx : x.length + 16 < 2 ^ 31) :
    decryptBin evp secret (evp.encrypt secret x) = some (x ++ [0]) := by
  have hlen : (evp.encrypt secret x).length < 2 ^ 31 := by
    rw [h.length_encrypt]
    omega
  obtain ⟨last, hlast, hplain⟩ := h.decrypt_encrypt secret x
  rw [decryptBin_eq h hsecret, int32_of_lt hlen, if_neg (by omega)]
  simp only [Int.toNat_natCast, List.take_length]
  rw [hlast, Option.map_some, hplain]
  rfl

/-- **What comes back** is the text and a zero byte. -/
theorem decryptBin_encryptBin (h : evp.Trusted) (hsecret : 0 ≤ int32 secret.length)
    (hx : x.length + 16 < 2 ^ 31) :
    (encryptBin evp secret x).bind (decryptBin evp secret) = some (x ++ [0]) := by
  rw [encryptBin_eq h hsecret, int32_of_lt hx, int32_of_lt (show x.length < 2 ^ 31 by omega),
    if_neg (by omega), Option.bind_some, Int.toNat_natCast, List.take_length]
  exact decryptBin_encrypt h hsecret hx

/-- A long text is cut, or there is no encryption. -/
theorem encryptBin_cases (hbin : encryptBin evp secret x = some bin) :
    0 ≤ int32 secret.length ∧
      ((x.length % 2 ^ 32 + 16 < 2 ^ 31 ∧
          bin = evp.encrypt secret (x.take (x.length % 2 ^ 32))) ∨
        bin = [] ∧ 3 < x.length) := by
  rw [encryptBin] at hbin
  simp only at hbin
  split_ifs at hbin with hsecret hneg hfits
  · refine ⟨not_lt.mp hsecret, Or.inr ⟨(Option.some.inj hbin).symm, ?_⟩⟩
    by_contra hshort
    rw [int32_of_lt (by omega), int32_of_lt (by omega)] at hneg
    omega
  · obtain ⟨hn, hlt⟩ := int32_nonneg (n := x.length) (by omega)
    obtain ⟨hn16, hlt16⟩ := int32_nonneg (n := x.length + 16) (by omega)
    refine ⟨not_lt.mp hsecret, Or.inl ⟨by omega, ?_⟩⟩
    rw [← Option.some.inj hbin, hn]

/-- Nothing that is read from the text of an encryption is decrypted to what was
encrypted. -/
theorem decryptBin_ne (h : evp.Trusted) (hbin : encryptBin evp secret x = some bin)
    (hy : y = bin ∨ bin = [] ∧ y.length ≤ 3) : decryptBin evp secret y ≠ some x := by
  intro hback
  obtain ⟨hsecret, ⟨hn, rfl⟩ | ⟨rfl, hlong⟩⟩ := encryptBin_cases hbin
  · have hcut : (x.take (x.length % 2 ^ 32)).length = x.length % 2 ^ 32 :=
      List.length_take_of_le (Nat.mod_le _ _)
    have hpos : evp.encrypt secret (x.take (x.length % 2 ^ 32)) ≠ [] := by
      refine List.ne_nil_of_length_pos ?_
      rw [h.length_encrypt]
      omega
    obtain rfl := hy.resolve_right fun hnil => hpos hnil.1
    rw [decryptBin_encrypt h hsecret (by omega)] at hback
    -- the zero byte makes the length another one, also in 32 bits
    have hlen := congrArg List.length (Option.some.inj hback)
    rw [List.length_append, List.length_singleton, hcut] at hlen
    omega
  · have hle := length_decryptBin_le h hback
    have hshort : y.length ≤ 3 := by
      rcases hy with rfl | ⟨-, hle⟩
      · exact Nat.zero_le _
      · exact hle
    omega

/-- What is read from a Base64 text is what the decoder's loop gives. -/
theorem loop_of_bytesOf {behind : ℕ → UInt8} (hy : bytesOf behind true text = some y) :
    Base64.decodeLoop (stored text behind) text.length = some y := by
  rw [bytesOf, if_pos rfl] at hy
  obtain ⟨ob, hnew, hy⟩ := Option.bind_eq_some_iff.mp hy
  obtain ⟨ob₁, hreserve, hy⟩ := Option.bind_eq_some_iff.mp hy
  obtain ⟨data, hloop, hy⟩ := Option.bind_eq_some_iff.mp hy
  obtain ⟨ob₂, hcopy, hy⟩ := Option.bind_eq_some_iff.mp hy
  obtain ⟨-, hy⟩ := Option.ite_none_right_eq_some.mp hy
  obtain ⟨ob', hnew', hbytes', -⟩ := Buffer.new_eq_some 0
  obtain rfl := Option.some.inj (hnew.symm.trans hnew')
  have hbytes := (Buffer.copyIn_eq_some_iff.mp hcopy).2.1
  rw [Buffer.reserve_bytes hreserve, hbytes', List.nil_append] at hbytes
  rw [hloop, ← hbytes]
  exact congrArg some (Option.some.inj hy)

/-- A Base64 text is read from the buffer that is made for it. -/
theorem bytesOf_encodeText (behind : ℕ → UInt8) (hne : bin ≠ []) (hbin : bin.length < 2 ^ 30) :
    bytesOf behind true (encodeText bin) = some bin := by
  have hlen : (encodeText bin).length / 4 = groups bin := by
    rw [Base64.length_encodeText, Nat.mul_div_cancel_left _ (by decide)]
  have hgroups : bin.length ≤ groups bin * 3 ∧ groups bin * 3 < bin.length + 3 := by
    rw [groups]
    omega
  obtain ⟨ob, hnew, hbytes, hsize, hsound⟩ := Buffer.new_eq_some 0
  have hsize : ob.size = 0 := hsize
  have hn : (groups bin * 3 + 4) % 2 ^ 32 = groups bin * 3 + 4 := Nat.mod_eq_of_lt (by omega)
  have hgrown : Buffer.grown ob.size (groups bin * 3 + 4 - (ob.size - ob.bytes.length)) < 2 ^ 32 := by
    have hlt := aligned_lt (max ob.size (groups bin * 3 + 4 - (ob.size - ob.bytes.length)))
    rw [hsize] at hlt ⊢
    rw [Buffer.grown]
    omega
  obtain ⟨ob₁, hreserve, hbytes₁, hsound₁, hroom⟩ := hsound.reserve_ok hgrown
  rw [hbytes, List.length_nil, Nat.zero_add] at hroom
  have hempty : ob₁.bytes.length = 0 := by rw [hbytes₁, hbytes, List.length_nil]
  obtain ⟨ob₂, hcopy, hbytes₂, hsize₂, -⟩ := hsound₁.copyIn (d := bin) (by omega)
  have hfinal : ob₂.bytes = bin := by
    rw [hbytes₂, List.length_eq_zero_iff.mp hempty, List.nil_append]
  rw [bytesOf, if_pos rfl]
  simp only [Option.bind_eq_bind, hnew, Option.bind_some, hlen, hn, hreserve,
    Base64.loop_encodeText behind hne, hcopy]
  rw [if_pos (by rw [hfinal, hsize₂]; omega), hfinal]

/-- **What comes back from a Base64 text** is the text and a zero byte. -/
theorem decrypt_text (h : evp.Trusted) (behind : ℕ → UInt8) (hx : x.length < 2 ^ 29)
    (htext : encrypt evp secret x true = some text) :
    text = encodeText (evp.encrypt secret x) ∧
      decrypt evp behind secret text true = some (x ++ [0]) := by
  obtain ⟨bin, hbin, hencode⟩ := Option.bind_eq_some_iff.mp htext
  obtain ⟨hsecret, -⟩ := encryptBin_cases hbin
  have hcipher := h.length_encrypt secret x
  rw [encryptBin_eq h hsecret, int32_of_lt (show x.length + 16 < 2 ^ 31 by omega),
    int32_of_lt (show x.length < 2 ^ 31 by omega), if_neg (by omega), Int.toNat_natCast,
    List.take_length] at hbin
  obtain rfl := Option.some.inj hbin
  rw [if_pos rfl, Base64.encode_eq, Option.ite_none_right_eq_some] at hencode
  obtain rfl := Option.some.inj hencode.2
  have hne : evp.encrypt secret x ≠ [] := List.ne_nil_of_length_pos (by omega)
  refine ⟨rfl, ?_⟩
  rw [decrypt, bytesOf_encodeText behind hne (by omega)]
  exact decryptBin_encrypt h hsecret (by omega)

/-- What is read from the text of an encryption; from no text, three bytes at most. -/
theorem bytesOf_encrypt {behind : ℕ → UInt8} {b64 : Bool}
    (hbin : encryptBin evp secret x = some bin) (htext : encrypt evp secret x b64 = some text)
    (hy : bytesOf behind b64 text = some y) :
    y = bin ∨ bin = [] ∧ y.length ≤ 3 := by
  rw [encrypt, hbin, Option.bind_eq_bind, Option.bind_some] at htext
  cases b64 with
  | false =>
    obtain rfl := Option.some.inj htext
    rw [bytesOf, if_neg Bool.false_ne_true, bytes_hexText (by rw [length_hexText]; omega)] at hy
    exact Or.inl (Option.some.inj hy).symm
  | true =>
    rw [if_pos rfl, Base64.encode_eq, Option.ite_none_right_eq_some] at htext
    obtain ⟨-, htext⟩ := htext
    obtain rfl := Option.some.inj htext
    have hloop := loop_of_bytesOf hy
    rcases eq_or_ne bin [] with rfl | hne
    · obtain ⟨a, b, c, hnil⟩ := Base64.loop_nil behind
      obtain rfl := Option.some.inj (hnil.symm.trans hloop)
      exact Or.inr ⟨rfl, le_rfl⟩
    · rw [Base64.loop_encodeText behind hne] at hloop
      exact Or.inl (Option.some.inj hloop).symm

/-- **No text comes back as it was**, neither as bytes nor through one of the two texts;
and no call leaves its buffer. -/
theorem round_trips_never (h : evp.Trusted) (behind : ℕ → UInt8) (secret x : Bytes) :
    ((encryptBin evp secret x).bind (decryptBin evp secret) ≠ some x ∧
      ∀ b64, ((encrypt evp secret x b64).bind fun text => decrypt evp behind secret text b64) ≠
        some x) ∧
      (0 ≤ int32 secret.length → ∀ y,
        (encryptBin evp secret y).isSome ∧ (decryptBin evp secret y).isSome) := by
  refine ⟨⟨fun hback => ?_, fun b64 hback => ?_⟩, fun hsecret y =>
    ⟨encryptBin_isSome h hsecret y, decryptBin_isSome h hsecret y⟩⟩
  · obtain ⟨bin, hbin, hback⟩ := Option.bind_eq_some_iff.mp hback
    exact decryptBin_ne h hbin (Or.inl rfl) hback
  · obtain ⟨text, htext, hback⟩ := Option.bind_eq_some_iff.mp hback
    obtain ⟨y, hy, hback⟩ := Option.bind_eq_some_iff.mp hback
    obtain ⟨bin, hbin, -⟩ := Option.bind_eq_some_iff.mp htext
    exact decryptBin_ne h hbin (bytesOf_encrypt hbin htext hy) hback

/-! ### One block -/

namespace Sample

/-- What the secret `secret` gives for the first block. -/
def iv : Bytes :=
  [0xe9, 0x3d, 0xa4, 0x65, 0xb3, 0x09, 0xc5, 0x3f, 0xec, 0x5f, 0xf9, 0x3c, 0x96, 0x37, 0xda, 0x58]

/-- The encryption of `hello` with that secret. -/
def cipherText : Bytes :=
  [0xbe, 0x29, 0x0b, 0xcf, 0x0c, 0xd3, 0x15, 0x19, 0xfe, 0x62, 0xab, 0x5e, 0x5c, 0x0d, 0x0f, 0x22]

/-- A cipher of blocks that does to the block of `hello` what AES does to it. -/
def cipher : Bytes → Bytes :=
  Equiv.swap (BlockCipher.mix (BlockCipher.pad 16 (ascii "hello")) iv) cipherText

theorem laws : BlockCipher.Laws 16 cipher cipher where
  length b hb := by
    rw [cipher, Equiv.swap_apply_def]
    split_ifs
    · rfl
    · rfl
    · exact hb
  inverse b _ := Equiv.swap_apply_self _ _ b

/-- A cipher in chains of blocks. -/
def chained (E D : Bytes → Bytes) : EVP where
  encryptUpdate _ := BlockCipher.encryptUpdate E 16 iv
  encryptFinal _ := BlockCipher.encryptFinal E 16 iv
  decryptUpdate _ := BlockCipher.decryptUpdate D 16 iv
  decryptFinal _ := BlockCipher.decryptFinal D 16 iv

/-- The cipher in chains of blocks. -/
def openssl : EVP where
  encryptUpdate _ := BlockCipher.encryptUpdate cipher 16 iv
  encryptFinal _ := BlockCipher.encryptFinal cipher 16 iv
  decryptUpdate _ := BlockCipher.decryptUpdate cipher 16 iv
  decryptFinal _ := BlockCipher.decryptFinal cipher 16 iv

theorem length_iv : iv.length ≤ 16 := le_rfl

theorem chained_trusted {E D : Bytes → Bytes} (h : BlockCipher.Laws 16 E D) :
    (chained E D).Trusted where
  length_encrypt _ x := BlockCipher.length_encrypt h (by decide) rfl x
  decrypt_encrypt _ x := BlockCipher.decrypt_encrypt h (by decide) (by decide) rfl x
  told_le _ y := (BlockCipher.decrypt_within (D := D) (n := 16) length_iv y).1
  written_le _ y := (BlockCipher.decrypt_within (D := D) (n := 16) length_iv y).2.1
  last_lt _ y last := (BlockCipher.decrypt_within (D := D) (n := 16) length_iv y).2.2 last

theorem trusted : openssl.Trusted := chained_trusted laws

end Sample

theorem round_trips_never_hello :
    let x := ascii "hello"
    ((encryptBin Sample.openssl (ascii "secret") x).bind
        (decryptBin Sample.openssl (ascii "secret")) ≠ some x ∧
      ∀ b64, ((encrypt Sample.openssl (ascii "secret") x b64).bind fun text =>
        decrypt Sample.openssl (fun _ => 0) (ascii "secret") text b64) ≠ some x) ∧
      (0 ≤ int32 (ascii "secret").length → ∀ y,
        (encryptBin Sample.openssl (ascii "secret") y).isSome ∧
          (decryptBin Sample.openssl (ascii "secret") y).isSome) :=
  round_trips_never Sample.trusted (fun _ => 0) (ascii "secret") (ascii "hello")

/-- Five bytes come back as six. -/
theorem not_round_trips :
    encryptBin Sample.openssl (ascii "secret") (ascii "hello") = some Sample.cipherText ∧
      decryptBin Sample.openssl (ascii "secret") Sample.cipherText = some (ascii "hello" ++ [0]) ∧
      ¬(encryptBin Sample.openssl (ascii "secret") (ascii "hello")).bind
        (decryptBin Sample.openssl (ascii "secret")) = some (ascii "hello") := by
  decide +kernel

end Encryption

end Suil
