/-
Keys and signatures of secp256k1 (`suil::secp256k1`), and who signs with them.

What libsecp256k1 and SHA-256 provide is a parameter, with what is relied on as a list of
assumptions.  Keys and signatures are handed on as hexadecimal text.

* `load_spec` — which texts are loaded as a signer;
* `ecdsaVerify_sign` — a signature is valid for the message and the key it was made with;
* `verify_sign_never` — `Signer::verify` accepts no signature, and all texts are read as
  one signature.
-/
import Suil.Crypto

namespace Suil

namespace Secp256k1

open Crypto (Blob hex2bin)

/-- What is used of libsecp256k1, and `SHA256`. -/
structure Lib (Pub Sig Rec : Type) where
  sha256 : Bytes → Blob 32
  /-- `secp256k1_ec_seckey_verify` -/
  seckeyVerify : Blob 32 → Bool
  /-- `secp256k1_ec_pubkey_create` -/
  pubkeyCreate : Blob 32 → Option Pub
  /-- `secp256k1_ec_pubkey_serialize`, compressed -/
  pubkeySerialize : Pub → Blob 33
  /-- `secp256k1_ec_pubkey_parse` -/
  pubkeyParse : Blob 33 → Option Pub
  /-- `secp256k1_ecdsa_sign_recoverable`: a digest, a key, and what the nonce function is given. -/
  signRecoverable : Blob 32 → Blob 32 → Bytes → Option Rec
  /-- `secp256k1_ecdsa_recoverable_signature_serialize_compact` -/
  recoverableSerialize : Rec → Blob 64 × ℤ
  /-- `secp256k1_ecdsa_signature_parse_compact` -/
  parseCompact : Blob 64 → Option Sig
  /-- `secp256k1_ecdsa_verify` -/
  verify : Sig → Blob 32 → Pub → Bool

/-- `Blob::isnil` -/
def isnil {n : ℕ} (b : Blob n) : Bool := b.1.all (· = 0)

/-- `Signature` -/
structure Signature where
  bytes : Blob 64 := Blob.zero 64
  recId : ℤ := -1

/-- `KeyPair` -/
structure KeyPair where
  priv : Blob 32 := Blob.zero 32
  pub : Blob 33 := Blob.zero 33
deriving DecidableEq

/-- `KeyPair::isValid`, which is `Signer::isValid`. -/
def KeyPair.isValid (kp : KeyPair) : Bool := !isnil kp.priv && !isnil kp.pub

section

variable {Pub Sig Rec : Type} (lib : Lib Pub Sig Rec)

/-- `PrivateKey::fromString`; none when `bytes` throws. -/
def privateKey (str : Bytes) : Option (Blob 32) :=
  (hex2bin 32 str).map fun key => if lib.seckeyVerify key then key else Blob.zero 32

/-- `PublicKey::fromString`; none when `bytes` throws. -/
def publicKey (str : Bytes) : Option (Blob 33) :=
  (hex2bin 33 str).map fun pub => if (lib.pubkeyParse pub).isSome then pub else Blob.zero 33

/-- `PublicKey::fromPrivateKey` -/
def fromPrivateKey (priv : Blob 32) : Blob 33 :=
  match lib.pubkeyCreate priv with
  | none => Blob.zero 33
  | some pub => lib.pubkeySerialize pub

/-- `KeyPair::fromPrivateKey` -/
def keyPair (priv : Blob 32) : KeyPair :=
  if isnil priv then {}
  else if isnil (fromPrivateKey lib priv) then {}
  else ⟨priv, fromPrivateKey lib priv⟩

/-- `Signature::fromCompact`: what is parsed is the new signature. -/
def fromCompact (_sig : Bytes) : Signature :=
  let out : Signature := {}
  match lib.parseCompact out.bytes with
  | none => {}
  | some _ => out

/-- `ECDSASign`; none when it returns false.  The nonce function reads 32 bytes at the address of
the data, behind which there may be others. -/
def ecdsaSign (key : Blob 32) (data nonceData : Bytes) : Option Signature := do
  let rsig ← lib.signRecoverable (lib.sha256 data) key nonceData
  let (bytes, recId) := lib.recoverableSerialize rsig
  some ⟨bytes, recId⟩

/-- `ECDSAVerify` -/
def ecdsaVerify (data : Bytes) (sig : Signature) (key : Blob 33) : Bool :=
  match lib.parseCompact sig.bytes, lib.pubkeyParse key with
  | some ssig, some public_key => lib.verify ssig (lib.sha256 data) public_key
  | _, _ => false

/-! ### `Signer` -/

/-- `Signer::load` of a text; none when it throws. -/
def load (privKey : Bytes) : Option KeyPair :=
  (privateKey lib privKey).map fun priv => if isnil priv then {} else keyPair lib priv

/-- `Signer::sign`: the empty string when it fails. -/
def sign (mKey : KeyPair) (data nonceData : Bytes) : Bytes :=
  match ecdsaSign lib mKey.priv data nonceData with
  | none => []
  | some signature => hexText signature.bytes.1

/-- `Signer::verify`; none when it throws. -/
def verify (data sig pub : Bytes) : Option Bool :=
  let signature := fromCompact lib sig
  if isnil signature.bytes then some false
  else (publicKey lib pub).map fun pubKey =>
    if isnil pubKey then false else ecdsaVerify lib data signature pubKey

/-- What is relied on: a key is valid or not, a valid one has a public key and signs, and what it
signs is valid for the same digest and its public key. -/
structure Trusted : Prop where
  verify_zero : lib.seckeyVerify (Blob.zero 32) = false
  create : ∀ {key}, lib.seckeyVerify key = true → ∃ pub, lib.pubkeyCreate key = some pub
  serialize_ne_zero : ∀ pub, lib.pubkeySerialize pub ≠ Blob.zero 33
  parse_serialize : ∀ pub, lib.pubkeyParse (lib.pubkeySerialize pub) = some pub
  sign : ∀ {key}, lib.seckeyVerify key = true → ∀ digest nonceData,
    ∃ rsig, lib.signRecoverable digest key nonceData = some rsig
  sign_invalid : ∀ {key}, lib.seckeyVerify key = false → ∀ digest nonceData,
    lib.signRecoverable digest key nonceData = none
  verify_sign : ∀ {key pub digest nonceData rsig}, lib.pubkeyCreate key = some pub →
    lib.signRecoverable digest key nonceData = some rsig →
    ∃ sig, lib.parseCompact (lib.recoverableSerialize rsig).1 = some sig ∧
      lib.verify sig digest pub = true

/-- A valid private key and its public key. -/
structure Valid (kp : KeyPair) : Prop where
  priv : lib.seckeyVerify kp.priv = true
  pub : ∃ pub, lib.pubkeyCreate kp.priv = some pub ∧ kp.pub = lib.pubkeySerialize pub

end

section

variable {Pub Sig Rec : Type} {lib : Lib Pub Sig Rec} {kp : KeyPair} {key : Blob 32}
  {data nonceData str : Bytes} {sig : Signature}

theorem isnil_iff {n : ℕ} {b : Blob n} : isnil b = true ↔ b = Blob.zero n := by
  obtain ⟨b, rfl⟩ := b
  rw [isnil, List.all_eq_true, Subtype.ext_iff]
  simp only [decide_eq_true_eq]
  exact List.eq_replicate_length.symm

theorem isnil_zero (n : ℕ) : isnil (Blob.zero n) = true := isnil_iff.mpr rfl

/-- The text of a blob is read back. -/
theorem hex2bin_hexText {n : ℕ} (b : Blob n) : hex2bin n (hexText b.1) = some b := by
  rw [hex2bin, bytes_hexText b.2.le]
  exact Crypto.filled_of_length b.2

/-- A public key is read back from its text. -/
theorem publicKey_hexText (h : Trusted lib) (pub : Pub) :
    publicKey lib (hexText (lib.pubkeySerialize pub).1) = some (lib.pubkeySerialize pub) := by
  rw [publicKey, hex2bin_hexText, Option.map_some, h.parse_serialize]
  rfl

theorem Valid.isValid (h : Trusted lib) (hkp : Valid lib kp) : kp.isValid = true := by
  obtain ⟨pub, -, hpub⟩ := hkp.pub
  rw [KeyPair.isValid, Bool.and_eq_true, Bool.not_eq_true', Bool.not_eq_true', Bool.eq_false_iff,
    Bool.eq_false_iff, Ne, Ne, isnil_iff, isnil_iff]
  constructor
  · intro hzero
    have hpriv := hkp.priv
    rw [hzero, h.verify_zero] at hpriv
    cases hpriv
  · rw [hpub]
    exact h.serialize_ne_zero pub

/-- **The texts that are loaded**: what decodes to a valid key gives a valid signer, and what
decodes to another one none. -/
theorem load_spec (h : Trusted lib) (hkey : hex2bin 32 str = some key) :
    if lib.seckeyVerify key then ∃ kp, load lib str = some kp ∧ kp.priv = key ∧ Valid lib kp
    else load lib str = some {} := by
  rw [load, privateKey, hkey]
  simp only [Option.map_some]
  split_ifs with hvalid hnil hnil
  · -- the key of zeros, which `load` takes for none, is not valid
    rw [isnil_iff] at hnil
    rw [hnil, h.verify_zero] at hvalid
    cases hvalid
  · obtain ⟨pub, hpub⟩ := h.create hvalid
    have hfrom : fromPrivateKey lib key = lib.pubkeySerialize pub := by
      rw [fromPrivateKey, hpub]
    refine ⟨_, rfl, ?_⟩
    rw [keyPair, if_neg hnil, hfrom, if_neg (mt isnil_iff.mp (h.serialize_ne_zero pub))]
    exact ⟨rfl, hvalid, pub, hpub, rfl⟩
  · rfl
  · exact absurd (isnil_zero 32) hnil

/-- **A signature is valid** for the message and the key it was made with. -/
theorem ecdsaVerify_sign (h : Trusted lib) {pub : Pub} (hpub : lib.pubkeyCreate key = some pub)
    (hsign : ecdsaSign lib key data nonceData = some sig) :
    ecdsaVerify lib data sig (lib.pubkeySerialize pub) = true := by
  obtain ⟨rsig, hrsig, hsig⟩ := Option.bind_eq_some_iff.mp hsign
  obtain rfl := (Option.some.inj hsig).symm
  obtain ⟨ssig, hparse, hverify⟩ := h.verify_sign hpub hrsig
  rw [ecdsaVerify]
  simp only
  rw [hparse, h.parse_serialize]
  exact hverify

theorem fromCompact_eq (lib : Lib Pub Sig Rec) (str : Bytes) : fromCompact lib str = {} := by
  rw [fromCompact]
  split <;> rfl

/-- **No signature is accepted**, and all texts are read as one signature: the text is not looked
at. -/
theorem verify_sign_never (lib : Lib Pub Sig Rec) :
    (∀ kp data nonceData,
      verify lib data (sign lib kp data nonceData) (hexText kp.pub.1) = some false) ∧
      ∀ sig sig', fromCompact lib sig = fromCompact lib sig' := by
  refine ⟨fun kp data nonceData => ?_, fun sig sig' => ?_⟩
  · rw [verify, fromCompact_eq]
    exact if_pos (isnil_zero 64)
  · rw [fromCompact_eq, fromCompact_eq]

end

/-! ### Keys and messages of which the signatures are known -/

open Crypto (bin2bn bn2bin length_bn2bin bin2bn_bn2bin curveOrder generatorX)

theorem length_compressed (c : UInt8) (x : ℕ) : (c :: bn2bin 32 x).length = 33 := by
  rw [List.length_cons, length_bn2bin]

theorem length_compact (r s : ℕ) : (bn2bin 32 r ++ bn2bin 32 s).length = 64 := by
  rw [List.length_append, length_bn2bin, length_bn2bin]

/-- The digests of messages, and for a digest and a key the first number of the signature, the
inverse of the nonce, and the recovery id. -/
structure Samples where
  digests : List (Bytes × ℕ)
  nonces : List ((ℕ × ℕ) × ℕ × ℕ × ℤ)

namespace Samples

variable (o : Samples)

/-- The signature of a digest, with the smaller one of the two second numbers. -/
def signature (e d : ℕ) : ℕ × ℕ × ℤ :=
  let (r, inverse, recId) := (o.nonces.lookup (e, d)).getD (generatorX, 1, 0)
  let r := r % curveOrder
  let s := inverse * (e + r * d) % curveOrder
  if curveOrder < 2 * s then (r, curveOrder - s, 1 - recId) else (r, s, recId)

/-- The first coordinate of the point of the key 2. -/
def doubledX : ℕ := 0xc6047f9441ed7d6d3045406e95c07cd85c778e4b8cef3ca7abac09b95c709ee5

/-- A point, which is the multiple of the generator that it is, is written down; the coordinates
of the first two are known. -/
def serialize (q : Fin curveOrder) : Blob 33 :=
  if q.1 = 1 then ⟨2 :: bn2bin 32 generatorX, length_compressed _ _⟩
  else if q.1 = 2 then ⟨2 :: bn2bin 32 doubledX, length_compressed _ _⟩
  else ⟨4 :: bn2bin 32 q.1, length_compressed _ _⟩

def multiple (b : Bytes) : ℕ :=
  if b.headD 0 = 2 then (if b.tail = bn2bin 32 generatorX then 1 else 2) else bin2bn b.tail

/-- The curve as far as the samples lead. -/
def lib : Lib (Fin curveOrder) (ℕ × ℕ) (ℕ × ℕ × ℤ) where
  sha256 data := ⟨bn2bin 32 ((o.digests.lookup data).getD 0), length_bn2bin 32 _⟩
  seckeyVerify key := 0 < bin2bn key.1 && bin2bn key.1 < curveOrder
  pubkeyCreate key := if h : bin2bn key.1 < curveOrder then some ⟨bin2bn key.1, h⟩ else none
  pubkeySerialize := serialize
  pubkeyParse b := if h : multiple b.1 < curveOrder then some ⟨multiple b.1, h⟩ else none
  signRecoverable digest key _ :=
    if 0 < bin2bn key.1 && bin2bn key.1 < curveOrder then
      some (o.signature (bin2bn digest.1) (bin2bn key.1))
    else none
  recoverableSerialize rsig :=
    (⟨bn2bin 32 rsig.1 ++ bn2bin 32 rsig.2.1, length_compact _ _⟩, rsig.2.2)
  parseCompact b :=
    let r := bin2bn (b.1.take 32)
    let s := bin2bn (b.1.drop 32)
    if r < curveOrder ∧ s < curveOrder then some (r, s) else none
  verify sig digest q := sig = ((o.signature (bin2bn digest.1) q.1).1,
    (o.signature (bin2bn digest.1) q.1).2.1)

theorem multiple_serialize (q : Fin curveOrder) : multiple (serialize q).1 = q.1 := by
  rw [serialize]
  split_ifs with h₁ h₂
  · rw [h₁]
    rfl
  · have hne : bn2bin 32 doubledX ≠ bn2bin 32 generatorX := by decide +kernel
    rw [h₂]
    show (if bn2bin 32 doubledX = bn2bin 32 generatorX then 1 else 2) = 2
    exact if_neg hne
  · exact bin2bn_bn2bin (q.2.trans (by decide))

theorem signature_lt (e d : ℕ) :
    (o.signature e d).1 < curveOrder ∧ (o.signature e d).2.1 < curveOrder := by
  have hpos : 0 < curveOrder := by decide
  rw [signature]
  simp only
  split_ifs with hbig
  · exact ⟨Nat.mod_lt _ hpos, Nat.sub_lt hpos (Nat.pos_of_ne_zero fun h0 => by simp [h0] at hbig)⟩
  · exact ⟨Nat.mod_lt _ hpos, Nat.mod_lt _ hpos⟩

theorem trusted : Trusted o.lib where
  verify_zero := by
    have hzero : bin2bn (Blob.zero 32).1 = 0 := by decide +kernel
    simp [lib, hzero]
  create := by
    intro key h
    simp only [lib, Bool.and_eq_true, decide_eq_true_eq] at h
    exact ⟨_, dif_pos h.2⟩
  serialize_ne_zero := by
    intro q hzero
    have hhead : (serialize q).1.headD 0 = 0 := by
      rw [show serialize q = Blob.zero 33 from hzero]
      rfl
    rw [serialize] at hhead
    split_ifs at hhead <;> cases hhead
  parse_serialize := by
    intro q
    have hlt : multiple (serialize q).1 < curveOrder := by
      rw [multiple_serialize]
      exact q.2
    exact (dif_pos hlt).trans (congrArg some (Fin.ext (multiple_serialize q)))
  sign := by
    intro key h digest nonceData
    exact ⟨_, if_pos h⟩
  sign_invalid := by
    intro key h digest nonceData
    exact if_neg (by simpa [lib] using h)
  verify_sign := by
    intro key q digest nonceData rsig hq hsign
    simp only [lib, Option.dite_none_right_eq_some, Option.some.injEq,
      Option.ite_none_right_eq_some] at hq hsign
    obtain ⟨_, rfl⟩ := hq
    obtain ⟨-, rfl⟩ := hsign
    obtain ⟨hr, hs⟩ := o.signature_lt (bin2bn digest.1) (bin2bn key.1)
    -- both numbers of a signature fit into their 32 bytes
    have hbound : curveOrder < 256 ^ 32 := by decide
    refine ⟨((o.signature (bin2bn digest.1) (bin2bn key.1)).1,
      (o.signature (bin2bn digest.1) (bin2bn key.1)).2.1), ?_, ?_⟩
    · simp only [lib]
      rw [List.take_left' (length_bn2bin 32 _), List.drop_left' (length_bn2bin 32 _),
        bin2bn_bn2bin (hr.trans hbound), bin2bn_bn2bin (hs.trans hbound)]
      exact if_pos ⟨hr, hs⟩
    · simp [lib]

end Samples

/-- The private key 1. -/
def one : Blob 32 := Crypto.one

def message : Bytes := ascii "Hello, sawtooth! 0123456789abcdef"

def samples : Samples where
  digests := [(message, 0x3abd0c7def40df618e6778d354e8cf84cd90847e8e570f9eddabb587e5a8d82b)]
  nonces := [((0x3abd0c7def40df618e6778d354e8cf84cd90847e8e570f9eddabb587e5a8d82b, 1),
    0x80a3f92087d69fbd6095d8e7f7a0ccf2be423a349ab4fc13976fa385356e7e3c,
    0x2fc10de1b62fd3ed732e842f7a5bd2950ffc1bb7a093975fcd009c0dd50d7e5e, 0)]

/-- A signature that is valid is not accepted, and two signature texts are read as one. -/
theorem not_verify_sign :
    let kp := keyPair samples.lib one
    let text := sign samples.lib kp message (message.take 32)
    kp.isValid = true ∧
      (ecdsaSign samples.lib kp.priv message (message.take 32)).any
        (fun sig => ecdsaVerify samples.lib message sig kp.pub) = true ∧
      verify samples.lib message text (hexText kp.pub.1) = some false ∧
      text ≠ hexText (List.replicate 64 1) ∧
      fromCompact samples.lib text = fromCompact samples.lib (hexText (List.replicate 64 1)) := by
  refine ⟨by decide +kernel, by decide +kernel, by decide +kernel, by decide +kernel, ?_⟩
  rw [fromCompact_eq, fromCompact_eq]

end Secp256k1
end Suil
