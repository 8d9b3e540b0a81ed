/-
Transactions and batches of a Sawtooth client.

An encoder has two signers, and the text of the public key of each beside it.  A setter
puts the new signer into its place and then looks whether it is valid; what throws then
leaves a signer without a key under the text of the old one.

* `SignedBy.verifies` — what is signed by a key is valid for it;
* `Inv.step_right_iff` — the operations that do what they should;
* `run_signs_iff` — the runs of which every operation does.
-/
import Suil.Secp256k1
import Suil.Lib.Runs

open Runs

namespace Suil

open Crypto (Blob hex2bin)
open Secp256k1 (Lib KeyPair Trusted Valid Signature ecdsaSign ecdsaVerify load)

/-- `Encoder` -/
structure Encoder where
  mFamily : Bytes
  mFamilyVersion : Bytes
  mBatcherPublicKey : Bytes
  mSignerPublicKey : Bytes
  mSigner : KeyPair
  mBatcher : KeyPair
deriving DecidableEq

namespace Encoder

structure TransactionHeader where
  family_name : Bytes
  family_version : Bytes
  signer_public_key : Bytes
  batcher_public_key : Bytes
  nonce : Bytes
  payload_sha512 : Bytes
  inputs : List Bytes
  outputs : List Bytes
deriving DecidableEq

/-- `Transaction`, with its header before it is serialized. -/
structure Transaction where
  payload : Bytes
  header : TransactionHeader
  header_signature : Bytes
deriving DecidableEq

structure BatchHeader where
  transaction_ids : List Bytes
  signer_public_key : Bytes
deriving DecidableEq

/-- `Batch`, with its header before it is serialized. -/
structure Batch where
  transactions : List Transaction
  header : BatchHeader
  header_signature : Bytes
deriving DecidableEq

/-- How headers are serialized, and `SHA512`. -/
structure Proto where
  transactionHeader : TransactionHeader → Bytes
  batchHeader : BatchHeader → Bytes
  sha512 : Bytes → Bytes

/-- An encoder, and the transactions that it built since a batcher was last set. -/
structure Session where
  encoder : Encoder
  built : List Transaction

inductive Op where
  | setSigner (key : Bytes)
  | setBatcher (key : Bytes)
  /-- The nonce is a new UUID; the last bytes are those that the nonce function reads. -/
  | transaction (payload : Bytes) (inputs outputs : List Bytes) (nonce nonceData : Bytes)
  | batch (txns : List Transaction) (nonceData : Bytes)

inductive Answer where
  | done
  | thrown
  | transaction (txn : Transaction)
  | batch (batch : Batch)

section

variable {Pub Sig Rec : Type} (lib : Lib Pub Sig Rec) (proto : Proto)

/-- The constructor; none when it throws. -/
def new (family familyVersion privateKey : Bytes) : Option Encoder := do
  let mSigner ← load lib privateKey
  let mBatcher ← load lib privateKey
  some ⟨family, familyVersion, hexText mSigner.pub.1, hexText mBatcher.pub.1, mSigner, mBatcher⟩

/-- `setBatcher`: whether it returns, and the encoder after it. -/
def setBatcher (e : Encoder) (key : Bytes) : Bool × Encoder :=
  match load lib key with
  | none => (false, e)
  | some mBatcher =>
    let e := { e with mBatcher := mBatcher }
    if e.mBatcher.isValid then (true, { e with mBatcherPublicKey := hexText e.mBatcher.pub.1 })
    else (false, e)

/-- `setSigner` -/
def setSigner (e : Encoder) (key : Bytes) : Bool × Encoder :=
  match load lib key with
  | none => (false, e)
  | some mSigner =>
    let e := { e with mSigner := mSigner }
    if e.mSigner.isValid then (true, { e with mSignerPublicKey := hexText e.mSigner.pub.1 })
    else (false, e)

/-- `operator()` of a payload. -/
def transaction (e : Encoder) (payload : Bytes) (inputs outputs : List Bytes)
    (nonce nonceData : Bytes) : Transaction :=
  let header : TransactionHeader :=
    { family_name := e.mFamily
      family_version := e.mFamilyVersion
      signer_public_key := e.mSignerPublicKey
      batcher_public_key := e.mBatcherPublicKey
      nonce := nonce
      payload_sha512 := hexText (proto.sha512 payload)
      inputs := inputs
      outputs := outputs }
  ⟨payload, header, Secp256k1.sign lib e.mSigner (proto.transactionHeader header) nonceData⟩

/-- `operator()` of transactions. -/
def batch (e : Encoder) (txns : List Transaction) (nonceData : Bytes) : Batch :=
  let header : BatchHeader := ⟨txns.map Transaction.header_signature, e.mBatcherPublicKey⟩
  ⟨txns, header, Secp256k1.sign lib e.mBatcher (proto.batchHeader header) nonceData⟩

def step (s : Session) : Op → Option (Answer × Session)
  | .setSigner key =>
    let (ok, e) := s.encoder.setSigner lib key
    some (if ok then .done else .thrown, { s with encoder := e })
  | .setBatcher key =>
    let (ok, e) := s.encoder.setBatcher lib key
    some (if ok then .done else .thrown, ⟨e, if ok then [] else s.built⟩)
  | .transaction payload inputs outputs nonce nonceData =>
    let txn := s.encoder.transaction lib proto payload inputs outputs nonce nonceData
    some (.transaction txn, { s with built := s.built ++ [txn] })
  | .batch txns nonceData => some (.batch (s.encoder.batch lib proto txns nonceData), s)

/-- The text is a signature of the data with the key of which this is the text of the public
key. -/
def SignedBy (pub data sig : Bytes) : Prop :=
  ∃ key public_key nonceData signature, lib.pubkeyCreate key = some public_key ∧
    pub = hexText (lib.pubkeySerialize public_key).1 ∧
    ecdsaSign lib key data nonceData = some signature ∧ sig = hexText signature.bytes.1

/-- The encoders make the same transactions and batches. -/
def SameProducts (e e' : Encoder) : Prop :=
  (∀ payload inputs outputs nonce nonceData,
    e.transaction lib proto payload inputs outputs nonce nonceData =
      e'.transaction lib proto payload inputs outputs nonce nonceData) ∧
    ∀ txns nonceData, e.batch lib proto txns nonceData = e'.batch lib proto txns nonceData

/-- What a transaction or a batch is signed with is the key that its header names; a batch lists
the signatures of its transactions, and those built since a batcher was last set name the same
batcher.  A call that throws changes nothing of what is made. -/
def Right (m : Move Session Op Answer) : Prop :=
  match m.output with
  | .done => True
  | .thrown => SameProducts lib proto m.before.encoder m.after.encoder
  | .transaction txn =>
    SignedBy lib txn.header.signer_public_key (proto.transactionHeader txn.header)
      txn.header_signature
  | .batch b =>
    SignedBy lib b.header.signer_public_key (proto.batchHeader b.header) b.header_signature ∧
      b.header.transaction_ids = b.transactions.map Transaction.header_signature ∧
      ∀ txn ∈ b.transactions, txn ∈ m.before.built →
        txn.header.batcher_public_key = b.header.signer_public_key

/-- The key of a setter is valid, or is no text of a key at all. -/
def Allowed : Op → Prop
  | .setSigner key | .setBatcher key => ∀ k ∈ hex2bin 32 key, lib.seckeyVerify k = true
  | .transaction .. | .batch .. => True

/-- Both signers are valid, and under the texts of their public keys. -/
structure Inv (s : Session) : Prop where
  signer : Valid lib s.encoder.mSigner
  batcher : Valid lib s.encoder.mBatcher
  signerText : s.encoder.mSignerPublicKey = hexText s.encoder.mSigner.pub.1
  batcherText : s.encoder.mBatcherPublicKey = hexText s.encoder.mBatcher.pub.1
  built : ∀ txn ∈ s.built, txn.header.batcher_public_key = s.encoder.mBatcherPublicKey

instance : DecidablePred (Allowed lib)
  | .setSigner key | .setBatcher key =>
    inferInstanceAs (Decidable (∀ k ∈ hex2bin 32 key, lib.seckeyVerify k = true))
  | .transaction .. | .batch .. => inferInstanceAs (Decidable True)

end

variable {Pub Sig Rec : Type} {lib : Lib Pub Sig Rec} {proto : Proto} {s : Session}
  {kp : KeyPair} {pub data sig key nonceData : Bytes}

/-- What a valid signer signs. -/
theorem signedBy_sign (h : Trusted lib) (hkp : Valid lib kp) (data nonceData : Bytes) :
    SignedBy lib (hexText kp.pub.1) data (Secp256k1.sign lib kp data nonceData) := by
  obtain ⟨public_key, hcreate, hpub⟩ := hkp.pub
  obtain ⟨rsig, hrsig⟩ := h.sign hkp.priv (lib.sha256 data) nonceData
  have hsign : ecdsaSign lib kp.priv data nonceData =
      some ⟨(lib.recoverableSerialize rsig).1, (lib.recoverableSerialize rsig).2⟩ := by
    rw [ecdsaSign, hrsig]
    rfl
  refine ⟨kp.priv, public_key, nonceData, _, hcreate, by rw [hpub], hsign, ?_⟩
  rw [Secp256k1.sign, hsign]

/-- **What is signed by a key** is valid for it. -/
theorem SignedBy.verifies (h : SignedBy lib pub data sig) (ht : Trusted lib) :
    ∃ public_key signature, Secp256k1.publicKey lib pub = some public_key ∧
      sig = hexText signature.bytes.1 ∧ ecdsaVerify lib data signature public_key = true := by
  obtain ⟨k, public_key, nonceData, signature, hcreate, rfl, hsign, rfl⟩ := h
  exact ⟨_, signature, Secp256k1.publicKey_hexText ht public_key, rfl,
    Secp256k1.ecdsaVerify_sign ht hcreate hsign⟩

/-- A signer without a key signs nothing. -/
theorem sign_invalid (h : Trusted lib) (data nonceData : Bytes) :
    Secp256k1.sign lib {} data nonceData = [] := by
  rw [Secp256k1.sign, ecdsaSign, h.sign_invalid h.verify_zero]
  rfl

theorem SignedBy.ne_nil (h : SignedBy lib pub data sig) : sig ≠ [] := by
  obtain ⟨-, -, -, signature, -, -, -, rfl⟩ := h
  intro hnil
  have hlen := congrArg List.length hnil
  rw [length_hexText, signature.bytes.2] at hlen
  cases hlen

/-- What an invalid signer makes is not what a valid one does. -/
theorem not_sameProducts (h : Trusted lib) {e e' : Encoder}
    (he : Valid lib e.mSigner ∧ e'.mSigner = {} ∨ Valid lib e.mBatcher ∧ e'.mBatcher = {}) :
    ¬SameProducts lib proto e e' := by
  rintro ⟨htransaction, hbatch⟩
  rcases he with ⟨hvalid, hempty⟩ | ⟨hvalid, hempty⟩
  · have heq := congrArg Transaction.header_signature (htransaction [] [] [] [] [])
    simp only [transaction, hempty, sign_invalid h] at heq
    exact (signedBy_sign h hvalid _ _).ne_nil heq
  · have heq := congrArg Batch.header_signature (hbatch [] [])
    simp only [batch, hempty, sign_invalid h] at heq
    exact (signedBy_sign h hvalid _ _).ne_nil heq

/-- What a text is loaded as: it throws, or gives a valid signer, or one without a key. -/
theorem load_cases (h : Trusted lib) (key : Bytes) :
    (load lib key = none ∧ hex2bin 32 key = none) ∨
      (∃ kp, load lib key = some kp ∧ Valid lib kp ∧ kp.isValid = true ∧
        ∀ k ∈ hex2bin 32 key, lib.seckeyVerify k = true) ∨
      load lib key = some {} ∧ ¬∀ k ∈ hex2bin 32 key, lib.seckeyVerify k = true := by
  rcases hkey : hex2bin 32 key with _ | k
  · exact .inl ⟨by rw [load, Secp256k1.privateKey, hkey]; rfl, rfl⟩
  · have hload := Secp256k1.load_spec h hkey
    split_ifs at hload with hvalid
    · obtain ⟨kp, hload, -, hkp⟩ := hload
      exact .inr (.inl ⟨kp, hload, hkp, hkp.isValid h, by simpa using hvalid⟩)
    · exact .inr (.inr ⟨hload, by simpa using hvalid⟩)

theorem isValid_empty : ({} : KeyPair).isValid = false := by decide

/-- **One step**: a setter does what it should iff its key is allowed, and the others always do. -/
theorem Inv.step_right_iff (h : Inv lib s) (ht : Trusted lib) {op : Op} {a : Answer} {s' : Session}
    (hstep : step lib proto s op = some (a, s')) :
    (Right lib proto ⟨s, op, a, s'⟩ ↔ Allowed lib op) ∧ (Allowed lib op → Inv lib s') := by
  cases op with
  | setSigner key =>
    rw [step, setSigner] at hstep
    rcases load_cases ht key with ⟨hload, hkey⟩ | ⟨kp, hload, hkp, hvalid, hkey⟩ | ⟨hload, hkey⟩
    · -- what is no text of a key throws before the signer is assigned
      rw [hload] at hstep
      obtain ⟨rfl, rfl⟩ := Prod.mk.inj (Option.some.inj hstep)
      exact ⟨iff_of_true ⟨fun _ _ _ _ _ => rfl, fun _ _ => rfl⟩ (by simp [Allowed, hkey]),
        fun _ => h⟩
    · simp only [hload, hvalid, if_true] at hstep
      obtain ⟨rfl, rfl⟩ := Prod.mk.inj (Option.some.inj hstep)
      exact ⟨iff_of_true trivial hkey, fun _ => ⟨hkp, h.batcher, rfl, h.batcherText, h.built⟩⟩
    · -- the signer is already replaced by one without a key when the setter throws
      simp only [hload, isValid_empty, Bool.false_eq_true, if_false] at hstep
      obtain ⟨rfl, rfl⟩ := Prod.mk.inj (Option.some.inj hstep)
      exact ⟨iff_of_false (not_sameProducts ht (.inl ⟨h.signer, rfl⟩)) hkey,
        fun hallowed => absurd hallowed hkey⟩
  | setBatcher key =>
    rw [step, setBatcher] at hstep
    rcases load_cases ht key with ⟨hload, hkey⟩ | ⟨kp, hload, hkp, hvalid, hkey⟩ | ⟨hload, hkey⟩
    · rw [hload] at hstep
      obtain ⟨rfl, rfl⟩ := Prod.mk.inj (Option.some.inj hstep)
      exact ⟨iff_of_true ⟨fun _ _ _ _ _ => rfl, fun _ _ => rfl⟩ (by simp [Allowed, hkey]),
        fun _ => h⟩
    · simp only [hload, hvalid, if_true] at hstep
      obtain ⟨rfl, rfl⟩ := Prod.mk.inj (Option.some.inj hstep)
      exact ⟨iff_of_true trivial hkey,
        fun _ => ⟨h.signer, hkp, h.signerText, rfl, List.forall_mem_nil _⟩⟩
    · simp only [hload, isValid_empty, Bool.false_eq_true, if_false] at hstep
      obtain ⟨rfl, rfl⟩ := Prod.mk.inj (Option.some.inj hstep)
      exact ⟨iff_of_false (not_sameProducts ht (.inr ⟨h.batcher, rfl⟩)) hkey,
        fun hallowed => absurd hallowed hkey⟩
  | transaction payload inputs outputs nonce nonceData =>
    obtain ⟨rfl, rfl⟩ := Prod.mk.inj (Option.some.inj hstep)
    refine ⟨iff_of_true ?_ trivial, fun _ => ⟨h.signer, h.batcher, h.signerText, h.batcherText, ?_⟩⟩
    · have hsigned := signedBy_sign ht h.signer
      rw [← h.signerText] at hsigned
      exact hsigned _ _
    · intro txn htxn
      rcases List.mem_append.mp htxn with htxn | htxn
      · exact h.built txn htxn
      · obtain rfl := List.mem_singleton.mp htxn
        rfl
  | batch txns nonceData =>
    obtain ⟨rfl, rfl⟩ := Prod.mk.inj (Option.some.inj hstep)
    refine ⟨iff_of_true ⟨?_, rfl, fun txn _ => h.built txn⟩ trivial, fun _ => h⟩
    have hsigned := signedBy_sign ht h.batcher
    rw [← h.batcherText] at hsigned
    exact hsigned _ _

theorem new_inv (h : Trusted lib) {family familyVersion privateKey : Bytes} {k : Blob 32} {e : Encoder}
    (hkey : hex2bin 32 privateKey = some k) (hvalid : lib.seckeyVerify k = true)
    (hnew : new lib family familyVersion privateKey = some e) : Inv lib ⟨e, []⟩ := by
  have hload := Secp256k1.load_spec h hkey
  rw [if_pos hvalid] at hload
  obtain ⟨kp, hload, -, hkp⟩ := hload
  rw [new, hload] at hnew
  obtain rfl := Option.some.inj hnew
  exact ⟨hkp, hkp, rfl, rfl, List.forall_mem_nil _⟩

/-- **The runs of an encoder** in which what is made is signed by the keys that are named, and a
call that throws changes nothing, are those whose setters are given no text that decodes to an
invalid key. -/
theorem run_signs_iff (h : Trusted lib) {family familyVersion privateKey : Bytes} {k : Blob 32}
    {e : Encoder} (hkey : hex2bin 32 privateKey = some k) (hvalid : lib.seckeyVerify k = true)
    (hnew : new lib family familyVersion privateKey = some e) {ms : List (Move Session Op Answer)}
    (hrun : Run (step lib proto) ⟨e, []⟩ ms s) :
    (∀ m ∈ ms, Right lib proto m) ↔ ∀ m ∈ ms, Allowed lib m.input :=
  hrun.moves_iff (G := fun _ op => Allowed lib op) (K := Inv lib) (new_inv h hkey hvalid hnew)
    fun _ _ _ _ hinv hstep => hinv.step_right_iff h hstep

/-! ### A transaction and a batch -/

/-- A field of a message: its number, its length and its text. -/
def field (n : UInt8) (text : Bytes) : Bytes :=
  (n * 8 + 2) :: (if text.length < 128 then [UInt8.ofNat text.length]
    else [UInt8.ofNat (text.length % 128 + 128), UInt8.ofNat (text.length / 128)]) ++ text

/-- A field that is left out when it is empty. -/
def optionalField (n : UInt8) (text : Bytes) : Bytes := if text = [] then [] else field n text

def payloadAbc : Bytes := ascii "abc"

/-- The encoding of the headers, for texts of less than 2^14 bytes. -/
def sampleProto : Proto where
  transactionHeader h :=
    optionalField 1 h.batcher_public_key ++ optionalField 3 h.family_name ++
      optionalField 4 h.family_version ++ h.inputs.flatMap (field 5) ++ optionalField 6 h.nonce ++
      h.outputs.flatMap (field 7) ++ optionalField 9 h.payload_sha512 ++
      optionalField 10 h.signer_public_key
  batchHeader h := optionalField 1 h.signer_public_key ++ h.transaction_ids.flatMap (field 2)
  sha512 payload := if payload = payloadAbc then
    Crypto.bn2bin 64 0xddaf35a193617abacc417349ae20413112e6fa4e89a97ea20a9eeee64b55d39a2192992a274fc1a836ba3c23a3feebbd454d4423643ce80e2a9ac94fa54ca49f else []

/-- The private keys 1 and 2, and the texts of their public keys. -/
def keyOne : Bytes := hexText (Crypto.bn2bin 32 1)

def keyTwo : Bytes := hexText (Crypto.bn2bin 32 2)

def publicOne : Bytes := hexText (2 :: Crypto.bn2bin 32 Crypto.generatorX)

def publicTwo : Bytes := hexText (2 :: Crypto.bn2bin 32 Secp256k1.Samples.doubledX)

def sampleHeader : TransactionHeader where
  family_name := ascii "intkey"
  family_version := ascii "1.0"
  signer_public_key := publicTwo
  batcher_public_key := publicOne
  nonce := ascii "c5b1a8a2-4f0e-4c27-9d3e-0b6a4a7f5d11"
  payload_sha512 := hexText (sampleProto.sha512 payloadAbc)
  inputs := [ascii "1cf126"]
  outputs := [ascii "1cf126"]

/-- The transaction with its signature by the key 2. -/
def sampleTransaction : Transaction where
  payload := payloadAbc
  header := sampleHeader
  header_signature := hexText (Crypto.bn2bin 32
      0x97e44e38fe2f01a4bfb880e2d4344fd14acd11498f6a79427bcfc55b18736167 ++
    Crypto.bn2bin 32 0x5d24e639b3f075ee3997cc6ff07a74dc32147253a64222a38d9cdde1eacbae1d)

def sampleBatchHeader : BatchHeader := ⟨[sampleTransaction.header_signature], publicOne⟩

/-- The digests of the two headers and their nonces. -/
def samples : Secp256k1.Samples where
  digests := [(sampleProto.transactionHeader sampleHeader,
      0xe4d5c7547f05f24582cc2b31ac99621fbae41db8c17a085052b9529aec067ec8),
    (sampleProto.batchHeader sampleBatchHeader,
      0x2fb978b92149b78c05e96bf3d2df85c6904ccb0fb148a6ef4f53a424c32ba21f)]
  nonces := [((0xe4d5c7547f05f24582cc2b31ac99621fbae41db8c17a085052b9529aec067ec8, 2),
      0x97e44e38fe2f01a4bfb880e2d4344fd14acd11498f6a79427bcfc55b18736167,
      0x2f5549b19e507549aacabaa099fe2b50b70cab948798c95dda6227753f9fd8fc, 0),
    ((0x2fb978b92149b78c05e96bf3d2df85c6904ccb0fb148a6ef4f53a424c32ba21f, 1),
      0x486e44e3b84c11c7e2b8ad1e7dd8a12e6675f42ef99d6e9d60bc5e02d38de879,
      0x4cab2d94a6643de1207a77c6302cdc212fd07beca2b808e55368bef84aa2e6bc, 0)]

def sampleEncoder : Encoder :=
  ⟨ascii "intkey", ascii "1.0", publicOne, publicOne,
    Secp256k1.keyPair samples.lib Secp256k1.one, Secp256k1.keyPair samples.lib Secp256k1.one⟩

def sampleOps : List Op :=
  let header := sampleProto.transactionHeader sampleHeader
  [.setSigner keyTwo, .setBatcher (ascii "no key"),
    .transaction payloadAbc [ascii "1cf126"] [ascii "1cf126"] sampleHeader.nonce (header.take 32),
    .batch [sampleTransaction] ((sampleProto.batchHeader sampleBatchHeader).take 32)]

/-- The signer is set, the batcher is not, and a transaction and its batch are made. -/
theorem run_signs_two :
    (∀ m ∈ moves (step samples.lib sampleProto) ⟨sampleEncoder, []⟩ sampleOps,
        Right samples.lib sampleProto m) ∧
      (final (step samples.lib sampleProto) ⟨sampleEncoder, []⟩ sampleOps).built =
        [sampleTransaction] := by
  have hkey : hex2bin 32 keyOne = some Secp256k1.one := by decide +kernel
  have hnew : new samples.lib (ascii "intkey") (ascii "1.0") keyOne = some sampleEncoder := by
    decide +kernel
  exact ⟨(run_signs_iff samples.trusted hkey (by decide +kernel) hnew (run_final _ _ _)).mpr
    (by decide +kernel), by decide +kernel⟩

/-- A key of zeros throws, and what is made after it is not signed at all. -/
theorem not_run_signs :
    let ops : List Op := [.setSigner (hexText (List.replicate 32 0)),
      .transaction payloadAbc [] [] [] []]
    let ms := moves (step samples.lib sampleProto) ⟨sampleEncoder, []⟩ ops
    Run (step samples.lib sampleProto) ⟨sampleEncoder, []⟩ ms
        (final (step samples.lib sampleProto) ⟨sampleEncoder, []⟩ ops) ∧
      (∃ txn, ms.getLast?.map Move.output = some (.transaction txn) ∧
        txn.header.signer_public_key = publicOne ∧ txn.header_signature = []) ∧
      ¬∀ m ∈ ms, Right samples.lib sampleProto m := by
  refine ⟨run_final _ _ _, ⟨_, rfl, by decide +kernel, by decide +kernel⟩, fun hright => ?_⟩
  have hlast := hright _ (List.mem_of_getLast? rfl)
  exact hlast.ne_nil (by decide +kernel)

end Encoder
end Suil
