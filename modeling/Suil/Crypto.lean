/-
Signatures (`suil::crypto`).

What OpenSSL provides is a parameter, with what is relied on as a list of assumptions.
`ECDSASign` signs SHA-256 of the data; `ECDSAVerify` looks for a signature of SHA-256 of
that.  The ways to write a signature down, and to read it again, lose nothing.

* `sign_spec` — what `ECDSASign` leaves in the signature;
* `reload_bin` — a signature that was written down and read again;
* `verifies_iff` — for which keys and messages the signature is accepted.
-/
import Suil.Lib.LittleEndian
import Suil.Base64

open LittleEndian

namespace Suil

namespace Crypto

/-- `Blob<N>` -/
abbrev Blob (n : ℕ) := { b : Bytes // b.length = n }

theorem length_padded {n : ℕ} {b : Bytes} (h : b.length ≤ n) :
    (b ++ List.replicate (n - b.length) 0).length = n := by
  rw [List.length_append, List.length_replicate]
  omega

/-- A zeroed blob with bytes at its front; none when they do not fit. -/
def Blob.filled (n : ℕ) (b : Bytes) : Option (Blob n) :=
  if h : b.length ≤ n then some ⟨b ++ List.replicate (n - b.length) 0, length_padded h⟩ else none

def Blob.zero (n : ℕ) : Blob n := ⟨List.replicate n 0, List.length_replicate⟩

/-- `BN_bin2bn` -/
def bin2bn (b : Bytes) : ℕ := valueLE b.reverse

/-- `BN_bn2bin` to the end of `w` zero bytes. -/
def bn2bin (w n : ℕ) : Bytes := (bytesLE w n).reverse

/-- What is used of OpenSSL, for secp256k1. -/
structure OpenSSL (Point : Type) where
  /-- `SHA256_Init`, `SHA256_Update` and `SHA256_Final` -/
  sha256 : Bytes → Bytes
  /-- `EC_GROUP_get_order`, `EC_GROUP_get_curve_GFp` and `EC_GROUP_get_degree` -/
  order : ℕ
  field : ℕ
  degree : ℕ
  /-- `EC_KEY_set_private_key` -/
  setPrivateKey : ℕ → Bool
  /-- `EC_POINT_mul` with the generator alone, and with a point as well. -/
  mulBase : ℕ → Point
  mul : ℕ → Point → ℕ → Point
  /-- `EC_POINT_is_at_infinity` -/
  isAtInfinity : Point → Bool
  /-- `EC_POINT_set_compressed_coordinates_GFp` -/
  setCompressed : ℕ → ℕ → Option Point
  /-- `BN_mod_inverse` -/
  modInverse : ℕ → ℕ → Option ℕ
  /-- `i2o_ECPublicKey` and `o2i_ECPublicKey`, compressed -/
  i2o : Point → Bytes
  o2i : Bytes → Option Point
  /-- `ECDSA_do_sign` with a private key, a digest and random bits. -/
  doSign : ℕ → Bytes → ℕ → Option (ℕ × ℕ)
  /-- `ECDSA_do_verify` -/
  doVerify : Point → Bytes → ℕ × ℕ → ℤ
  /-- `ECDSA_size` -/
  size : ℕ
  /-- `i2d_ECDSA_SIG` and `d2i_ECDSA_SIG` -/
  i2d : ℕ × ℕ → Bytes
  d2i : Bytes → Option (ℕ × ℕ)

/-- `ECKey` -/
structure ECKey (Point : Type) where
  secret : ℕ
  point : Point
  pub : Blob 33

/-- `ECDSASignature` -/
structure ECDSASignature where
  bin : Blob 72
  recId : ℤ

/-- A new signature. -/
def ECDSASignature.empty : ECDSASignature := ⟨Blob.zero 72, -1⟩

variable {Point : Type} (o : OpenSSL Point)

/-- `Hash256` -/
def hash256 (data : Bytes) : Bytes := o.sha256 (o.sha256 data)

/-- `ECKey::fromKey` -/
def fromKey (priv : Blob 32) : Option (ECKey Point) :=
  let secret := bin2bn priv.1
  if o.setPrivateKey secret then
    if h : (o.i2o (o.mulBase secret)).length = 33 then
      some ⟨secret, o.mulBase secret, ⟨o.i2o (o.mulBase secret), h⟩⟩
    else none
  else none

/-- `key2pub` into a new public key. -/
def key2pub (q : Point) : Blob 33 :=
  if h : (o.i2o q).length = 33 then ⟨o.i2o q, h⟩ else Blob.zero 33

/-- `ECDSA_SIG_recover_key_GFp` with the additional checks. -/
def recoverKey (sig : ℕ × ℕ) (msg : Bytes) (recid : ℕ) : Option Point := do
  let x := o.order * (recid / 2) + sig.1
  if o.field ≤ x then none
  let r ← o.setCompressed x (recid % 2)
  if !o.isAtInfinity (o.mul 0 r o.order) then none
  let e := if o.degree < 8 * msg.length then bin2bn msg >>> (8 - o.degree % 8) else bin2bn msg
  let e := (o.order - e % o.order) % o.order
  let rr ← o.modInverse sig.1 o.order
  let sor := sig.2 * rr % o.order
  let eor := e * rr % o.order
  some (o.mul eor r sor)

/-- The `RecId` that the loop over the four candidates leaves. -/
def recIdOf (sig : ℕ × ℕ) (digest : Bytes) (pub : Blob 33) (old : ℤ) : ℤ :=
  let found := (List.range 4).find? fun i =>
    (recoverKey o sig digest i).map (key2pub o) = some pub
  (found.map Nat.cast).getD old

/-- `ECDSASign` into a signature whose `RecId` was `old`.  It is `none` when the call
returns false, or writes past the signature. -/
def ECDSASign (random : ℕ) (old : ℤ) (priv : Blob 32) (data : Bytes) : Option ECDSASignature := do
  let key ← fromKey o priv
  let digest := o.sha256 data
  let (r, s) ← o.doSign key.secret digest random
  -- the one with an even `s`
  let s := if s % 2 = 1 then o.order - s else s
  if s % 2 = 1 ∨ o.size ≠ 72 then none
  else
    let bin ← Blob.filled 72 (o.i2d (r, s))
    let recId := recIdOf o (r, s) digest key.pub old
    if recId = -1 then none else some ⟨bin, recId⟩

/-- `ECDSAVerify` -/
def ECDSAVerify (data : Bytes) (sig : ECDSASignature) (pub : Blob 33) : Bool :=
  match o.o2i pub.1, o.d2i sig.bin.1 with
  | some key, some signature => o.doVerify key (hash256 o data) signature = 1
  | _, _ => false

/-! ### Written signatures -/

/-- `toCompactForm`; the empty string when it fails. -/
def toCompactForm (b64 : Bool) (sig : ECDSASignature) : Bytes :=
  match o.d2i sig.bin.1 with
  | none => []
  | some (r, s) =>
    if 2 ^ 256 ≤ r ∨ 2 ^ 256 ≤ s then []
    else
      let compact := UInt8.ofNat ((sig.recId + 31) % 256).toNat :: (bn2bin 32 r ++ bn2bin 32 s)
      if b64 then (Base64.encode compact).getD [] else hexText compact

/-- `b642bin` and `hex2bin` into zeroed bytes; none when they fail, or write past them. -/
def b642bin (behind : ℕ → UInt8) (n : ℕ) (text : Bytes) : Option (Blob n) :=
  (Base64.decode (Base64.stored text behind) text.length).bind (Blob.filled n)

def hex2bin (n : ℕ) (text : Bytes) : Option (Blob n) := (bytes text n).bind (Blob.filled n)

/-- `fromCompactForm`, from a string with something behind it in memory. -/
def fromCompactForm (behind : ℕ → UInt8) (b64 : Bool) (text : Bytes) : ECDSASignature :=
  let compact := if b64 then b642bin behind 65 text else hex2bin 65 text
  let sig := do
    let compact ← compact
    let r := bin2bn ((compact.1.drop 1).take 32)
    let s := bin2bn ((compact.1.drop 33).take 32)
    let bin ← Blob.filled 72 (o.i2d (r, s))
    let recId : ℤ := (compact.1.headD 0).toNat - 31
    some (⟨bin, (recId + 128) % 256 - 128⟩ : ECDSASignature)
  sig.getD .empty

/-- `Binary::loadString` into a new blob. -/
def loadString (n : ℕ) (str : Bytes) : Option (Blob n) :=
  if str.length / 2 ≠ n then none else hex2bin n str

/-- The ways to write a signature down. -/
inductive Form where
  | binary
  | compact (b64 : Bool)
  | hex

/-- A signature written down and read again. -/
def reload (behind : ℕ → UInt8) : Form → ECDSASignature → ECDSASignature
  | .binary, sig => sig
  | .compact b64, sig => fromCompactForm o behind b64 (toCompactForm o b64 sig)
  | .hex, sig => ⟨(loadString 72 (hexText sig.bin.1)).getD (Blob.zero 72), -1⟩

/-! ### What is relied on -/

/-- What is relied on of OpenSSL: the range of a signature, the two signatures with one `r`,
the encodings, and that a signature is valid for the digest it was made for. -/
structure Trusted : Prop where
  order_le : o.order ≤ 2 ^ 256
  sign_range : ∀ {d e k r s}, o.doSign d e k = some (r, s) → r < o.order ∧ 0 < s ∧ s < o.order
  verify_sign : ∀ {d e k sig}, o.doSign d e k = some sig → o.doVerify (o.mulBase d) e sig = 1
  verify_neg : ∀ {q e r s}, 0 < s → s < o.order →
    o.doVerify q e (r, o.order - s) = o.doVerify q e (r, s)
  o2i_i2o : ∀ {q}, (o.i2o q).length = 33 → o.o2i (o.i2o q) = some q
  length_i2d : ∀ {r s}, r < o.order → s < o.order → (o.i2d (r, s)).length ≤ o.size
  d2i_i2d : ∀ {r s} (rest : Bytes), r < o.order → s < o.order →
    o.d2i (o.i2d (r, s) ++ rest) = some (r, s)

/-- The signature made of the digest `e` is one of the digest `e'` too. -/
def AlsoSigns (d k : ℕ) (e e' : Bytes) : Prop :=
  ∀ sig, o.doSign d e k = some sig → o.doVerify (o.mulBase d) e' sig = 1

/-! ### Bytes -/

theorem length_bn2bin (w n : ℕ) : (bn2bin w n).length = w := by
  rw [bn2bin, List.length_reverse, length_bytesLE]

theorem bin2bn_bn2bin {w n : ℕ} (h : n < 256 ^ w) : bin2bn (bn2bin w n) = n := by
  rw [bin2bn, bn2bin, List.reverse_reverse, valueLE_bytesLE_of_lt h]

theorem filled_of_length {n : ℕ} {b : Bytes} (h : b.length = n) :
    Blob.filled n b = some ⟨b, h⟩ := by
  rw [Blob.filled, dif_pos h.le]
  simp [h]

theorem filled_bytes {n : ℕ} {b : Bytes} {blob : Blob n} (h : Blob.filled n b = some blob) :
    ∃ rest, blob.1 = b ++ rest := by
  rw [Blob.filled] at h
  split_ifs at h with hle
  exact ⟨_, (congrArg Subtype.val (Option.some.inj h)).symm⟩

/-! ### Signatures -/

variable {o}

theorem fromKey_spec {priv : Blob 32} {key : ECKey Point} (h : fromKey o priv = some key) :
    key.point = o.mulBase key.secret ∧ key.pub.1 = o.i2o key.point ∧
      (o.i2o key.point).length = 33 := by
  simp only [fromKey] at h
  split_ifs at h with hset hlen
  rw [← Option.some.inj h]
  exact ⟨rfl, rfl, hlen⟩

/-- A signature holds this pair. -/
structure Holds (o : OpenSSL Point) (sig : ECDSASignature) (r s : ℕ) : Prop where
  r_lt : r < o.order
  s_lt : s < o.order
  bin : Blob.filled 72 (o.i2d (r, s)) = some sig.bin

/-- What `ECDSASign` leaves in the signature: the pair that OpenSSL made, or the other one
with the same `r`. -/
theorem sign_spec (h : Trusted o) {random : ℕ} {old : ℤ} {priv : Blob 32} {data : Bytes}
    {sig : ECDSASignature} (hsign : ECDSASign o random old priv data = some sig) :
    ∃ key r s s', fromKey o priv = some key ∧
      o.doSign key.secret (o.sha256 data) random = some (r, s) ∧ (s' = s ∨ s' = o.order - s) ∧
      Holds o sig r s' := by
  rw [ECDSASign] at hsign
  simp only [Option.bind_eq_bind, Option.bind_eq_some_iff] at hsign
  obtain ⟨key, hkey, ⟨r, s⟩, hdo, hsign⟩ := hsign
  obtain ⟨hr, -, hs⟩ := h.sign_range hdo
  rw [Option.ite_none_left_eq_some] at hsign
  obtain ⟨-, hsign⟩ := hsign
  obtain ⟨bin, hbin, hsign⟩ := Option.bind_eq_some_iff.mp hsign
  obtain ⟨-, hsig⟩ := Option.ite_none_left_eq_some.mp hsign
  have hheld : sig.bin = bin := (congrArg ECDSASignature.bin (Option.some.inj hsig)).symm
  refine ⟨key, r, s, if s % 2 = 1 then o.order - s else s, hkey, hdo, ?_, hr, ?_, hheld ▸ hbin⟩
  · split_ifs
    · exact .inr rfl
    · exact .inl rfl
  · split_ifs
    · omega
    · exact hs

theorem Holds.d2i {sig : ECDSASignature} {r s : ℕ} (hsig : Holds o sig r s) (h : Trusted o) :
    o.d2i sig.bin.1 = some (r, s) := by
  obtain ⟨rest, hrest⟩ := filled_bytes hsig.bin
  rw [hrest, h.d2i_i2d rest hsig.r_lt hsig.s_lt]

/-- The compact text is read back into the same bytes, and its first byte tells the `RecId`. -/
theorem Holds.read_compact {sig : ECDSASignature} {r s : ℕ} (hsig : Holds o sig r s)
    (h : Trusted o) (behind : ℕ → UInt8) (b64 : Bool) :
    fromCompactForm o behind b64 (toCompactForm o b64 sig) =
      ⟨sig.bin, ((UInt8.ofNat ((sig.recId + 31) % 256).toNat).toNat - 31 + 128) % 256 - 128⟩ := by
  have hr : r < 256 ^ 32 := hsig.r_lt.trans_le h.order_le
  have hs : s < 256 ^ 32 := hsig.s_lt.trans_le h.order_le
  set compact := UInt8.ofNat ((sig.recId + 31) % 256).toNat :: (bn2bin 32 r ++ bn2bin 32 s)
    with hcompact
  have hlen : compact.length = 65 := by
    rw [hcompact, List.length_cons, List.length_append, length_bn2bin, length_bn2bin]
  have hread : (if b64 then b642bin behind 65 (toCompactForm o b64 sig)
      else hex2bin 65 (toCompactForm o b64 sig)) = some ⟨compact, hlen⟩ := by
    have hform : toCompactForm o b64 sig =
        if b64 then (Base64.encode compact).getD [] else hexText compact := by
      rw [toCompactForm, hsig.d2i h]
      simp only
      rw [if_neg (by omega)]
    rw [hform]
    cases b64 with
    | false =>
      simp only [Bool.false_eq_true, if_false]
      rw [hex2bin, bytes_hexText hlen.le, Option.bind_some, filled_of_length hlen]
    | true =>
      have hback := (Base64.decode_encode_iff compact behind).mpr
        ⟨List.ne_nil_of_length_pos (by omega), by rw [Base64.groups, hlen]; decide,
          by rw [Base64.groups, hlen]; decide⟩
      obtain ⟨text, htext, hdecode⟩ := Option.bind_eq_some_iff.mp hback
      simp only [if_true]
      rw [htext, Option.getD_some, b642bin, hdecode, Option.bind_some, filled_of_length hlen]
  have hr' : bin2bn ((compact.drop 1).take 32) = r := by
    rw [hcompact, List.drop_one, List.tail_cons, List.take_left' (length_bn2bin 32 r),
      bin2bn_bn2bin hr]
  have hs' : bin2bn ((compact.drop 33).take 32) = s := by
    rw [hcompact, List.drop_succ_cons, List.drop_left' (length_bn2bin 32 r),
      List.take_of_length_le (length_bn2bin 32 s).le, bin2bn_bn2bin hs]
  rw [fromCompactForm]
  simp only [hread, Option.bind_eq_bind, Option.bind_some, hr', hs', hsig.bin, Option.getD_some]
  rfl

theorem Holds.compact {sig : ECDSASignature} {r s : ℕ} (hsig : Holds o sig r s) (h : Trusted o)
    (behind : ℕ → UInt8) (b64 : Bool) :
    (fromCompactForm o behind b64 (toCompactForm o b64 sig)).bin = sig.bin := by
  rw [hsig.read_compact h behind b64]

/-- **Nothing is lost** on a signature that is written down and read again. -/
theorem reload_bin (h : Trusted o) {sig : ECDSASignature} {r s : ℕ} (hsig : Holds o sig r s)
    (behind : ℕ → UInt8) (form : Form) : (reload o behind form sig).bin = sig.bin := by
  cases form with
  | binary => rfl
  | compact b64 => exact hsig.compact h behind b64
  | hex =>
    have hlen : (hexText sig.bin.1).length / 2 = 72 := by
      rw [length_hexText, sig.bin.2]
    rw [reload, loadString, if_neg (by omega), hex2bin, bytes_hexText sig.bin.2.le,
      Option.bind_some, filled_of_length sig.bin.2]
    rfl

/-- **Which signatures are accepted**, in whatever form: those that are, with this key and
these random bits, signatures of the digest of the digest too. -/
theorem verifies_iff (h : Trusted o) {random : ℕ} {old : ℤ} {priv : Blob 32} {data : Bytes}
    {key : ECKey Point} {sig : ECDSASignature} (hkey : fromKey o priv = some key)
    (hsign : ECDSASign o random old priv data = some sig) (behind : ℕ → UInt8) (form : Form) :
    ECDSAVerify o data (reload o behind form sig) key.pub = true ↔
      AlsoSigns o key.secret random (o.sha256 data) (o.sha256 (o.sha256 data)) := by
  obtain ⟨key', r, s, s', hkey', hdo, hs', hholds⟩ := sign_spec h hsign
  obtain rfl := Option.some.inj (hkey.symm.trans hkey')
  obtain ⟨hpoint, hpub, hlen⟩ := fromKey_spec hkey
  obtain ⟨-, hpos, hlt⟩ := h.sign_range hdo
  have hsame : o.doVerify key.point (hash256 o data) (r, s') =
      o.doVerify (o.mulBase key.secret) (o.sha256 (o.sha256 data)) (r, s) := by
    rw [hpoint]
    rcases hs' with rfl | rfl
    · rfl
    · exact h.verify_neg hpos hlt
  rw [ECDSAVerify, hpub, h.o2i_i2o hlen, reload_bin h hholds, hholds.d2i h]
  simp only [hsame, decide_eq_true_eq]
  constructor
  · intro hv sig hsig
    obtain rfl := Option.some.inj (hdo.symm.trans hsig)
    exact hv
  · intro hv
    exact hv _ hdo

/-- They are when the two digests are the same. -/
theorem alsoSigns_of_eq (h : Trusted o) {d k : ℕ} {e e' : Bytes} (heq : e' = e) :
    AlsoSigns o d k e e' := by
  intro sig hsig
  rw [heq]
  exact h.verify_sign hsig

/-! ### One key and one message -/

/-- The order of the group, the prime of the field, and the first coordinate of the
generator. -/
def curveOrder : ℕ := 0xfffffffffffffffffffffffffffffffebaaedce6af48a03bbfd25e8cd0364141

def curveField : ℕ := 0xfffffffffffffffffffffffffffffffffffffffffffffffffffffffefffffc2f

def generatorX : ℕ := 0x79be667ef9dcbbac55a06295ce870b07029bfcdb2dce28d959f2815b16f81798

/-- The digest of "abc", and the digest of that. -/
def digestAbc : Bytes :=
  bn2bin 32 0xba7816bf8f01cfea414140de5dae2223b00361a396177a9cb410ff61f20015ad

def digestDigestAbc : Bytes :=
  bn2bin 32 0x4f8b42c22dd3729b519ba6f68d2da7cc5b2d606d05daed5ad5128cc03e6c6358

/-- The contents of an INTEGER: the shortest ones whose first bit is zero. -/
def derContents (v : ℕ) : Bytes :=
  let b := (bn2bin 32 v).dropWhile (· = 0)
  if b.headD 128 < 128 then b else 0 :: b

def derInteger (v : ℕ) : Bytes :=
  2 :: UInt8.ofNat (derContents v).length :: derContents v

def readInteger : Bytes → Option (ℕ × Bytes)
  | 2 :: l :: rest => some (bin2bn (rest.take l.toNat), rest.drop l.toNat)
  | _ => none

def derSequence (sig : ℕ × ℕ) : Bytes :=
  48 :: UInt8.ofNat (derInteger sig.1 ++ derInteger sig.2).length ::
    (derInteger sig.1 ++ derInteger sig.2)

def readSequence : Bytes → Option (ℕ × ℕ)
  | 48 :: _ :: b => do
    let (r, b) ← readInteger b
    let (s, _) ← readInteger b
    some (r, s)
  | _ => none

/-- The curve as far as random bits that are 1 lead: a point is the multiple of the generator
that it is, and the digests are those of "abc". -/
def secp256k1 : OpenSSL ℕ where
  sha256 data :=
    if data = ascii "abc" then digestAbc
    else if data = digestAbc then digestDigestAbc else List.replicate 32 0
  order := curveOrder
  field := curveField
  degree := 256
  setPrivateKey d := 0 < d && d < curveOrder
  mulBase d := d % curveOrder
  mul a q b := (a + b * q) % curveOrder
  isAtInfinity q := q = 0
  setCompressed x odd :=
    if x = generatorX then some (if odd = 0 then 1 else curveOrder - 1) else none
  modInverse a _ :=
    if a = generatorX then some 0x1dd887b3eaf153260a95e8b9fd31f60ac115d26ccbe1f572c0b8d7a6dec520fe
    else none
  i2o q :=
    if q = 1 then 2 :: bn2bin 32 generatorX
    else if 0 < q ∧ q < curveOrder then 3 :: bn2bin 32 q else [0]
  o2i
    | 2 :: b => if b = bn2bin 32 generatorX then some 1 else none
    | 3 :: b => some (bin2bn b)
    | _ => none
  doSign d e k :=
    let s := (bin2bn e + generatorX * d) % curveOrder
    if k = 1 ∧ 0 < s then some (generatorX, s) else none
  doVerify q e sig :=
    let v := (bin2bn e + generatorX * q) % curveOrder
    if sig.1 = generatorX ∧ 0 < sig.2 ∧ sig.2 < curveOrder ∧ (v = sig.2 ∨ v = curveOrder - sig.2)
    then 1 else 0
  size := 72
  i2d := derSequence
  d2i := readSequence

theorem valueLE_append_zero (b : Bytes) : valueLE (b ++ [0]) = valueLE b := by
  induction b with
  | nil => rfl
  | cons x b ih => rw [List.cons_append, valueLE_cons, valueLE_cons, ih]

theorem bin2bn_zero_cons (b : Bytes) : bin2bn (0 :: b) = bin2bn b := by
  rw [bin2bn, List.reverse_cons, valueLE_append_zero, bin2bn]

theorem bin2bn_dropWhile (b : Bytes) : bin2bn (b.dropWhile (· = 0)) = bin2bn b := by
  induction b with
  | nil => rfl
  | cons x b ih =>
    by_cases hx : x = 0
    · rw [hx, List.dropWhile_cons_of_pos (by decide), ih, bin2bn_zero_cons]
    · rw [List.dropWhile_cons_of_neg (by simpa using hx)]

theorem derContents_spec {v : ℕ} (h : v < curveOrder) :
    bin2bn (derContents v) = v ∧ (derContents v).length ≤ 33 := by
  have hlen := ((bn2bin 32 v).dropWhile_suffix (· = 0)).length_le
  rw [length_bn2bin] at hlen
  have hvalue := (bin2bn_dropWhile (bn2bin 32 v)).trans
    (bin2bn_bn2bin (h.trans_le (by decide)))
  rw [derContents]
  split_ifs
  · exact ⟨hvalue, by omega⟩
  · rw [bin2bn_zero_cons, List.length_cons]
    exact ⟨hvalue, by omega⟩

theorem readInteger_derInteger {v : ℕ} (h : v < curveOrder) (rest : Bytes) :
    readInteger (derInteger v ++ rest) = some (v, rest) := by
  obtain ⟨hvalue, hlen⟩ := derContents_spec h
  have hl : (UInt8.ofNat (derContents v).length).toNat = (derContents v).length := by
    rw [UInt8.toNat_ofNat']
    omega
  rw [derInteger, List.cons_append, List.cons_append, readInteger, hl, List.take_left,
    List.drop_left, hvalue]

theorem length_derInteger {v : ℕ} (h : v < curveOrder) : (derInteger v).length ≤ 35 := by
  have hlen := (derContents_spec h).2
  rw [derInteger, List.length_cons, List.length_cons]
  omega

theorem trusted_secp256k1 : Trusted secp256k1 where
  order_le := by decide
  sign_range := by
    intro d e k r s h
    simp only [secp256k1, Option.ite_none_right_eq_some, Option.some.injEq, Prod.mk.injEq] at h
    obtain ⟨⟨-, hpos⟩, rfl, rfl⟩ := h
    exact ⟨by decide, hpos, Nat.mod_lt _ (by decide)⟩
  verify_sign := by
    intro d e k sig h
    simp only [secp256k1, Option.ite_none_right_eq_some, Option.some.injEq] at h
    obtain ⟨⟨-, hpos⟩, rfl⟩ := h
    simp only [secp256k1]
    refine if_pos ⟨trivial, hpos, Nat.mod_lt _ (by decide), .inl ?_⟩
    rw [Nat.add_mod, Nat.mul_mod_mod, ← Nat.add_mod]
  verify_neg := by
    intro q e r s hpos hlt
    simp only [secp256k1] at hlt ⊢
    generalize (bin2bn e + generatorX * q) % curveOrder = v
    generalize curveOrder = n at hlt ⊢
    refine if_congr (and_congr_right fun _ => ?_) rfl rfl
    omega
  o2i_i2o := by
    intro q h
    simp only [secp256k1] at h ⊢
    split_ifs at h ⊢ with h₁ h₂
    · rw [h₁]
      rfl
    · exact congrArg some (bin2bn_bn2bin (h₂.2.trans_le (by decide)))
    · simp at h
  length_i2d := by
    intro r s hr hs
    have hr' := length_derInteger hr
    have hs' := length_derInteger hs
    show (derSequence (r, s)).length ≤ 72
    simp only [derSequence, List.length_cons, List.length_append]
    omega
  d2i_i2d := by
    intro r s rest hr hs
    show readSequence (derSequence (r, s) ++ rest) = some (r, s)
    simp only [derSequence, List.cons_append, List.append_assoc, readSequence,
      readInteger_derInteger hr, readInteger_derInteger hs, Option.bind_eq_bind, Option.bind_some]

/-- The private key 1. -/
def one : Blob 32 := ⟨bn2bin 32 1, length_bn2bin 32 1⟩

/-- It signs "abc", and the signature is not accepted. -/
def signedAbc : Option (ECKey ℕ × ECDSASignature) := do
  let key ← fromKey secp256k1 one
  let sig ← ECDSASign secp256k1 1 (-1) one (ascii "abc")
  some (key, sig)

theorem verifies_iff_abc : ∃ key sig, fromKey secp256k1 one = some key ∧
    ECDSASign secp256k1 1 (-1) one (ascii "abc") = some sig ∧ ∀ behind form,
      (ECDSAVerify secp256k1 (ascii "abc") (reload secp256k1 behind form sig) key.pub = true ↔
        AlsoSigns secp256k1 key.secret 1 (secp256k1.sha256 (ascii "abc"))
          (secp256k1.sha256 (secp256k1.sha256 (ascii "abc")))) := by
  have hkey : (fromKey secp256k1 one).isSome = true := by decide +kernel
  have hsig : (ECDSASign secp256k1 1 (-1) one (ascii "abc")).isSome = true := by decide +kernel
  obtain ⟨key, hkey⟩ := Option.isSome_iff_exists.mp hkey
  obtain ⟨sig, hsig⟩ := Option.isSome_iff_exists.mp hsig
  exact ⟨key, sig, hkey, hsig, fun behind form =>
    verifies_iff trusted_secp256k1 hkey hsig behind form⟩

theorem not_verifies : (signedAbc.map fun x =>
    ECDSAVerify secp256k1 (ascii "abc") x.2 x.1.pub) = some false := by decide +kernel

end Crypto

end Suil
