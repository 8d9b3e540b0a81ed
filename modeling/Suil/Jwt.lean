/-
JSON web tokens.

A token is a header, a payload and a signature with dots between them, the first
two in JSON and base64.  `decode` splits at every dot and `verify` at the last one;
what is signed is in both the text before the last dot.  That dot is looked for with
an `int`, and the length of a key is handed on as one.

* `verify_eq`, `decodes_true` — what the two accept;
* `guards_iff` — for which tokens and keys nothing but a signature is accepted;
* `encoded_decodes_iff` — which tokens are decoded to what was encoded.
-/
import Suil.Base64Url
import Suil.Json
import Suil.StringParts

namespace Suil

/-- The exceptions that a token can lead to. -/
inductive JwtError where
  | decode (msg : String)
  | invalidArguments
  | json
deriving DecidableEq, Repr

/-- What `HMAC` computes with SHA-256. -/
abbrev Digest := { d : Bytes // d.length = 32 }

/-- JSON for one type; none when decoding throws.  What a text does not mention keeps the
value it had. -/
structure JsonCodec (α : Type) where
  encode : α → Bytes
  decode : Bytes → α → Option α

structure JwtHeader where
  typ : Bytes := ascii "JWT"
  alg : Bytes := ascii "HS256"
deriving DecidableEq

structure JwtPayload (N : Type) where
  iss : Bytes := []
  aud : Bytes := []
  sub : Bytes := []
  exp : Int64 := 0
  iat : Int64 := 0
  nbf : Int64 := 0
  jti : Bytes := []
  claims : Json N := .object []

structure Jwt (N : Type) where
  header : JwtHeader := {}
  payload : JwtPayload N := {}

/-- What the tokens rest on: `HMAC` and the JSON of the two parts. -/
structure JwtCodec (N : Type) where
  hmac : Bytes → Bytes → Digest
  header : JsonCodec JwtHeader
  payload : JsonCodec (JwtPayload N)

/-- The text of a value is decoded to it over a fresh one, and no first part of the text is:
an object ends with its closing brace. -/
structure JsonCodec.Reads {α : Type} (c : JsonCodec α) (fresh a : α) : Prop where
  whole : c.decode (c.encode a) fresh = some a
  first_part : ∀ n < (c.encode a).length, c.decode ((c.encode a).take n) fresh ≠ some a

namespace Jwt

variable {N : Type} (C : JwtCodec N)

/-- `SHA_HMAC256`, in base64; none for a key whose length is negative as an `int`. -/
def hmac256 (secret data : Bytes) : Option Bytes :=
  if secret.length < 2 ^ 31 then Base64.urlEncode (C.hmac secret data).1 else none

/-- A token that is no token. -/
def invalid {α : Type} (fault : Bool) (a : α) : Call JwtError α :=
  if fault then .error (.raised (.decode "invalid token")) else .ok a

/-- What reading a part of a signed token comes to: all that goes wrong is thrown. -/
def thrown {α : Type} (e : JwtError) : Option α → Call JwtError α
  | none => .error (.raised e)
  | some a => .ok a

/-- `Jwt::decode`. -/
def decode (jwt : Jwt N) (jstr secret : Bytes) (fault : Bool) : Call JwtError (Bool × Jwt N) := do
  match ← rfind jstr 46 with
  | none => invalid fault (false, jwt)
  | some pos =>
    match parts 46 jstr with
    | [part₀, part₁, part₂] =>
      let data := substr jstr 0 pos
      match hmac256 C secret data with
      | none => .error .crash
      | some signature =>
        if strEq signature part₂ = false then return (false, jwt)
        let text ← thrown .invalidArguments (Base64.urlDecode part₀)
        let header ← thrown .json (C.header.decode text jwt.header)
        let text ← thrown .invalidArguments (Base64.urlDecode part₁)
        let payload ← thrown .json (C.payload.decode text jwt.payload)
        return (true, ⟨header, payload⟩)
    | _ => invalid fault (false, jwt)

/-- `Jwt::verify`. -/
def verify (jstr secret : Bytes) (fault : Bool) : Call JwtError Bool := do
  match ← rfind jstr 46 with
  | none => invalid fault false
  | some pos =>
    let data := substr jstr 0 pos
    match hmac256 C secret data with
    | none => .error .crash
    | some signature => return strEq signature (substr jstr (pos + 1) 0)

/-- `Jwt::encode`; none when it throws or leaves the memory of its buffer. -/
def encode (jwt : Jwt N) (secret : Bytes) : Option Bytes := do
  let header := C.header.encode jwt.header
  let payload := C.payload.encode jwt.payload
  let maxSize := 2 + header.length + payload.length + 32
  let tmp ← Buffer.new (maxSize / 4 + maxSize / 8 + maxSize + 2)
  let tmp ← Base64.urlEncodeTo tmp header
  let tmp ← tmp.append [46]
  let tmp ← Base64.urlEncodeTo tmp payload
  let signature ← hmac256 C secret tmp.bytes
  let tmp ← tmp.append [46]
  let tmp ← tmp.append signature
  some tmp.bytes

/-- The signature of a text. -/
def signature (secret data : Bytes) : Bytes := Base64.urlText (C.hmac secret data).1

/-- The text behind the last dot of a token is the signature of the text before it. -/
def Signed (jstr secret : Bytes) : Prop :=
  ∃ data, jstr = data ++ 46 :: signature C secret data

/-- The last dot, if there is one, is neither the first nor the last character. -/
def Dotted (jstr : Bytes) : Prop :=
  ∀ data rest, jstr = data ++ 46 :: rest → (46 : UInt8) ∉ rest → data ≠ [] ∧ rest ≠ []

/-- What rejects a token: false or a `JwtDecodeError`. -/
def Rejected (r : Call JwtError Bool) : Prop :=
  r = .ok false ∨ ∃ msg, r = .error (.raised (.decode msg))

/-- A token that was encoded is decoded to what was encoded. -/
def RoundTrips (jwt : Jwt N) (secret : Bytes) (fault : Bool) : Prop :=
  ∃ jstr, encode C jwt secret = some jstr ∧ decode C {} jstr secret fault = .ok (true, jwt)

/-- The length of the token that `encode` is to write. -/
def tokenLength (jwt : Jwt N) : ℕ :=
  (4 * (C.header.encode jwt.header).length + 2) / 3 +
    (4 * (C.payload.encode jwt.payload).length + 2) / 3 + 45

/-- Nothing but a signature is accepted, and what has none is rejected. -/
structure Guards (decodes verifies : Call JwtError Bool) (signed : Prop) : Prop where
  verified : decodes = .ok true → verifies = .ok true
  signed_of_decodes : decodes = .ok true → signed
  signed_of_verifies : verifies = .ok true → signed
  rejected : ¬ signed → Rejected decodes ∧ Rejected verifies

end Jwt

namespace Jwt

variable {N : Type} {C : JwtCodec N} {jwt : Jwt N} {jstr secret data rest : Bytes} {fault : Bool}

/-! ### Signatures -/

theorem length_signature (secret data : Bytes) : (signature C secret data).length = 43 := by
  rw [signature, Base64.length_urlText, (C.hmac secret data).2]

theorem signature_ne_nil : signature C secret data ≠ [] := by
  rw [← List.length_pos_iff, length_signature]
  decide

theorem not_mem_signature : (46 : UInt8) ∉ signature C secret data ∧
    (0 : UInt8) ∉ signature C secret data :=
  ⟨fun h => (Base64.urlText_ne h).1 rfl, fun h => (Base64.urlText_ne h).2 rfl⟩

theorem hmac256_eq (hk : secret.length < 2 ^ 31) (data : Bytes) :
    hmac256 C secret data = some (signature C secret data) := by
  have hlen := (C.hmac secret data).2
  rw [hmac256, if_pos hk, Base64.urlEncode_eq (by rw [hlen]; norm_num)]
  rfl

theorem hmac256_eq_none (hk : ¬ secret.length < 2 ^ 31) (data : Bytes) :
    hmac256 C secret data = none :=
  if_neg hk

/-- Comparing with a signature is equality. -/
theorem strEq_signature {text : Bytes} :
    strEq (signature C secret data) text = true ↔ text = signature C secret data :=
  strEq_eq_true_iff not_mem_signature.2 signature_ne_nil

/-- A token is signed by what stands around its last dot. -/
theorem signed_append_iff (hrest : (46 : UInt8) ∉ rest) :
    Signed C (data ++ 46 :: rest) secret ↔ rest = signature C secret data := by
  constructor
  · rintro ⟨data', heq⟩
    obtain ⟨rfl, hsig⟩ := split_last_inj heq hrest not_mem_signature.1
    exact hsig
  · rintro rfl
    exact ⟨data, rfl⟩

theorem not_signed_of_not_mem (h : (46 : UInt8) ∉ jstr) : ¬ Signed C jstr secret := by
  rintro ⟨data, rfl⟩
  exact h (by simp)

/-! ### What is accepted -/

theorem substr_data (hne : data ≠ []) : substr (data ++ 46 :: rest) 0 data.length = data := by
  have hlen : data.length ≠ 0 := by simpa using hne
  rw [substr, if_neg hlen, if_pos ⟨hlen, by simp⟩, List.drop_zero, List.take_left]

theorem substr_signature : substr (data ++ 46 :: rest) (data.length + 1) 0 = rest := by
  rw [substr_rest, ← List.drop_drop, List.drop_left]
  rfl

/-- **`verify`** is defined unless one of the lengths is 2^31 or more. -/
theorem verify_eq (hne : data ≠ []) (hrest : (46 : UInt8) ∉ rest)
    (hlen : (data ++ 46 :: rest).length < 2 ^ 31) :
    verify C (data ++ 46 :: rest) secret fault =
      if secret.length < 2 ^ 31 then .ok (strEq (signature C secret data) rest)
      else .error .crash := by
  rw [verify, rfind_append hrest hlen]
  simp only [bind, Except.bind]
  rw [substr_data hne, substr_signature]
  split_ifs with hk
  · rw [hmac256_eq hk]
    rfl
  · rw [hmac256_eq_none hk]

theorem verify_of_not_mem (h : (46 : UInt8) ∉ jstr) (hlen : jstr.length < 2 ^ 31) :
    verify C jstr secret fault = invalid fault false := by
  rw [verify, rfind_of_not_mem h hlen]
  rfl

theorem decode_of_not_mem (h : (46 : UInt8) ∉ jstr) (hlen : jstr.length < 2 ^ 31) :
    decode C jwt jstr secret fault = invalid fault (false, jwt) := by
  rw [decode, rfind_of_not_mem h hlen]
  rfl

/-- Where there are three parts the last one is compared. -/
theorem decode_of_parts {part₀ part₁ part₂ : Bytes} (hne : data ≠ []) (hrest : (46 : UInt8) ∉ rest)
    (hlen : (data ++ 46 :: rest).length < 2 ^ 31)
    (hparts : parts 46 (data ++ 46 :: rest) = [part₀, part₁, part₂]) :
    decode C jwt (data ++ 46 :: rest) secret fault =
      if secret.length < 2 ^ 31 then
        if part₂ = signature C secret data then do
          let text ← thrown .invalidArguments (Base64.urlDecode part₀)
          let header ← thrown .json (C.header.decode text jwt.header)
          let text ← thrown .invalidArguments (Base64.urlDecode part₁)
          let payload ← thrown .json (C.payload.decode text jwt.payload)
          return (true, ⟨header, payload⟩)
        else .ok (false, jwt)
      else .error .crash := by
  rw [decode, rfind_append hrest hlen]
  simp only [bind, Except.bind, hparts]
  rw [substr_data hne]
  by_cases hk : secret.length < 2 ^ 31
  · rw [hmac256_eq hk, if_pos hk]
    by_cases heq : part₂ = signature C secret data
    · rw [if_pos heq]
      simp only [strEq_signature.mpr heq]
      rfl
    · have hneq : strEq (signature C secret data) part₂ = false := by
        rw [← Bool.not_eq_true]
        exact fun h => heq (strEq_signature.mp h)
      rw [if_neg heq]
      simp only [hneq]
      rfl
  · rw [hmac256_eq_none hk, if_neg hk]

theorem decode_of_not_three (hrest : (46 : UInt8) ∉ rest)
    (hlen : (data ++ 46 :: rest).length < 2 ^ 31)
    (hparts : ∀ part₀ part₁ part₂, parts 46 (data ++ 46 :: rest) ≠ [part₀, part₁, part₂]) :
    decode C jwt (data ++ 46 :: rest) secret fault = invalid fault (false, jwt) := by
  rw [decode, rfind_append hrest hlen]
  simp only [bind, Except.bind]

/-- The third of three parts stands behind the last dot. -/
theorem eq_of_three (hd : Dotted jstr) {part₀ part₁ part₂ : Bytes}
    (hparts : parts 46 jstr = [part₀, part₁, part₂]) :
    jstr = (part₀ ++ 46 :: part₁) ++ 46 :: part₂ := by
  obtain ⟨last, hlast, hjoin⟩ := partsLoop_join 46 [] jstr
  have hthree : partsLoop 46 [] jstr = [part₀, part₁, part₂] := hparts
  rw [List.nil_append, hthree] at hjoin
  rcases hlast with rfl | rfl
  · rw [hjoin]
    simp [List.intercalate]
  · exact absurd rfl (hd _ [] hjoin List.not_mem_nil).2

theorem rejected_invalid (fault : Bool) : Rejected (invalid fault false) := by
  cases fault with
  | false => exact .inl rfl
  | true => exact .inr ⟨_, rfl⟩

theorem map_invalid (fault : Bool) (jwt : Jwt N) :
    (invalid fault (false, jwt)).map Prod.fst = invalid fault false := by
  cases fault <;> rfl

theorem not_rejected_crash : ¬ Rejected (.error .crash) := by
  rintro (h | ⟨msg, h⟩) <;> cases h

/-- Without a signature `decode` does not accept, and rejects where the lengths are below
2^31. -/
theorem decode_of_not_signed (hd : Dotted jstr) (hsigned : ¬ Signed C jstr secret)
    (hlen : jstr.length < 2 ^ 31) (hk : secret.length < 2 ^ 31 ∨ (46 : UInt8) ∉ jstr) :
    Rejected ((decode C jwt jstr secret fault).map Prod.fst) := by
  by_cases hmem : (46 : UInt8) ∈ jstr
  · have hkey : secret.length < 2 ^ 31 := hk.resolve_right (not_not.mpr hmem)
    obtain ⟨data, rest, rfl, hrest⟩ := exists_last_of_mem hmem
    obtain ⟨hne, -⟩ := hd _ _ rfl hrest
    by_cases hthree : ∃ part₀ part₁ part₂, parts 46 (data ++ 46 :: rest) = [part₀, part₁, part₂]
    · obtain ⟨part₀, part₁, part₂, hparts⟩ := hthree
      rw [decode_of_parts hne hrest hlen hparts, if_pos hkey, if_neg]
      · exact .inl rfl
      · -- a part that is the signature stands behind the last dot
        intro hsig
        have hpart : (46 : UInt8) ∉ part₂ := hsig ▸ not_mem_signature.1
        obtain ⟨-, heq⟩ := split_last_inj (eq_of_three hd hparts) hrest hpart
        exact hsigned ((signed_append_iff hrest).mpr (heq.trans hsig))
    · rw [decode_of_not_three hrest hlen fun p₀ p₁ p₂ h => hthree ⟨p₀, p₁, p₂, h⟩, map_invalid]
      exact rejected_invalid fault
  · rw [decode_of_not_mem hmem hlen, map_invalid]
    exact rejected_invalid fault

theorem decode_of_long (h : ¬ jstr.length < 2 ^ 31) :
    decode C jwt jstr secret fault = .error .crash := by
  rw [decode, rfind, if_neg h]
  rfl

theorem verify_of_long (h : ¬ jstr.length < 2 ^ 31) : verify C jstr secret fault = .error .crash := by
  rw [verify, rfind, if_neg h]
  rfl

/-- A key that is too long is not accepted. -/
theorem decode_of_long_key (hd : Dotted jstr) (hlen : jstr.length < 2 ^ 31)
    (hmem : (46 : UInt8) ∈ jstr) (hk : ¬ secret.length < 2 ^ 31) :
    (decode C jwt jstr secret fault).map Prod.fst ≠ .ok true := by
  obtain ⟨data, rest, rfl, hrest⟩ := exists_last_of_mem hmem
  obtain ⟨hne, -⟩ := hd _ _ rfl hrest
  by_cases hthree : ∃ part₀ part₁ part₂, parts 46 (data ++ 46 :: rest) = [part₀, part₁, part₂]
  · obtain ⟨part₀, part₁, part₂, hparts⟩ := hthree
    rw [decode_of_parts hne hrest hlen hparts, if_neg hk]
    intro h
    cases h
  · rw [decode_of_not_three hrest hlen fun p₀ p₁ p₂ h => hthree ⟨p₀, p₁, p₂, h⟩, map_invalid]
    cases fault <;> simp [invalid]

theorem not_accepted_of_rejected {r : Call JwtError Bool} (h : Rejected r) : r ≠ .ok true := by
  rintro rfl
  rcases h with h | ⟨msg, h⟩ <;> cases h

/-- **The tokens and keys** for which nothing but a signature is accepted, and the rest
rejected. -/
theorem guards_iff (hd : Dotted jstr) :
    Guards ((decode C jwt jstr secret fault).map Prod.fst) (verify C jstr secret fault)
        (Signed C jstr secret) ↔
      Signed C jstr secret ∨
        jstr.length < 2 ^ 31 ∧ (secret.length < 2 ^ 31 ∨ (46 : UInt8) ∉ jstr) := by
  by_cases hlen : jstr.length < 2 ^ 31
  · by_cases hsigned : Signed C jstr secret
    · refine iff_of_true ⟨fun hdec => ?_, fun _ => hsigned, fun _ => hsigned,
        fun h => absurd hsigned h⟩ (.inl hsigned)
      have hmem : (46 : UInt8) ∈ jstr := by
        by_contra h
        exact not_signed_of_not_mem h hsigned
      have hk : secret.length < 2 ^ 31 := by
        by_contra hk
        exact decode_of_long_key hd hlen hmem hk hdec
      obtain ⟨data, rest, rfl, hrest⟩ := exists_last_of_mem hmem
      rw [verify_eq (hd _ _ rfl hrest).1 hrest hlen, if_pos hk]
      exact congrArg _ (strEq_signature.mpr ((signed_append_iff hrest).mp hsigned))
    · by_cases hk : secret.length < 2 ^ 31 ∨ (46 : UInt8) ∉ jstr
      · have hdec : Rejected ((decode C jwt jstr secret fault).map Prod.fst) :=
          decode_of_not_signed hd hsigned hlen hk
        have hver : Rejected (verify C jstr secret fault) := by
          by_cases hmem : (46 : UInt8) ∈ jstr
          · have hkey := hk.resolve_right (not_not.mpr hmem)
            obtain ⟨data, rest, rfl, hrest⟩ := exists_last_of_mem hmem
            rw [verify_eq (hd _ _ rfl hrest).1 hrest hlen, if_pos hkey]
            refine .inl (congrArg _ ?_)
            rw [← Bool.not_eq_true, strEq_signature, ← signed_append_iff hrest]
            exact hsigned
          · rw [verify_of_not_mem hmem hlen]
            exact rejected_invalid fault
        exact iff_of_true ⟨fun h => absurd h (not_accepted_of_rejected hdec),
          fun h => absurd h (not_accepted_of_rejected hdec),
          fun h => absurd h (not_accepted_of_rejected hver), fun _ => ⟨hdec, hver⟩⟩
          (.inr ⟨hlen, hk⟩)
      · rw [not_or, not_not] at hk
        obtain ⟨hkey, hmem⟩ := hk
        refine iff_of_false (fun hg => ?_) fun h => ?_
        · obtain ⟨data, rest, rfl, hrest⟩ := exists_last_of_mem hmem
          have hver := (hg.rejected hsigned).2
          rw [verify_eq (hd _ _ rfl hrest).1 hrest hlen, if_neg hkey] at hver
          exact not_rejected_crash hver
        · rcases h with h | ⟨-, h | h⟩
          · exact hsigned h
          · exact hkey h
          · exact h hmem
  · have hcrash : verify C jstr secret fault = .error .crash := verify_of_long hlen
    rw [decode_of_long hlen, hcrash]
    constructor
    · intro hg
      by_contra h
      exact not_rejected_crash (hg.rejected fun hsigned => h (.inl hsigned)).2
    · rintro (hsigned | ⟨h, -⟩)
      · exact ⟨nofun, fun _ => hsigned, fun _ => hsigned, fun h => absurd hsigned h⟩
      · exact absurd h hlen

theorem dotted_append (hne : data ≠ []) (hrest : rest ≠ []) (hmem : (46 : UInt8) ∉ rest) :
    Dotted (data ++ 46 :: rest) := by
  intro data' rest' heq hmem'
  obtain ⟨rfl, rfl⟩ := split_last_inj heq hmem hmem'
  exact ⟨hne, hrest⟩

theorem dotted_of_not_mem (h : (46 : UInt8) ∉ jstr) : Dotted jstr := by
  rintro data rest rfl -
  exact absurd (by simp) h

/-! ### Encoding -/

theorem urlEncodeText_cases {data out : Bytes} (h : Base64.urlEncodeText data = some out) :
    ∃ m, out = Base64.urlText (data.take m) ∧ (data.length ≤ m → data.length < 2 ^ 31) := by
  rcases lt_or_ge data.length (2 ^ 31) with hlt | hge
  · rw [Base64.urlEncodeText_whole hlt] at h
    exact ⟨data.length, by rw [List.take_length, Option.some.inj h], fun _ => hlt⟩
  · obtain ⟨m, hm, hout⟩ := Base64.urlEncodeText_cut hge h
    exact ⟨m, hout, fun hle => absurd hm (not_lt.mpr hle)⟩

/-- What `encode` writes is made of the texts of the two parts. -/
theorem encode_bytes (h : encode C jwt secret = some jstr) :
    ∃ text₀ text₁, Base64.urlEncodeText (C.header.encode jwt.header) = some text₀ ∧
      Base64.urlEncodeText (C.payload.encode jwt.payload) = some text₁ ∧
      secret.length < 2 ^ 31 ∧
      jstr = (text₀ ++ 46 :: text₁) ++ 46 :: signature C secret (text₀ ++ 46 :: text₁) := by
  obtain ⟨tmp, hnew, h⟩ := Option.bind_eq_some_iff.mp h
  obtain ⟨tmp₁, hheader, h⟩ := Option.bind_eq_some_iff.mp h
  obtain ⟨tmp₂, hdot, h⟩ := Option.bind_eq_some_iff.mp h
  obtain ⟨tmp₃, hpayload, h⟩ := Option.bind_eq_some_iff.mp h
  obtain ⟨sig, hsig, h⟩ := Option.bind_eq_some_iff.mp h
  obtain ⟨tmp₄, hdot', h⟩ := Option.bind_eq_some_iff.mp h
  obtain ⟨tmp₅, hend, h⟩ := Option.bind_eq_some_iff.mp h
  obtain ⟨ob, hnew', hempty, -⟩ := Buffer.new_eq_some _
  obtain rfl := Option.some.inj (hnew.symm.trans hnew')
  obtain ⟨text₀, htext₀, hbytes₁⟩ := Base64.urlEncodeTo_bytes hheader
  obtain ⟨text₁, htext₁, hbytes₃⟩ := Base64.urlEncodeTo_bytes hpayload
  have hk : secret.length < 2 ^ 31 := by
    by_contra hk
    rw [hmac256_eq_none hk] at hsig
    cases hsig
  have hdata : tmp₃.bytes = text₀ ++ 46 :: text₁ := by
    rw [hbytes₃, Buffer.append_bytes hdot, hbytes₁, hempty, List.nil_append, List.append_assoc,
      List.singleton_append]
  rw [hmac256_eq hk, hdata] at hsig
  refine ⟨text₀, text₁, htext₀, htext₁, hk, ?_⟩
  rw [← Option.some.inj h, Buffer.append_bytes hend, Buffer.append_bytes hdot', hdata,
    ← Option.some.inj hsig, List.append_assoc, List.singleton_append]

/-- A token is a text that ends at its zero byte. -/
theorem encode_zero_free (h : encode C jwt secret = some jstr) :
    (0 : UInt8) ∉ jstr ∧ jstr ≠ [] := by
  obtain ⟨text₀, text₁, htext₀, htext₁, -, rfl⟩ := encode_bytes h
  obtain ⟨m₀, rfl, -⟩ := urlEncodeText_cases htext₀
  obtain ⟨m₁, rfl, -⟩ := urlEncodeText_cases htext₁
  refine ⟨fun hzero => ?_, by simp⟩
  simp only [List.mem_append, List.mem_cons] at hzero
  rcases hzero with (hzero | hzero | hzero) | hzero | hzero
  · exact (Base64.urlText_ne hzero).2 rfl
  · cases hzero
  · exact (Base64.urlText_ne hzero).2 rfl
  · cases hzero
  · exact (Base64.urlText_ne hzero).2 rfl

/-- The buffer of `encode` has room for the token. -/
theorem encode_of_fits (hlen : tokenLength C jwt < 2 ^ 31) (hk : secret.length < 2 ^ 31) :
    ∃ jstr, encode C jwt secret = some jstr := by
  rw [tokenLength] at hlen
  set header := C.header.encode jwt.header with hheader
  set payload := C.payload.encode jwt.payload with hpayload
  set maxSize := 2 + header.length + payload.length + 32 with hmax
  set size := maxSize / 4 + maxSize / 8 + maxSize + 2 with hsize
  obtain ⟨tmp, hnew, hempty, hsize₀, hsound⟩ := Buffer.new_eq_some size
  have hup := aligned_lt size
  have hle := le_aligned size
  rw [Nat.mod_eq_of_lt (show size < 2 ^ 32 by omega), Nat.mod_eq_of_lt (by omega)] at hsize₀
  have htext₀ := Base64.length_urlText header
  have htext₁ := Base64.length_urlText payload
  obtain ⟨tmp₁, h₁, hbytes₁, hsize₁, hsound₁⟩ := Base64.urlEncodeTo_of_fits (d := header)
    hsound (by omega) (by
      rw [hempty, List.length_nil]
      omega)
  have hlen₁ : tmp₁.bytes.length = (Base64.urlText header).length := by
    rw [hbytes₁, hempty, List.nil_append]
  obtain ⟨tmp₂, h₂, hbytes₂, hsize₂, hsound₂⟩ := Buffer.append_of_fits (d := [46]) hsound₁ (by
    rw [List.length_singleton]
    omega)
  have hlen₂ : tmp₂.bytes.length = (Base64.urlText header).length + 1 := by
    rw [hbytes₂, List.length_append, hlen₁, List.length_singleton]
  obtain ⟨tmp₃, h₃, hbytes₃, hsize₃, hsound₃⟩ := Base64.urlEncodeTo_of_fits (d := payload)
    hsound₂ (by omega) (by omega)
  have hlen₃ : tmp₃.bytes.length =
      (Base64.urlText header).length + 1 + (Base64.urlText payload).length := by
    rw [hbytes₃, List.length_append, hlen₂]
  obtain ⟨tmp₄, h₄, hbytes₄, hsize₄, hsound₄⟩ := Buffer.append_of_fits (d := [46]) hsound₃ (by
    rw [List.length_singleton]
    omega)
  have hlen₄ : tmp₄.bytes.length =
      (Base64.urlText header).length + 1 + (Base64.urlText payload).length + 1 := by
    rw [hbytes₄, List.length_append, hlen₃, List.length_singleton]
  obtain ⟨tmp₅, h₅, -⟩ := Buffer.append_of_fits (d := signature C secret tmp₃.bytes) hsound₄ (by
    rw [length_signature]
    omega)
  refine ⟨tmp₅.bytes, ?_⟩
  rw [encode]
  simp only [← hheader, ← hpayload, ← hmax, ← hsize, Option.bind_eq_bind, hnew, Option.bind_some,
    h₁, h₂, h₃, hmac256_eq hk, h₄, h₅]

/-- Decoding what is made of the texts of two parts. -/
theorem decode_built {d e : Bytes}
    (hjstr : jstr = (Base64.urlText d ++ 46 :: Base64.urlText e) ++
      46 :: signature C secret (Base64.urlText d ++ 46 :: Base64.urlText e))
    (hlen : jstr.length < 2 ^ 31) (hk : secret.length < 2 ^ 31) :
    decode C jwt jstr secret fault = (do
      let header ← thrown .json (C.header.decode d jwt.header)
      let payload ← thrown .json (C.payload.decode e jwt.payload)
      return (true, ⟨header, payload⟩)) := by
  set data := Base64.urlText d ++ 46 :: Base64.urlText e with hdata
  have hclean : ∀ t : Bytes, (46 : UInt8) ∉ Base64.urlText t ∧ (0 : UInt8) ∉ Base64.urlText t :=
    fun _ => ⟨fun h => (Base64.urlText_ne h).1 rfl, fun h => (Base64.urlText_ne h).2 rfl⟩
  have hparts : parts 46 (data ++ 46 :: signature C secret data) =
      [Base64.urlText d, Base64.urlText e, signature C secret data] := by
    rw [hdata, List.append_assoc, List.cons_append, parts,
      partsLoop_append (hclean d).2 (hclean d).1 (by decide), parts,
      partsLoop_append (hclean e).2 (hclean e).1 (by decide), parts,
      partsLoop_last not_mem_signature.2 not_mem_signature.1 signature_ne_nil]
    rfl
  have hlen₀ : (Base64.urlText d).length < 2 ^ 31 ∧ (Base64.urlText e).length < 2 ^ 31 := by
    rw [hjstr, hdata] at hlen
    simp only [List.length_append, List.length_cons] at hlen
    omega
  rw [hjstr] at hlen ⊢
  rw [decode_of_parts (by simp [hdata]) not_mem_signature.1 hlen hparts, if_pos hk, if_pos rfl,
    Base64.urlDecode_eq hlen₀.1, Base64.urlDecode_eq hlen₀.2, Base64.urlDecodeText_urlText,
    Base64.urlDecodeText_urlText]
  rfl

/-- **The tokens** that are decoded to what was encoded are those below 2^31 characters. -/
theorem encoded_decodes_iff (hheader : C.header.Reads {} jwt.header)
    (hpayload : C.payload.Reads {} jwt.payload) :
    RoundTrips C jwt secret fault ↔ tokenLength C jwt < 2 ^ 31 ∧ secret.length < 2 ^ 31 := by
  constructor
  · rintro ⟨jstr, henc, hdec⟩
    obtain ⟨text₀, text₁, htext₀, htext₁, hk, hjstr⟩ := encode_bytes henc
    have hlen : jstr.length < 2 ^ 31 := by
      by_contra hlong
      rw [decode_of_long hlong] at hdec
      cases hdec
    obtain ⟨m₀, rfl, hwhole₀⟩ := urlEncodeText_cases htext₀
    obtain ⟨m₁, rfl, hwhole₁⟩ := urlEncodeText_cases htext₁
    rw [decode_built hjstr hlen hk] at hdec
    obtain ⟨header, payload⟩ := jwt
    -- both parts are decoded from a first part of their texts
    cases hh : C.header.decode ((C.header.encode header).take m₀) {} with
    | none =>
      rw [hh] at hdec
      cases hdec
    | some header' =>
      cases hp : C.payload.decode ((C.payload.encode payload).take m₁) {} with
      | none =>
        rw [hh, hp] at hdec
        cases hdec
      | some payload' =>
        rw [hh, hp] at hdec
        obtain ⟨rfl, rfl⟩ := Jwt.mk.inj (Prod.mk.inj (Except.ok.inj hdec)).2
        have hle₀ : (C.header.encode header').length ≤ m₀ :=
          not_lt.mp fun hlt => hheader.first_part m₀ hlt hh
        have hle₁ : (C.payload.encode payload').length ≤ m₁ :=
          not_lt.mp fun hlt => hpayload.first_part m₁ hlt hp
        refine ⟨?_, hk⟩
        rw [hjstr, List.take_of_length_le hle₀, List.take_of_length_le hle₁] at hlen
        simp only [List.length_append, List.length_cons, length_signature, Base64.length_urlText]
          at hlen
        rw [tokenLength]
        omega
  · rintro ⟨hlen, hk⟩
    obtain ⟨jstr, henc⟩ := encode_of_fits (C := C) hlen hk
    refine ⟨jstr, henc, ?_⟩
    obtain ⟨text₀, text₁, htext₀, htext₁, -, hjstr⟩ := encode_bytes henc
    rw [tokenLength] at hlen
    rw [Base64.urlEncodeText_whole (by omega)] at htext₀ htext₁
    obtain rfl := Option.some.inj htext₀
    obtain rfl := Option.some.inj htext₁
    have hshort : jstr.length < 2 ^ 31 := by
      rw [hjstr]
      simp only [List.length_append, List.length_cons, length_signature, Base64.length_urlText]
      omega
    rw [decode_built hjstr hshort hk]
    show (do
      let header ← thrown .json (C.header.decode (C.header.encode jwt.header) {})
      let payload ← thrown .json (C.payload.decode (C.payload.encode jwt.payload) {})
      return (true, (⟨header, payload⟩ : Jwt N))) = _
    rw [hheader.whole, hpayload.whole]
    rfl

/-- **Encoding and decoding**, and what is accepted under any other key. -/
theorem roundTrips_and_guards_iff (hheader : C.header.Reads {} jwt.header)
    (hpayload : C.payload.Reads {} jwt.payload) (hd : Dotted jstr) (fresh : Jwt N) (key : Bytes) :
    (RoundTrips C jwt secret fault ↔ tokenLength C jwt < 2 ^ 31 ∧ secret.length < 2 ^ 31) ∧
      (Guards ((decode C fresh jstr key fault).map Prod.fst) (verify C jstr key fault)
          (Signed C jstr key) ↔
        Signed C jstr key ∨ jstr.length < 2 ^ 31 ∧ (key.length < 2 ^ 31 ∨ (46 : UInt8) ∉ jstr)) :=
  ⟨encoded_decodes_iff hheader hpayload, guards_iff hd⟩

end Jwt

/-- JSON that knows one value. -/
def JsonCodec.single {α : Type} (text : Bytes) (a : α) : JsonCodec α :=
  ⟨fun _ => text, fun t _ => if t = text then some a else none⟩

theorem JsonCodec.reads_single {α : Type} (text : Bytes) (fresh a : α) :
    (JsonCodec.single text a).Reads fresh a := by
  refine ⟨if_pos rfl, fun n hn => ?_⟩
  have hn : n < text.length := hn
  have hshort : text.take n ≠ text := by
    intro heq
    have hlen := congrArg List.length heq
    rw [List.length_take, min_eq_left (le_of_lt hn)] at hlen
    exact absurd hlen (ne_of_lt hn)
  show (if text.take n = text then some a else none) ≠ some a
  rw [if_neg hshort]
  simp

namespace Jwt

/-- A token with its JSON, and its signature under the key `secret`. -/
def sample : Jwt ℤ := { payload := { exp := 2000, iat := 1000 } }

def headerText : Bytes := ascii "\x7b\"typ\":\"JWT\",\"alg\":\"HS256\"\x7d"

def payloadText : Bytes := ascii "\x7b\"exp\":2000,\"iat\":1000\x7d"

def sampleCodec : JwtCodec ℤ where
  hmac _ _ := ⟨[213, 27, 2, 98, 102, 121, 187, 67, 162, 249, 169, 61, 178, 83, 55, 86, 65, 237, 183,
    36, 220, 40, 140, 115, 166, 148, 41, 116, 170, 36, 55, 144], rfl⟩
  header := .single headerText {}
  payload := .single payloadText sample.payload

/-- The sample comes back, and a token without a signature is rejected. -/
theorem sample_roundTrips :
    RoundTrips sampleCodec sample (ascii "secret") false ∧
      Guards ((decode sampleCodec {} (ascii "e30" ++ 46 :: ascii "e30") (ascii "secret") false).map
          Prod.fst)
        (verify sampleCodec (ascii "e30" ++ 46 :: ascii "e30") (ascii "secret") false)
        (Signed sampleCodec (ascii "e30" ++ 46 :: ascii "e30") (ascii "secret")) := by
  have hd : Dotted (ascii "e30" ++ 46 :: ascii "e30") :=
    dotted_append (by decide) (by decide) (by decide)
  have hheader : sampleCodec.header.Reads {} sample.header := JsonCodec.reads_single _ _ _
  have hpayload : sampleCodec.payload.Reads {} sample.payload := JsonCodec.reads_single _ _ _
  have hboth : (RoundTrips sampleCodec sample (ascii "secret") false ↔ _) ∧ (_ ↔ _) :=
    roundTrips_and_guards_iff hheader hpayload hd {} (ascii "secret")
  obtain ⟨htrip, hguards⟩ := hboth
  exact ⟨htrip.mpr (by decide +kernel), hguards.mpr (.inr (by decide +kernel))⟩

/-- A token of 2^31 letters is not rejected. -/
theorem not_guards :
    Dotted (List.replicate (2 ^ 31) 97) ∧
      ¬ Guards ((decode sampleCodec {} (List.replicate (2 ^ 31) 97) (ascii "secret") false).map
          Prod.fst)
        (verify sampleCodec (List.replicate (2 ^ 31) 97) (ascii "secret") false)
        (Signed sampleCodec (List.replicate (2 ^ 31) 97) (ascii "secret")) := by
  have hmem : (46 : UInt8) ∉ List.replicate (2 ^ 31) (97 : UInt8) := by
    rw [List.mem_replicate]
    exact fun h => absurd h.2 (by decide)
  have hlong : ¬ (List.replicate (2 ^ 31) (97 : UInt8)).length < 2 ^ 31 := by
    rw [List.length_replicate]
    exact lt_irrefl _
  refine ⟨dotted_of_not_mem hmem, fun hg => ?_⟩
  have hverify := (hg.rejected (not_signed_of_not_mem hmem)).2
  rw [verify_of_long hlong] at hverify
  exact not_rejected_crash hverify

end Jwt
end Suil
