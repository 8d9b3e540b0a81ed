/-
Base64 into a buffer that is not empty.

Each of the four functions has a form that returns a `String`, which is the other form
on a new buffer.  The encoders write behind what the buffer holds; the decoders store
from the start of its memory on, and then move the offset.

* `writeText_iff` — a text is written behind the bytes of a buffer when it fits;
* `storeAll_appends_iff` — what is decoded is appended to no buffer but an empty one;
* `forms_agree_iff` — the buffers to which the two forms give the same bytes.
-/
import Suil.Base64Reading
import Suil.Base64Url

namespace Suil.Base64

open HeapBuffer

/-- A text and, not counted, a zero byte, behind the bytes of a buffer. -/
def writeText (ob : HeapBuffer) (out : Bytes) : Outcome :=
  match ob.write (out ++ [0]) with
  | none => .undefined
  | some b => b.bseek (b.m_offset + out.length)

/-- The room that the encoders ask for. -/
def encodedRoom (n : ℕ) : ℕ := 2 + (n + 2) / 3 * 4

/-- `encode(ob, data, sz)` -/
def encodeInto (ob : HeapBuffer) (data : Bytes) (a : Alloc) : Outcome :=
  (ob.reserve (encodedRoom data.length) a).andThen fun ob => writeText ob (encodeText data)

/-- `urlEncode(ob, b, len)` -/
def urlEncodeInto (ob : HeapBuffer) (data : Bytes) (a : Alloc) : Outcome :=
  (ob.reserve (encodedRoom data.length) a).andThen fun ob =>
    match urlEncodeText data with
    | none => .undefined
    | some out => writeText ob out

/-- What `urlDecode` reads and stores. -/
def urlDecoded : Bytes → Decoded
  | a :: b :: c :: d :: e :: text =>
    if urlLookup a = 64 ∨ urlLookup b = 64 ∨ urlLookup c = 64 ∨ urlLookup d = 64 then ⟨[], .thrown⟩
    else (urlDecoded (e :: text)).before [urlByte₀ a b, urlByte₁ b c, urlByte₂ c d]
  | text => ⟨(urlDecodeText text).getD [], .done⟩

/-- `urlDecode(ob, in, len)` -/
def urlDecodeInto (ob : HeapBuffer) (text : Bytes) (a : Alloc) : Outcome :=
  storeAll ob (text.length / 4 * 3 + 4) (urlDecoded text) a

/-- The form that returns a `String`: `Buffer b(is)`, the other form, and the bytes. -/
def stringForm (is : ℕ) (f : HeapBuffer → Alloc → Outcome) (a a' : Alloc) : Option Bytes :=
  match (null.grow (is % 2 ^ 32) a).andThen fun b => f b a' with
  | .done b => some b.bytes
  | _ => none

/-- `f` appends these bytes to every buffer of the size and offset of `b`, whatever it holds. -/
def Appends (b : HeapBuffer) (f : HeapBuffer → Alloc → Outcome) (out : Bytes) : Prop :=
  ∀ (c : HeapBuffer) (junk : ℕ → UInt8), c.Valid → c.m_size = b.m_size → c.m_offset = b.m_offset →
    ∃ c', f c (some junk) = .done c' ∧ c'.bytes = c.bytes ++ out

variable {b b' b'' : HeapBuffer} {out data : Bytes} {size need : ℕ} {a : Alloc}

/-! ### The encoders -/

/-- A text is written into memory, and within the size. -/
theorem fits_of_writeText (hgrew : Grew b b' size) (hdone : writeText b' out = .done b'') :
    b'.data ≠ none ∧ b.m_offset + out.length ≤ size := by
  rw [writeText] at hdone
  cases hwrite : b'.write (out ++ [0]) with
  | none =>
    rw [hwrite] at hdone
    cases hdone
  | some c =>
    rw [hwrite] at hdone
    have hgrew' := hgrew.write hwrite
    simp only [bseek, hgrew'.size_eq, hgrew'.offset_eq] at hdone
    split_ifs at hdone with hin
    refine ⟨fun hnone => ?_, by omega⟩
    have hmem : b'.memory.length = 0 := by rw [memory, hnone]; rfl
    rw [HeapBuffer.write, if_neg (by simp), if_neg] at hwrite
    · cases hwrite
    · rw [List.length_append, List.length_singleton]
      omega

/-- Behind the text there is room for the zero byte. -/
theorem writeText_of_fits (hgrew : Grew b b' size) (hheld : b'.data ≠ none)
    (hfits : b.m_offset + out.length ≤ size) :
    ∃ b'', writeText b' out = .done b'' ∧ b''.bytes = b.bytes ++ out := by
  have hsize : size + 1 ≤ b'.memory.length := hgrew.held.resolve_left fun h => hheld h.1
  obtain ⟨mem, hwrite, -, -, htake, -⟩ := write_eq (b := b') (d := out ++ [0]) (by
    rw [hgrew.offset_eq, List.length_append, List.length_singleton]
    omega)
  have hgrew' := hgrew.write hwrite
  refine ⟨⟨mem, b'.m_size, b'.m_offset + out.length⟩, ?_, ?_⟩
  · have hin : (0 : ℤ) ≤ b'.m_offset + out.length ∧ (b'.m_offset : ℤ) + out.length ≤ b'.m_size := by
      rw [hgrew.size_eq, hgrew.offset_eq]
      omega
    rw [writeText, hwrite]
    simp only [bseek, if_pos hin]
    rfl
  · show (mem.getD []).take (b'.m_offset + out.length) = _
    rw [List.length_append, List.length_singleton] at htake
    have hcut := congrArg (List.take (b'.m_offset + out.length)) htake
    have hlen : (b'.bytes ++ out).length = b'.m_offset + out.length := by
      have htake' : b'.bytes.length = b'.m_offset := by
        refine List.length_take_of_le ?_
        rw [hgrew.offset_eq]
        omega
      rw [List.length_append, htake']
    rw [List.take_take, min_eq_left (by omega), ← List.append_assoc, ← hlen, List.take_left,
      hlen] at hcut
    rw [hcut, hgrew.bytes_eq]

/-- A buffer that was asked for room has memory. -/
theorem data_of_reserve (h : b.Valid) (hpos : 0 < need) (hneed : need < 2 ^ 32)
    (hreserve : b.reserve need a = .done b') : b'.data ≠ none := by
  intro hnone
  have hmem : b'.memory.length = 0 := by rw [memory, hnone]; rfl
  rcases h.reserve_eq hneed a with ⟨-, hthrown⟩ | ⟨-, c, hdone, hgrew, hheld⟩
  · rw [hreserve] at hthrown
    cases hthrown
  · obtain rfl := Outcome.done.inj (hreserve.symm.trans hdone)
    rw [hmem, heldAfter] at hheld
    split_ifs at hheld with hgrows
    -- the old memory stays, and was empty
    have hroom := h.room_eq
    have hsize := h.size_lt
    rcases h.held with ⟨-, hzero⟩ | hold
    · refine hgrows ⟨by omega, ?_⟩
      rw [hzero]
      omega
    · omega

/-- **A text behind the bytes** of a buffer. -/
theorem reserve_writeText_iff (h : b.Valid) (hneed : out = [] → 0 < need ∧ need < 2 ^ 32)
    (hreserve : b.reserve need a = .done b') (hgrew : Grew b b' (b.sizeAfter need)) :
    (∃ b'', writeText b' out = .done b'' ∧ b''.bytes = b.bytes ++ out) ↔
      b.m_offset + out.length ≤ b.sizeAfter need := by
  constructor
  · rintro ⟨b'', hdone, -⟩
    exact (fits_of_writeText hgrew hdone).2
  · intro hfits
    refine writeText_of_fits hgrew (fun hnone => ?_) hfits
    -- a null buffer has room for an empty text only, which asks for some
    have hmem : b'.memory.length = 0 := by rw [memory, hnone]; rfl
    have hsize : b.sizeAfter need = 0 := by
      rcases hgrew.held with ⟨-, hzero⟩ | hheld
      · exact hzero
      · omega
    obtain ⟨hpos, hlt⟩ := hneed (List.length_eq_zero_iff.mp (by omega))
    exact data_of_reserve h hpos hlt hreserve hnone

/-- What `writeText` returns with. -/
theorem bytes_of_writeText (hgrew : Grew b b' size) (hdone : writeText b' out = .done b'') :
    b''.bytes = b.bytes ++ out := by
  obtain ⟨hheld, hfits⟩ := fits_of_writeText hgrew hdone
  obtain ⟨c, hdone', hbytes⟩ := writeText_of_fits hgrew hheld hfits
  obtain rfl := Outcome.done.inj (hdone.symm.trans hdone')
  exact hbytes

theorem sizeAfter_congr {c : HeapBuffer} (hsize : c.m_size = b.m_size)
    (hoffset : c.m_offset = b.m_offset) (need : ℕ) : c.sizeAfter need = b.sizeAfter need := by
  have hroom : c.room = b.room := by rw [room, room, hsize, hoffset]
  rw [sizeAfter, sizeAfter, wanted, wanted, grown, grown, hroom, hsize]

/-- An encoder, by the text that it writes. -/
theorem encoder_appends_iff (h : b.Valid) {f : HeapBuffer → Alloc → Outcome}
    (hf : ∀ c a, f c a = (c.reserve need a).andThen fun c => writeText c out)
    (hneed : out = [] → 0 < need ∧ need < 2 ^ 32) :
    Appends b f out ↔ b.m_offset + out.length ≤ b.sizeAfter need := by
  have hone : ∀ (c : HeapBuffer) (junk : ℕ → UInt8), c.Valid →
      ((∃ c', f c (some junk) = .done c' ∧ c'.bytes = c.bytes ++ out) ↔
        c.m_offset + out.length ≤ c.sizeAfter need) := by
    intro c junk hc
    rcases hc.reserve_grew need (some junk) with ⟨-, hnone⟩ | ⟨c', hreserve, hgrew⟩
    · cases hnone
    · rw [hf, hreserve]
      exact reserve_writeText_iff hc hneed hreserve hgrew
  constructor
  · intro happends
    exact (hone b (fun _ => 0) h).mp (happends b _ h rfl rfl)
  · intro hfits c junk hc hsize hoffset
    refine (hone c junk hc).mpr ?_
    rw [sizeAfter_congr hsize hoffset, hoffset]
    exact hfits

theorem encodeText_ne_nil (h : data ≠ []) : encodeText data ≠ [] := by
  match data, h with
  | [_], _ => simp [encodeText]
  | [_, _], _ => simp [encodeText]
  | _ :: _ :: _ :: _, _ => simp [encodeText]

theorem urlLoop_ne_nil (h : data ≠ []) (top : ℤ) : urlLoop top data ≠ [] := by
  match data, h with
  | [_], _ => simp [urlLoop, urlTail]
  | [_, _], _ => simp [urlLoop, urlTail]
  | _ :: _ :: _ :: _, _ =>
    rw [urlLoop]
    split_ifs <;> simp [urlTail]

theorem urlEncodeText_ne_nil (h : data ≠ []) : urlEncodeText data ≠ some [] := by
  rw [urlEncodeText]
  split_ifs
  · simp
  · intro hnil
    exact urlLoop_ne_nil h _ (Option.some.inj hnil)

/-- An empty text comes of no bytes, for which little room is asked. -/
theorem room_of_empty (h : data = []) :
    0 < encodedRoom data.length ∧ encodedRoom data.length < 2 ^ 32 := by
  rw [h]
  decide

/-! ### The decoders -/

/-- A buffer of the same size that holds one byte all over. -/
theorem exists_filled (h : b.Valid) (x : UInt8) :
    ∃ c : HeapBuffer, c.Valid ∧ c.m_size = b.m_size ∧ c.m_offset = b.m_offset ∧
      c.bytes = List.replicate b.m_offset x := by
  have hle := h.offset_le
  refine ⟨⟨some (List.replicate (b.m_size + 1) x), b.m_size, b.m_offset⟩,
    ⟨hle, h.size_lt, h.aligned, .inr ?_⟩, rfl, rfl, ?_⟩
  · exact (List.length_replicate ..).ge
  · show (List.replicate (b.m_size + 1) x).take b.m_offset = _
    rw [List.take_replicate, min_eq_left (by omega)]

/-- What is stored from the start of the memory, with the offset moved behind what it was. -/
theorem storeAll_done {d : Decoded} (h : b.Valid) (hdone : storeAll b need d a = .done b') :
    d.ending = .done ∧ b.m_offset + d.out.length ≤ b.sizeAfter (need % 2 ^ 32) ∧
      ∃ mem, b'.bytes = (d.out ++ mem).take (b.m_offset + d.out.length) := by
  rw [storeAll] at hdone
  rcases h.reserve_grew (need % 2 ^ 32) a with ⟨hthrown, -⟩ | ⟨c, hreserve, hgrew⟩
  · rw [hthrown] at hdone
    cases hdone
  rw [hreserve] at hdone
  simp only [Outcome.andThen] at hdone
  rcases le_or_gt d.out.length c.memory.length with hfits | hover
  · obtain ⟨c', hfill, hsize, hoffset, hmem⟩ := fill_eq hfits
    rw [hfill] at hdone
    cases hend : d.ending with
    | outside =>
      rw [hend] at hdone
      cases hdone
    | thrown =>
      rw [hend] at hdone
      cases hdone
    | done =>
      simp only [hend, bseek, hsize, hoffset, hgrew.size_eq, hgrew.offset_eq] at hdone
      split_ifs at hdone with hin
      obtain rfl := Outcome.done.inj hdone
      refine ⟨rfl, by omega, c.memory.drop d.out.length, ?_⟩
      show c'.memory.take ((b.m_offset : ℤ) + d.out.length).toNat = _
      rw [hmem, show ((b.m_offset : ℤ) + d.out.length).toNat = b.m_offset + d.out.length by omega]
  · rw [fill_of_lt hover] at hdone
    cases hdone

/-- What is decoded fits when the offset does not leave the size. -/
theorem storeAll_of_fits (h : b.Valid)
    (hfits : b.m_offset + out.length ≤ b.sizeAfter (need % 2 ^ 32)) (junk : ℕ → UInt8) :
    ∃ (b' : HeapBuffer) (c : Bytes), storeAll b need ⟨out, .done⟩ (some junk) = .done b' ∧
      c.take b.m_offset = b.bytes ∧
        b'.bytes = (out ++ c.drop out.length).take (b.m_offset + out.length) := by
  rw [storeAll]
  rcases h.reserve_grew (need % 2 ^ 32) (some junk) with ⟨-, hnone⟩ | ⟨c, hreserve, hgrew⟩
  · cases hnone
  have hmem : out.length ≤ c.memory.length := by
    rcases hgrew.held with ⟨-, hzero⟩ | hheld
    · omega
    · omega
  obtain ⟨c', hfill, hsize, hoffset, hc'⟩ := fill_eq hmem
  rw [hreserve]
  simp only [Outcome.andThen, hfill, bseek, hsize, hoffset, hgrew.size_eq, hgrew.offset_eq]
  rw [if_pos (by omega)]
  refine ⟨_, c.memory, rfl, ?_, ?_⟩
  · rw [← hgrew.bytes_eq, HeapBuffer.bytes, hgrew.offset_eq]
  · show c'.memory.take ((b.m_offset : ℤ) + out.length).toNat = _
    rw [hc', show ((b.m_offset : ℤ) + out.length).toNat = b.m_offset + out.length by omega]

/-- **What is decoded** is appended to an empty buffer, or there is none of it. -/
theorem storeAll_appends_iff (h : b.Valid) :
    Appends b (fun c a => storeAll c need ⟨out, .done⟩ a) out ↔
      b.m_offset + out.length ≤ b.sizeAfter (need % 2 ^ 32) ∧ (b.m_offset = 0 ∨ out = []) := by
  constructor
  · intro happends
    obtain ⟨b', hdone, -⟩ := happends b (fun _ => 0) h rfl rfl
    refine ⟨(storeAll_done h hdone).2.1, ?_⟩
    by_contra hboth
    rw [not_or] at hboth
    obtain ⟨hoffset, hout⟩ := hboth
    -- a buffer that holds another byte than the first one decoded
    obtain ⟨x, xs, rfl⟩ := List.exists_cons_of_ne_nil hout
    obtain ⟨c, hc, hcsize, hcoffset, hbytes⟩ := exists_filled h (x + 1)
    obtain ⟨c', hcdone, hkept⟩ := happends c (fun _ => 0) hc hcsize hcoffset
    obtain ⟨-, -, mem, hstored⟩ := storeAll_done hc hcdone
    obtain ⟨n, hn⟩ := Nat.exists_eq_succ_of_ne_zero hoffset
    rw [hstored, hbytes, hn, List.replicate_succ, hcoffset, hn] at hkept
    have hhead := congrArg List.head? hkept
    simp only [List.cons_append, List.length_cons, List.head?_cons] at hhead
    rw [show n.succ + (xs.length + 1) = n + xs.length + 1 + 1 by omega, List.take_succ_cons,
      List.head?_cons, Option.some.injEq] at hhead
    simp at hhead
  · rintro ⟨hfits, hempty⟩ c junk hc hcsize hcoffset
    rw [← sizeAfter_congr hcsize hcoffset, ← hcoffset] at hfits
    obtain ⟨c', mem, hdone, htake, hbytes⟩ := storeAll_of_fits hc hfits junk
    refine ⟨c', hdone, ?_⟩
    rcases hempty with hzero | rfl
    · have hnil : c.bytes = [] := by rw [HeapBuffer.bytes, hcoffset, hzero, List.take_zero]
      rw [hbytes, hcoffset, hzero, Nat.zero_add, List.take_left, hnil, List.nil_append]
    · rw [hbytes, ← htake]
      simp

/-! ### The two forms -/

/-- The other form returns on an empty buffer, with the bytes of the `String`. -/
theorem exists_of_stringForm {is : ℕ} {f : HeapBuffer → Alloc → Outcome} {a' : Alloc}
    (hsome : stringForm is f a a' = some out) :
    ∃ c c', c.Valid ∧ c.m_offset = 0 ∧ f c a' = .done c' ∧ c'.bytes = out := by
  rw [stringForm] at hsome
  rcases valid_null.grow_eq (is % 2 ^ 32) a with ⟨-, hgrow⟩ | ⟨-, c, hgrow, hgrew⟩
  · rw [hgrow] at hsome
    cases hsome
  · rw [hgrow] at hsome
    simp only [Outcome.andThen] at hsome
    cases hdone : f c a' with
    | done c' =>
      rw [hdone] at hsome
      exact ⟨c, c', hgrew.valid (Nat.zero_le _), hgrew.offset_eq, hdone, Option.some.inj hsome⟩
    | thrown c' =>
      rw [hdone] at hsome
      cases hsome
    | undefined =>
      rw [hdone] at hsome
      cases hsome

theorem bytes_of_offset (h : b.m_offset = 0) : b.bytes = [] := by
  rw [HeapBuffer.bytes, h, List.take_zero]

/-- The text of an encoder is what its `String` holds. -/
theorem text_of_stringForm {is : ℕ} {f : HeapBuffer → Alloc → Outcome} {a' : Alloc} {text : Bytes}
    (hf : ∀ c a, f c a = (c.reserve need a).andThen fun c => writeText c text)
    (hsome : stringForm is f a a' = some out) : out = text := by
  obtain ⟨c, c', hvalid, hoffset, hdone, rfl⟩ := exists_of_stringForm hsome
  rw [hf] at hdone
  rcases hvalid.reserve_grew need a' with ⟨hthrown, -⟩ | ⟨c'', hreserve, hgrew⟩
  · rw [hthrown] at hdone
    cases hdone
  · rw [hreserve] at hdone
    have hbytes := bytes_of_writeText hgrew hdone
    rwa [bytes_of_offset hoffset, List.nil_append] at hbytes

/-- A decoder, by what its `String` holds. -/
theorem decoder_appends_iff (h : b.Valid) {is : ℕ} {a' : Alloc} {d : Decoded}
    (hsome : stringForm is (fun c a => storeAll c need d a) a a' = some out) :
    Appends b (fun c a => storeAll c need d a) out ↔
      b.m_offset + out.length ≤ b.sizeAfter (need % 2 ^ 32) ∧ (b.m_offset = 0 ∨ out = []) := by
  obtain ⟨c, c', hvalid, hoffset, hdone, hbytes⟩ := exists_of_stringForm hsome
  obtain ⟨hend, -, mem, hstored⟩ := storeAll_done hvalid hdone
  rw [hoffset, Nat.zero_add, List.take_left, hbytes] at hstored
  obtain rfl : d = ⟨out, .done⟩ := by rw [hstored, ← hend]
  exact storeAll_appends_iff h

/-- The room that the decoders ask for, in 32 bits. -/
def decodedRoom (n : ℕ) : ℕ := (n / 4 * 3 + 4) % 2 ^ 32

/-- **The buffers to which both forms** give the same bytes. -/
theorem forms_agree_iff (h : b.Valid) (data text mem : Bytes) (sz : ℕ) (a a' : Alloc) :
    (∀ out, stringForm 0 (encodeInto · data) a a' = some out →
      (Appends b (encodeInto · data) out ↔
        b.m_offset + out.length ≤ b.sizeAfter (encodedRoom data.length))) ∧
    (∀ out, stringForm (encodedRoom data.length) (urlEncodeInto · data) a a' = some out →
      (Appends b (urlEncodeInto · data) out ↔
        b.m_offset + out.length ≤ b.sizeAfter (encodedRoom data.length))) ∧
    (∀ out, stringForm (sz / 4 % 2 ^ 32 * 3) (decodeInto · mem sz) a a' = some out →
      (Appends b (decodeInto · mem sz) out ↔
        b.m_offset + out.length ≤ b.sizeAfter (decodedRoom sz) ∧ (b.m_offset = 0 ∨ out = []))) ∧
    (∀ out, stringForm (text.length / 4 % 2 ^ 32 * 3) (urlDecodeInto · text) a a' = some out →
      (Appends b (urlDecodeInto · text) out ↔
        b.m_offset + out.length ≤ b.sizeAfter (decodedRoom text.length) ∧
          (b.m_offset = 0 ∨ out = []))) := by
  refine ⟨fun out hsome => ?_, fun out hsome => ?_, fun out hsome => ?_, fun out hsome => ?_⟩
  · obtain rfl := text_of_stringForm (fun _ _ => rfl) hsome
    refine encoder_appends_iff h (fun _ _ => rfl) fun hnil => room_of_empty ?_
    by_contra hne
    exact encodeText_ne_nil hne hnil
  · cases htext : urlEncodeText data with
    | none =>
      -- the count overflows, and there is no `String`
      obtain ⟨c, c', hvalid, -, hdone, -⟩ := exists_of_stringForm hsome
      rw [urlEncodeInto] at hdone
      rcases hvalid.reserve_grew (encodedRoom data.length) a' with ⟨hthrown, -⟩ | ⟨c'', hreserve, -⟩
      · rw [hthrown] at hdone
        cases hdone
      · rw [hreserve] at hdone
        simp only [Outcome.andThen, htext] at hdone
        cases hdone
    | some text' =>
      have hform : ∀ c a, urlEncodeInto c data a =
          (c.reserve (encodedRoom data.length) a).andThen fun c => writeText c text' := by
        intro c a
        rw [urlEncodeInto, htext]
      obtain rfl := text_of_stringForm hform hsome
      refine encoder_appends_iff h hform fun hnil => room_of_empty ?_
      by_contra hne
      exact urlEncodeText_ne_nil hne (hnil ▸ htext)
  · exact decoder_appends_iff h hsome
  · exact decoder_appends_iff h hsome

/-- A buffer that holds a byte. -/
def holding : HeapBuffer := ⟨some (120 :: List.replicate 8 0), 8, 1⟩

theorem valid_holding : holding.Valid := ⟨by decide, by decide, by decide, .inr (by decide)⟩

theorem forms_agree_some :
    Appends holding (encodeInto · [77, 97]) (ascii "TWE=") ∧
      Appends holding (urlEncodeInto · [77, 97]) (ascii "TWE") ∧
      Appends null (decodeInto · (ascii "TWE=") 4) [77, 97] ∧
      Appends null (urlDecodeInto · (ascii "TWE")) [77, 97] := by
  have hencode := forms_agree_iff valid_holding [77, 97] [] [] 0 (some fun _ => 0) (some fun _ => 0)
  have hdecode := forms_agree_iff valid_null [] (ascii "TWE") (ascii "TWE=") 4
    (some fun _ => 0) (some fun _ => 0)
  exact ⟨(hencode.1 _ rfl).mpr (by decide), (hencode.2.1 _ rfl).mpr (by decide),
    (hdecode.2.2.1 _ rfl).mpr ⟨by decide, .inl rfl⟩,
    (hdecode.2.2.2 _ rfl).mpr ⟨by decide, .inl rfl⟩⟩

/-- The decoders store over the byte that the buffer holds. -/
theorem not_forms_agree :
    (¬ ∃ c, decodeInto holding (ascii "TWE=") 4 (some fun _ => 0) = .done c ∧
        c.bytes = holding.bytes ++ [77, 97]) ∧
      decodeInto holding (ascii "TWE=") 4 (some fun _ => 0) =
        .done ⟨some ([77, 97] ++ List.replicate 7 0), 8, 3⟩ ∧
      urlDecodeInto holding (ascii "TWE") (some fun _ => 0) =
        .done ⟨some ([77, 97] ++ List.replicate 7 0), 8, 3⟩ := by
  have hrun : decodeInto holding (ascii "TWE=") 4 (some fun _ => 0) =
      .done ⟨some ([77, 97] ++ List.replicate 7 0), 8, 3⟩ := rfl
  refine ⟨?_, hrun, rfl⟩
  rintro ⟨c, hdone, hbytes⟩
  obtain rfl := Outcome.done.inj (hrun.symm.trans hdone)
  exact absurd hbytes (by decide)

end Suil.Base64
