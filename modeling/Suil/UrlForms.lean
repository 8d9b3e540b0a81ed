/-
Url-encoded forms.

`Request::parseUrlEncodedForm` cuts a body at every `&` and its pieces at the first `=`, and decodes
the values, but only when `data.empty() > 0`, and so only an empty body.  `cli::Form` joins what its
map holds, the Base64 of the names and values, with `=` and `&`.

* `parse_of_ne_nil`, `parse_empty` — what the call does with a body;
* `adds_encoded` — what its loop would make of the pieces of an encoded form;
* `urlForms_iff` — which forms come back.
-/
import Suil.ClientRequest
import Suil.StringParts
import Suil.StringPieces
import Suil.StringSplitting
import Suil.Url

namespace Suil.UrlForms

open Splitting (Text)
open Url (encodeText decodeText isEscaped)

section

-- `std::hash<strview>`
variable (std : Bytes → UInt64)

/-- The keys are one for a map. -/
def sameName (a b : Bytes) : Bool := std a == std b && strEq a b

/-- `emplace` into a map, here in the order of the calls. -/
def emplace (params : List (Bytes × Bytes)) (name value : Bytes) : List (Bytes × Bytes) :=
  if params.any fun p => sameName std name p.1 then params else params ++ [(name, value)]

/-! ### The server -/

/-- A turn of the loop; like the calls below it is none when it leaves the memory or an `int`. -/
def addPart (params : List (Bytes × Bytes)) (part : Bytes) : Option (List (Bytes × Bytes)) := do
  match ← Cookies.find part 61 with
  | none => some (emplace std params part (Url.decode []))
  | some pos =>
    let name ← StringPieces.substr part 0 pos true
    let value ← StringPieces.substr part (pos + 1) 0 true
    some (emplace std params name.bytes (Url.decode value.bytes))

/-- `Request::parseUrlEncodedForm`, where `data` is what `readBody` returns. -/
def parseUrlEncodedForm (params : List (Bytes × Bytes)) (data : Text) (turns : ℕ) :
    Option (Bool × List (Bytes × Bytes)) :=
  if data.size = 0 then
    match Splitting.parts data (some (ascii "&")) turns with
    | .error _ => none
    | .ok ps => (ps.foldlM (addPart std) params).map fun params => (true, params)
  else some (false, params)

/-! ### The client -/

/-- `Form::appendArg`, of a form that is url-encoded. -/
def appendArg (data : List (Bytes × Bytes)) (arg : Bytes × Bytes) :
    Option (List (Bytes × Bytes)) := do
  some (emplace std data (← Base64.urlEncode arg.1) (← Base64.urlEncode arg.2))

/-- `Form::appendArgs` -/
def appendArgs (args : List (Bytes × Bytes)) : Option (List (Bytes × Bytes)) :=
  args.foldlM (appendArg std) []

/-! ### What is right -/

/-- A pair with its escapes. -/
def encodePair (p : Bytes × Bytes) : Bytes := encodeText p.1 ++ 61 :: encodeText p.2

/-- The bodies of a form: with escapes; and as the client joins them, when the map has the pairs, or
what `appendArgs` makes of them, in an order of its own. -/
inductive Body (pairs : List (Bytes × Bytes)) : Bytes → Prop
  | encoded : Body pairs ([38].intercalate (pairs.map encodePair))
  | data {shown : List (Bytes × Bytes)} (h : shown.Perm pairs) :
    Body pairs (ClientRequest.encodeUrlEncoded shown)
  | args {data shown : List (Bytes × Bytes)} (hdata : appendArgs std pairs = some data)
    (h : shown.Perm data) : Body pairs (ClientRequest.encodeUrlEncoded shown)

/-- A new form has the pairs behind the call. -/
def Recovers (data : Text) (pairs : List (Bytes × Bytes)) : Prop :=
  ∃ turns ok params, parseUrlEncodedForm std [] data turns = some (ok, params) ∧
    params.Perm pairs

end

variable {std : Bytes → UInt64} {params pairs shown : List (Bytes × Bytes)} {data : Text}
  {name value body : Bytes} {turns : ℕ}

/-! ### The call -/

/-- A body that is not empty is not looked at. -/
theorem parse_of_ne_nil (h : data.bytes ≠ []) (turns : ℕ) :
    parseUrlEncodedForm std params data turns = some (false, params) :=
  if_neg (mt List.length_eq_zero_iff.mp h)

theorem parse_empty (behind : Bytes) (turns : ℕ) :
    parseUrlEncodedForm std params (.points [] behind) (turns + 1) = some (true, params) := by
  have hparts : Splitting.parts (.points [] behind) (some (ascii "&")) (turns + 1) = .ok [] := by
    have hcmp : Splitting.cmp (ascii "&") (some ([] ++ behind)) 0 = .ok
        ((Occurrences.firstIndex (ascii "&") (Search.cText behind)).map (0 + ·)) := rfl
    rw [Splitting.parts_points, Splitting.partsLoop, hcmp]
    cases Occurrences.firstIndex (ascii "&") (Search.cText behind) <;> rfl
  rw [parseUrlEncodedForm, hparts]
  rfl

/-- A null pointer is handed to `strstr`. -/
theorem parse_null (turns : ℕ) : parseUrlEncodedForm std params .null turns = none := by
  cases turns <;> rfl

/-- **The forms that come back** are empty. -/
theorem recovers_of_nil (h : data.bytes = [] ↔ pairs = []) :
    Recovers std data pairs ↔ pairs = [] ∧ data ≠ .null := by
  constructor
  · rintro ⟨turns, ok, params, hparse, hperm⟩
    have hnull : data ≠ .null := by
      rintro rfl
      rw [parse_null] at hparse
      cases hparse
    refine ⟨h.mp ?_, hnull⟩
    by_contra hne
    rw [parse_of_ne_nil hne] at hparse
    cases hparse
    exact hne (h.mpr (List.nil_perm.mp hperm))
  · rintro ⟨hpairs, hnull⟩
    have hbytes := h.mpr hpairs
    cases data with
    | null => exact absurd rfl hnull
    | points s behind =>
      obtain rfl : s = [] := hbytes
      exact ⟨1, true, [], parse_empty behind 0, hpairs ▸ List.Perm.refl _⟩

/-! ### The bodies -/

theorem intercalate_eq_nil {ps : List Bytes} (h : ∀ p ∈ ps, p ≠ []) :
    [38].intercalate ps = [] ↔ ps = [] := by
  cases ps with
  | nil => exact iff_of_true rfl rfl
  | cons p ps =>
    refine iff_of_false (fun hnil => ?_) (List.cons_ne_nil p ps)
    have hp := h p List.mem_cons_self
    cases ps with
    | nil =>
      rw [List.intercalate_singleton] at hnil
      exact hp hnil
    | cons q ps =>
      rw [List.intercalate_cons_cons] at hnil
      simp at hnil

theorem encodeUrlEncoded_eq_nil : ClientRequest.encodeUrlEncoded shown = [] ↔ shown = [] := by
  rw [ClientRequest.encodeUrlEncoded, intercalate_eq_nil, List.map_eq_nil_iff]
  intro p hp
  obtain ⟨x, -, rfl⟩ := List.mem_map.mp hp
  simp

theorem emplace_ne_nil (params : List (Bytes × Bytes)) (name value : Bytes) :
    emplace std params name value ≠ [] := by
  rw [emplace]
  split_ifs with hany
  · rintro rfl
    cases hany
  · simp

theorem appendArgs_ne_nil {args data : List (Bytes × Bytes)} (hargs : args ≠ [])
    (h : args.foldlM (appendArg std) params = some data) : data ≠ [] := by
  induction args generalizing params with
  | nil => exact absurd rfl hargs
  | cons arg args ih =>
    rw [List.foldlM_cons] at h
    obtain ⟨mid, hmid, h⟩ := Option.bind_eq_some_iff.mp h
    by_cases hrest : args = []
    · rw [hrest] at h
      cases h
      obtain ⟨name, -, hmid⟩ := Option.bind_eq_some_iff.mp hmid
      obtain ⟨value, -, hmid⟩ := Option.bind_eq_some_iff.mp hmid
      rw [← Option.some.inj hmid]
      exact emplace_ne_nil params name value
    · exact ih hrest h

/-- A body is empty when there are no pairs. -/
theorem Body.eq_nil_iff (h : Body std pairs body) : body = [] ↔ pairs = [] := by
  cases h with
  | encoded =>
    rw [intercalate_eq_nil, List.map_eq_nil_iff]
    intro p hp
    obtain ⟨x, -, rfl⟩ := List.mem_map.mp hp
    simp [encodePair]
  | data hperm =>
    rw [encodeUrlEncoded_eq_nil, ← List.length_eq_zero_iff, hperm.length_eq,
      List.length_eq_zero_iff]
  | @args data shown hdata hperm =>
    rw [encodeUrlEncoded_eq_nil, ← List.length_eq_zero_iff, hperm.length_eq,
      List.length_eq_zero_iff]
    constructor
    · intro hnil
      by_contra hpairs
      exact appendArgs_ne_nil hpairs hdata hnil
    · rintro rfl
      cases hdata
      rfl

/-! ### The loop -/

theorem not_mem_encodeByte (c : UInt8) : 38 ∉ Url.encodeByte c ∧ 61 ∉ Url.encodeByte c ∧
    Url.encodeByte c ≠ [] ∧ (0 ∈ Url.encodeByte c → c = 0) := by
  revert c
  exact forall_byte (by decide +kernel)

theorem not_mem_encodeText (s : Bytes) : 38 ∉ encodeText s ∧ 61 ∉ encodeText s := by
  constructor <;> intro h <;> obtain ⟨c, -, hc⟩ := List.mem_flatMap.mp h
  · exact (not_mem_encodeByte c).1 hc
  · exact (not_mem_encodeByte c).2.1 hc

theorem zero_not_mem_encodeText {s : Bytes} (h : 0 ∉ s) : 0 ∉ encodeText s := by
  intro hzero
  obtain ⟨c, hc, hmem⟩ := List.mem_flatMap.mp hzero
  exact h ((not_mem_encodeByte c).2.2.2 hmem ▸ hc)

theorem encodeText_injective : Function.Injective encodeText := fun a b h => by
  rw [← Url.decodeText_encodeText a, ← Url.decodeText_encodeText b, h]

theorem encodeText_eq_nil {s : Bytes} : encodeText s = [] ↔ s = [] := by
  constructor
  · exact fun h => encodeText_injective h
  · rintro rfl
    rfl

/-- **A turn** decodes the value, and leaves the name as it is. -/
theorem addPart_encodePair {p : Bytes × Bytes} (hname : p.1 ≠ [])
    (hlen : (encodePair p).length < 2 ^ 31) (params : List (Bytes × Bytes)) :
    addPart std params (encodePair p) = some (emplace std params (encodeText p.1) p.2) := by
  have hlength : (encodePair p).length = (encodeText p.1).length + 1 + (encodeText p.2).length := by
    simp only [encodePair, List.length_append, List.length_cons]
    omega
  have hpos : 0 < (encodeText p.1).length :=
    List.length_pos_of_ne_nil (mt encodeText_eq_nil.mp hname)
  have hfind : Cookies.find (encodePair p) 61 = some (some (encodeText p.1).length) :=
    Cookies.find_separator (not_mem_encodeText p.1).2 (by omega) _
  have hfront : StringPieces.pieceAt (encodePair p) 0 (encodeText p.1).length = encodeText p.1 := by
    rw [StringPieces.pieceAt, if_neg hpos.ne', if_pos (by omega), List.drop_zero, encodePair,
      List.take_left]
  have hrest : StringPieces.pieceAt (encodePair p) ((encodeText p.1).length + 1) 0 =
      encodeText p.2 := by
    rw [StringPieces.pieceAt, if_pos rfl, ← List.drop_drop, encodePair, List.drop_left]
    rfl
  rw [addPart, hfind, Option.bind_eq_bind, Option.bind_some]
  dsimp only
  rw [StringPieces.substr_view (by omega) (Nat.zero_le _), StringPieces.substr_view (by omega)
    (by omega), hfront, hrest, Option.bind_eq_bind, Option.bind_some, Option.bind_some]
  dsimp only
  rw [Url.decode_eq _ (by omega), Url.decodeText_encodeText]

/-- **The loop**, over the pieces of an encoded form. -/
theorem adds_encoded (hnames : ∀ p ∈ pairs, p.1 ≠ [] ∧ 0 ∉ p.1)
    (hdistinct : (pairs.map Prod.fst).Nodup)
    (hlen : ∀ p ∈ pairs, (encodePair p).length < 2 ^ 31)
    (hnew : ∀ p ∈ pairs, ∀ q ∈ params, q.1 ≠ encodeText p.1) :
    (pairs.map encodePair).foldlM (addPart std) params =
      some (params ++ pairs.map fun p => (encodeText p.1, p.2)) := by
  induction pairs generalizing params with
  | nil => exact congrArg some (List.append_nil _).symm
  | cons p pairs ih =>
    rw [List.forall_mem_cons] at hnames hlen hnew
    rw [List.map_cons, List.nodup_cons] at hdistinct
    have hname := mt encodeText_eq_nil.mp hnames.1.1
    have hany : params.any (fun q => sameName std (encodeText p.1) q.1) = false := by
      rw [List.any_eq_false]
      intro q hq hboth
      rw [sameName, Bool.and_eq_true] at hboth
      exact hnew.1 q hq ((strEq_eq_true_iff (zero_not_mem_encodeText hnames.1.2) hname).mp hboth.2)
    have hput : emplace std params (encodeText p.1) p.2 = params ++ [(encodeText p.1, p.2)] := by
      rw [emplace, hany]
      rfl
    rw [List.map_cons, List.foldlM_cons, addPart_encodePair hnames.1.1 hlen.1, hput,
      Option.bind_eq_bind, Option.bind_some, ih hnames.2 hdistinct.2 hlen.2, List.append_assoc]
    · rfl
    · intro q hq r hr
      rcases List.mem_append.mp hr with hr | hr
      · exact hnew.2 q hq r hr
      · rw [List.mem_singleton.mp hr]
        exact fun heq => hdistinct.1 (List.mem_map.mpr ⟨q, hq, (encodeText_injective heq).symm⟩)

/-- **Which forms come back**: those without pairs, in a body that is no null pointer. -/
theorem urlForms_iff (h : Body std pairs data.bytes) :
    Recovers std data pairs ↔ pairs = [] ∧ data ≠ .null :=
  recovers_of_nil h.eq_nil_iff

theorem urlForms_empty : Recovers (fun _ => 0) (.points [] []) [] :=
  (urlForms_iff .encoded).mpr ⟨rfl, Splitting.Text.noConfusion⟩

/-- The body `a=b` is not parsed, and neither is `YQ=Yg`, which the client makes of the pair. -/
theorem not_urlForms :
    ¬ Recovers (fun _ => 0) (.points (ascii "a=b") []) [(ascii "a", ascii "b")] ∧
      (appendArgs (fun _ => 0) [(ascii "a", ascii "b")]).map ClientRequest.encodeUrlEncoded =
        some (ascii "YQ=Yg") ∧
      ¬ Recovers (fun _ => 0) (.points (ascii "YQ=Yg") []) [(ascii "a", ascii "b")] := by
  have hnot : ∀ {s : Bytes}, s ≠ [] →
      ¬ Recovers (fun _ => 0) (.points s []) [(ascii "a", ascii "b")] := by
    intro s hs h
    have hbytes : (Text.points s []).bytes ≠ [] := hs
    have hpairs := ((recovers_of_nil (iff_of_false hbytes (List.cons_ne_nil _ _))).mp h).1
    cases hpairs
  exact ⟨hnot (by decide), by decide +kernel, hnot (by decide)⟩

end Suil.UrlForms
