/-
Multipart forms (`Request::parseMultipartForm`).

A machine with a position in the body.  `_get_header` counts the new position from
behind the colon and cuts the last character of the value; `_get_disposition` stays on the
quote behind a name, so it is never content unless it meets a zero byte.

* `formBoundary_eq_none` — `parseForm` does not come to it at all;
* `getHeader_spec`, `getDisposition_spec` — what the two read;
* `ends_of_plain` — how a body ends whose first disposition has no zero byte;
* `parses_iff` — which forms come back, and which bodies are read within their bounds.
-/
import Suil.StringKeys

namespace Suil

namespace Multipart

/-- A call of `Form::add`. -/
inductive Part where
  | field (name value : Bytes)
  | file (name filename data : Bytes)
deriving DecidableEq

/-- How the parser ends: with a result and the parts added, with an exception of
`String::operator[]`, or with a read outside the body. -/
inductive Ending where
  | returned (ok : Bool) (form : List Part)
  | thrown
  | outside
deriving DecidableEq

abbrev Read (α : Type) := Except Ending α

/-! ### Strings -/

/-- A `String` that refers into the body: the body from its first byte on, and its length. -/
structure View where
  mem : Bytes
  len : ℕ
deriving DecidableEq

namespace View

def empty : View := ⟨[], 0⟩

def bytes (v : View) : Bytes := v.mem.take v.len

/-- `operator[]` -/
def get (v : View) (i : ℕ) : Read UInt8 :=
  if i < v.len then (if h : i < v.mem.length then .ok (v.mem.get ⟨i, h⟩) else .error .outside)
  else .error .thrown

/-- `substr(start, count)`.  Behind the end of the string what is left of it is a difference
below zero, which is compared as a `size_t` and kept in 32 bits. -/
def substr (v : View) (start count : ℕ) : View :=
  if start ≤ v.len then
    let n := if count = 0 then v.len - start else count
    if n ≠ 0 ∧ n ≤ v.len - start then ⟨v.mem.drop start, n⟩ else empty
  else ⟨v.mem.drop start, if count = 0 then 2 ^ 32 - (start - v.len) else count⟩

end View

/-- `strncmp` and `strncasecmp` of the body with a string, by its length. -/
def sameText (fold : UInt8 → UInt8) : Bytes → Bytes → Read Bool
  | _, [] => .ok true
  | [], _ :: _ => .error .outside
  | a :: mem, b :: s =>
    if fold a ≠ fold b then .ok false
    else if a = 0 then .ok true
    else sameText fold mem s

/-- `eat_space`, from the rest of a string: how far it goes. -/
def eatSpace : Bytes → Read ℕ
  | [] => .error .thrown
  | c :: s => if isSpace c ∧ c ≠ 13 then (eatSpace s).map (· + 1) else .ok 0

/-- The loop that looks for the end of a line. -/
def nextReturn : Bytes → Read ℕ
  | [] => .error .thrown
  | c :: s => if c ≠ 13 then (nextReturn s).map (· + 1) else .ok 0

/-- `goto_chr`, from the rest of a string and its length: how far it goes, and whether the
character is there. -/
def gotoChr (ch : UInt8) : Bytes → ℕ → Read (ℕ × Bool)
  | _, 0 => .error .thrown
  | [], _ + 1 => .error .outside
  | c :: mem, n + 1 =>
    if c = ch then .ok (0, true)
    else if c = 13 then .ok (0, false)
    else (gotoChr ch mem n).map fun x => (x.1 + 1, x.2)

/-- `_get_header`: whether there is one, the new position, the field and the value. -/
def getHeader (p : View) (idx : ℕ) : Read (Bool × ℕ × View × View) := do
  let tmp := p.substr idx 0
  match tmp.bytes.idxOf? 58 with
  | none => return (false, idx, .empty, .empty)
  | some pos =>
    let f := tmp.substr 0 pos
    let spaces ← eatSpace (tmp.bytes.drop (pos + 1))
    let tmp := tmp.substr (pos + 1 + spaces) 0
    let more ← nextReturn (tmp.bytes.drop 1)
    let pos := more + 2
    let c ← tmp.get pos
    if c = 10 then return (true, pos, f, tmp.substr 0 (pos - 2))
    else return (false, pos, f, .empty)

/-- The loop of `_get_disposition`: whether it succeeds, the name and the file name.  Every
turn moves by six characters at least; the first argument is the number of turns left. -/
def getDisposition (p : View) : ℕ → ℕ → ℕ → ℕ → View → View → Read (Bool × View × View)
  | 0, _, _, _, _, _ => .error .thrown
  | fuel + 1, idx, n, f, name, filename => do
    let next (idx n f : ℕ) (name filename : View) : Read (Bool × View × View) := do
      let c ← p.get idx
      let idx := if c = 59 then idx + 1 else idx
      let spaces ← eatSpace (p.bytes.drop idx)
      getDisposition p fuel (idx + spaces) n f name filename
    let c ← p.get idx
    -- `p < p.size()` compares the length with 1, or with 0 when there is none
    if c = 0 ∨ p.len ≤ 1 then return (true, name, filename)
    else if ← sameText lower (p.mem.drop idx) (ascii "name=\"") then
      let tmp := p.substr (idx + 6) 0
      let (k, found) ← gotoChr 34 (tmp.mem.drop n) (tmp.len - n)
      if found then next (idx + 6 + (n + k)) (n + k) f (tmp.substr 0 (n + k)) filename
      else return (false, name, filename)
    else if ← sameText lower (p.mem.drop idx) (ascii "filename=\"") then
      let tmp := p.substr (idx + 10) 0
      -- the quote is looked for from the start of the value
      let (k, found) ← gotoChr 34 (p.mem.drop f) (p.len - f)
      if found then next (idx + 10 + n) n (f + k) name (tmp.substr 0 (f + k))
      else return (false, name, filename)
    else return (false, name, filename)

/-! ### The machine -/

/-- The states of `parseMultipartForm`. -/
inductive State where
  | stateBegin
  | stateIsBoundary
  | stateBoundary
  | stateSaveData
  | stateSaveFile
  | stateHeader
  | stateContent
  | stateData
  | stateError
  | stateEnd
deriving DecidableEq

/-- The local variables, and the form. -/
structure Scan where
  state : State := .stateBegin
  nextState : State := .stateBegin
  idx : ℕ := 0
  ds : ℕ := 0
  name : View := .empty
  filename : View := .empty
  pay : View := .empty
  cap : Bool := false
  form : List Part := []
deriving DecidableEq

variable (p : View) (boundary : Bytes)

def isBoundary (c : Scan) : Read Scan := do
  let a ← p.get c.idx
  if a = 45 then
    let b ← p.get (c.idx + 1)
    if b = 45 then
      return { c with state := .stateIsBoundary, nextState := .stateBoundary, idx := c.idx + 2 }
    else return { c with nextState := c.state, idx := c.idx + 1 }
  else return { c with nextState := c.state }

/-- `p[idx] == a && p[idx+1] == b` -/
def pairAt (idx : ℕ) (a b : UInt8) : Read Bool := do
  if (← p.get idx) = a then return (← p.get (idx + 1)) = b else return false

def atBoundary (c : Scan) : Read Scan := do
  let c := { c with state := .stateIsBoundary }
  if !(← sameText id (p.mem.drop c.idx) boundary) then return { c with nextState := .stateError }
  else
    let idx := c.idx + boundary.length
    let el ← pairAt p idx 13 10
    let eb ← pairAt p idx 45 45
    if el || eb then
      let c := { c with idx := idx + 2, state := if el then .stateContent else .stateEnd }
      if c.filename.len ≠ 0 then return { c with nextState := .stateSaveFile, cap := true }
      else if c.name.len ≠ 0 then return { c with nextState := .stateSaveData, cap := true }
      else if el then return { c with nextState := .stateContent }
      else return { c with nextState := .stateEnd }
    else return { c with idx := idx, nextState := .stateError }

def saveFile (c : Scan) : Scan :=
  { c with form := c.form ++ [.file c.name.bytes c.filename.bytes c.pay.bytes],
           filename := .empty, pay := .empty, name := .empty, nextState := c.state, cap := false }

def saveData (c : Scan) : Scan :=
  { c with form := c.form ++ [.field c.name.bytes c.pay.bytes],
           name := .empty, pay := .empty, nextState := c.state, cap := false }

def content (c : Scan) : Read Scan := do
  let c := { c with state := .stateContent, nextState := .stateError }
  let (found, idx, dp, val) ← getHeader p c.idx
  let c := { c with idx := idx }
  if found ∧ dp.bytes.map lower = ascii "content-disposition" then
    let c := { c with idx := c.idx + 1 }
    if (val.bytes.take 9).map lower = ascii "form-data" then
      let spaces ← eatSpace (val.bytes.drop 10)
      let (ok, name, filename) ←
        getDisposition val (val.len + 1) (10 + spaces) 0 0 c.name c.filename
      let c := { c with name := name, filename := filename }
      return if ok then { c with nextState := .stateHeader } else c
    else return c
  else return c

def header (c : Scan) : Read Scan := do
  let c := { c with state := .stateHeader }
  let fields (c : Scan) : Read Scan := do
    let (found, idx, _, _) ← getHeader p c.idx
    if found then return { c with idx := idx + 1 }
    else return { c with idx := idx, nextState := .stateError }
  if (← p.get c.idx) = 13 then
    let c := { c with idx := c.idx + 1 }
    if (← p.get c.idx) = 10 then
      return { c with ds := c.idx + 1, idx := c.idx + 1, nextState := .stateData }
    else fields c
  else fields c

def data (c : Scan) : Scan :=
  { c with state := .stateData, pay := p.substr c.ds c.idx, idx := c.idx + 1,
           nextState := .stateIsBoundary }

/-- One turn of the loop. -/
def turn (c : Scan) : Read Scan :=
  if ¬(c.cap = true ∨ c.idx < p.len) then .error (.returned false c.form)
  else match c.nextState with
    | .stateBegin => isBoundary p { c with state := .stateError, nextState := .stateIsBoundary }
    | .stateIsBoundary => isBoundary p c
    | .stateBoundary => atBoundary p boundary c
    | .stateSaveFile => .ok (saveFile c)
    | .stateSaveData => .ok (saveData c)
    | .stateContent => content p c
    | .stateHeader => header p c
    | .stateData => .ok (data p c)
    | .stateEnd => .error (.returned true c.form)
    | .stateError => .error (.returned false c.form)

/-- How the loop ends within a number of turns, if it does. -/
def run : ℕ → Scan → Option Ending
  | 0, _ => none
  | n + 1, c =>
    match turn p boundary c with
    | .error e => some e
    | .ok c => run n c

/-- The body as a string. -/
def whole (body : Bytes) : View := ⟨body, body.length⟩

/-- `parseMultipartForm` of a body, which comes to an end from where it is. -/
def Ends (body : Bytes) (c : Scan) (e : Ending) : Prop :=
  ∃ n, run (whole body) boundary n c = some e

def Parses (body : Bytes) (parts : List Part) : Prop :=
  Ends boundary body {} (.returned true parts)

/-- `parseForm` of a multipart content type: the boundary it hands on; none when it returns
false at once. -/
def formBoundary (ctype : Bytes) : Option Bytes :=
  if ctype.map lower = ascii "multipart/form-data" then
    (ctype.idxOf? 61).map fun pos => Suil.substr ctype (pos + 1) 0
  else none

/-! ### Forms -/

def crlf : Bytes := [13, 10]

/-- A part of a form, and its headers but for the disposition. -/
structure Entry where
  part : Part
  headers : List Bytes := []

def Part.disposition : Part → Bytes
  | .field name _ => ascii "form-data; name=\"" ++ name ++ ascii "\""
  | .file name filename _ =>
    ascii "form-data; name=\"" ++ name ++ ascii "\"; filename=\"" ++ filename ++ ascii "\""

def Part.payload : Part → Bytes
  | .field _ value => value
  | .file _ _ data => data

def Entry.text (e : Entry) : Bytes :=
  ascii "--" ++ (boundary ++ (crlf ++ (ascii "Content-Disposition: " ++ (e.part.disposition ++
    (crlf ++ (e.headers.flatMap (· ++ crlf) ++ (crlf ++ (e.part.payload ++ crlf))))))))

/-- A form in multipart, with what is behind the last boundary. -/
def render (entries : List Entry) (epilogue : Bytes) : Bytes :=
  entries.flatMap (Entry.text boundary) ++ (ascii "--" ++ (boundary ++ (ascii "--" ++ epilogue)))

/-- The names have no zero byte and no end of a line in them. -/
def Part.Clean (part : Part) : Prop := 0 ∉ part.disposition ∧ 13 ∉ part.disposition

/-- `Form::encodeMultipart` and `submit`: the fields, and the files with their content
types. -/
def encodeMultipart (data : List (Bytes × Bytes)) (files : List (Bytes × Bytes × Bytes × Bytes)) :
    Bytes :=
  data.flatMap (fun x =>
    ascii "--" ++ boundary ++ crlf ++
    ascii "Content-Disposition: form-data; name=\"" ++ x.1 ++ ascii "\"" ++ crlf ++
    crlf ++ x.2 ++ crlf) ++
  if files = [] then ascii "--" ++ boundary ++ ascii "--"
  else
    files.flatMap (fun (name, filename, ctype, contents) =>
      ascii "--" ++ boundary ++ crlf ++
      ascii "Content-Disposition: form-data; name=\"" ++ name ++ ascii "\"; filename=\"" ++ filename ++
      ascii "\"" ++ crlf ++
      (if ctype ≠ [] then ascii "Content-Type: " ++ ctype ++ crlf else []) ++
      crlf ++ contents ++ crlf) ++
    ascii "--" ++ boundary ++ ascii "--" ++ crlf

/-- The disposition of the first part has no zero byte. -/
def Plain (body : Bytes) : Prop :=
  ∀ i f v, getHeader (whole body) (boundary.length + 4) = .ok (true, i, f, v) → 0 ∉ v.bytes

/-- The body ends within the first boundary. -/
def CutShort (body : Bytes) : Prop :=
  ∃ q, body = 45 :: 45 :: q ∧ q ≠ [] ∧ q <+: boundary ∧ q ≠ boundary ∧ 0 ∉ q

variable {p boundary}

/-! ### What is read -/

/-- A call that throws or yields a value of this kind. -/
def Yields {α : Type} (x : Read α) (Q : α → Prop) : Prop :=
  (∀ e, x = .error e → e = .thrown) ∧ ∀ a, x = .ok a → Q a

section Yields

variable {α β : Type} {x : Read α} {Q R : α → Prop}

theorem yields_ok {a : α} (h : Q a) : Yields (.ok a) Q := by
  refine ⟨fun e he => ?_, fun b hb => ?_⟩
  · cases he
  · exact Except.ok.inj hb ▸ h

theorem yields_thrown : Yields (.error .thrown : Read α) Q := by
  refine ⟨fun e he => (Except.error.inj he).symm, fun b hb => ?_⟩
  cases hb

theorem Yields.bind {f : α → Read β} {S : β → Prop} (h : Yields x Q)
    (hf : ∀ a, Q a → Yields (f a) S) : Yields (x >>= f) S := by
  cases x with
  | error e => exact h.1 e rfl ▸ yields_thrown
  | ok a => exact hf a (h.2 a rfl)

theorem Yields.self (h : Yields x Q) : Yields x fun a => x = .ok a ∧ Q a :=
  ⟨h.1, fun a ha => ⟨ha, h.2 a ha⟩⟩

theorem Yields.mono (h : Yields x Q) (hR : ∀ a, Q a → R a) : Yields x R :=
  ⟨h.1, fun a ha => hR a (h.2 a ha)⟩

theorem Yields.map {f : α → β} {S : β → Prop} (h : Yields x Q) (hf : ∀ a, Q a → S (f a)) :
    Yields (x.map f) S := by
  cases x with
  | error e => exact h.1 e rfl ▸ yields_thrown
  | ok a => exact yields_ok (hf a (h.2 a rfl))

end Yields

theorem yields_get {v : View} (h : v.len ≤ v.mem.length) (i : ℕ) :
    Yields (v.get i) fun c => i < v.len ∧ v.mem[i]? = some c := by
  rw [View.get]
  split_ifs with hi hmem
  · exact yields_ok ⟨hi, List.getElem?_eq_getElem hmem⟩
  · omega
  · exact yields_thrown

theorem yields_eatSpace (s : Bytes) : Yields (eatSpace s) fun k => k < s.length := by
  induction s with
  | nil => exact yields_thrown
  | cons c s ih =>
    rw [eatSpace]
    split_ifs
    · exact ih.map fun k hk => Nat.succ_lt_succ hk
    · exact yields_ok (Nat.succ_pos _)

theorem yields_nextReturn (s : Bytes) :
    Yields (nextReturn s) fun k => s[k]? = some 13 ∧ ∀ c ∈ s.take k, c ≠ 13 := by
  induction s with
  | nil => exact yields_thrown
  | cons c s ih =>
    rw [nextReturn]
    split_ifs with hc
    · refine ih.map fun k hk => ⟨hk.1, ?_⟩
      simpa [List.take_succ_cons] using ⟨hc, hk.2⟩
    · rw [not_not] at hc
      exact yields_ok ⟨by simp [hc], by simp⟩

/-- A comparison stops before the end of a line. -/
theorem yields_sameText {fold : UInt8 → UInt8} {mem s : Bytes} (hcr : 13 ∈ mem)
    (hs : ∀ b ∈ s, fold 13 ≠ fold b ∧ fold 0 ≠ fold b) :
    Yields (sameText fold mem s) fun same => same = true → 13 ∈ mem.drop s.length := by
  induction s generalizing mem with
  | nil =>
    rw [sameText]
    exact yields_ok fun _ => hcr
  | cons b s ih =>
    cases mem with
    | nil => exact absurd hcr List.not_mem_nil
    | cons a mem =>
      obtain ⟨h₁, h₂⟩ := hs b List.mem_cons_self
      rw [sameText]
      split_ifs with hne hzero
      · exact yields_ok fun h => absurd h Bool.false_ne_true
      · exact absurd (not_not.mp hne) (hzero ▸ h₂)
      · have ha : 13 ≠ a := fun heq => h₁ (heq ▸ not_not.mp hne)
        exact ih ((List.mem_cons.mp hcr).resolve_left ha)
          fun c hc => hs c (List.mem_cons_of_mem b hc)

theorem yields_gotoChr {ch : UInt8} {mem : Bytes} (hcr : 13 ∈ mem) (n : ℕ) :
    Yields (gotoChr ch mem n) fun x => x.2 = true → x.1 < n ∧ mem[x.1]? = some ch := by
  induction n generalizing mem with
  | zero =>
    rw [gotoChr]
    exact yields_thrown
  | succ n ih =>
    cases mem with
    | nil => exact absurd hcr List.not_mem_nil
    | cons c mem =>
      rw [gotoChr]
      split_ifs with hc hret
      · exact yields_ok fun _ => ⟨Nat.succ_pos n, by simp [hc]⟩
      · exact yields_ok fun h => absurd h Bool.false_ne_true
      · have hcr' := (List.mem_cons.mp hcr).resolve_left fun heq => hret heq.symm
        refine (ih hcr').map fun x hx hfound => ?_
        exact ⟨Nat.succ_lt_succ (hx hfound).1, (hx hfound).2⟩

theorem substr_whole {body : Bytes} {idx : ℕ} (h : idx ≤ body.length) :
    ((whole body).substr idx 0) = if idx = body.length then .empty else whole (body.drop idx) := by
  simp only [whole, View.substr, if_pos h, if_true, List.length_drop]
  by_cases heq : idx = body.length
  · simp [heq]
  · rw [if_pos ⟨by omega, le_rfl⟩, if_neg heq]

theorem bytes_whole (body : Bytes) : (whole body).bytes = body := List.take_length

/-- What `_get_header` takes for the value, from what is behind the colon and the spaces. -/
def valueOf (rest : Bytes) (more : ℕ) : View :=
  if more = 0 then whole rest else ⟨rest, more⟩

/-- A header is a line behind the first colon; of its value the last character is missing, and
of a value of one character the end. -/
structure Header (t : Bytes) (v : View) where
  pos : ℕ
  spaces : ℕ
  more : ℕ
  colon : t.idxOf? 58 = some pos
  eaten : eatSpace (t.drop (pos + 1)) = .ok spaces
  found : nextReturn (t.drop (pos + 2 + spaces)) = .ok more
  value : v = valueOf (t.drop (pos + 1 + spaces)) more

theorem substr_value {rest : Bytes} {more : ℕ} (h : more < rest.length) :
    (whole rest).substr 0 more = valueOf rest more := by
  rw [View.substr, if_pos (Nat.zero_le _), valueOf]
  by_cases hmore : more = 0
  · rw [if_pos hmore, if_pos hmore, if_pos]
    · rfl
    · exact ⟨by simp only [whole]; omega, le_rfl⟩
  · rw [if_neg hmore, if_neg hmore, if_pos]
    · rfl
    · exact ⟨hmore, by simp only [whole]; omega⟩

theorem getHeader_spec {body : Bytes} {idx : ℕ} (h : idx ≤ body.length) :
    Yields (getHeader (whole body) idx) fun x =>
      x.1 = true → Nonempty (Header (body.drop idx) x.2.2.2) := by
  have htmp : ((whole body).substr idx 0).bytes = body.drop idx := by
    rw [substr_whole h]
    split_ifs with heq
    · rw [heq, List.drop_length]
      rfl
    · exact bytes_whole _
  simp only [getHeader, htmp]
  cases hcolon : (body.drop idx).idxOf? 58 with
  | none => exact yields_ok fun hf => absurd hf Bool.false_ne_true
  | some pos =>
    have hne : body.drop idx ≠ [] := by
      intro hnil
      rw [hnil] at hcolon
      cases hcolon
    have hlt : idx ≠ body.length := by
      intro heq
      exact hne (by rw [heq, List.drop_length])
    rw [substr_whole h, if_neg hlt]
    generalize body.drop idx = t at *
    refine (yields_eatSpace _).self.bind fun spaces ⟨heat, hspaces⟩ => ?_
    rw [List.length_drop] at hspaces
    have hrest : (whole t).substr (pos + 1 + spaces) 0 = whole (t.drop (pos + 1 + spaces)) := by
      rw [substr_whole (by omega), if_neg (by omega)]
    simp only [hrest, bytes_whole, List.drop_drop]
    have hdrop : pos + 1 + spaces + 1 = pos + 2 + spaces := by omega
    rw [hdrop]
    refine (yields_nextReturn _).self.bind fun more ⟨hmore, hret⟩ => ?_
    refine (yields_get le_rfl _).bind fun c _ => ?_
    split_ifs with hc
    · refine yields_ok fun _ => ⟨⟨pos, spaces, more, hcolon, heat, hmore, ?_⟩⟩
      have hlen := (List.getElem?_eq_some_iff.mp hret.1).1
      rw [List.length_drop] at hlen
      exact substr_value (by rw [List.length_drop]; omega)
    · exact yields_ok fun hf => absurd hf Bool.false_ne_true

theorem Header.ends {t : Bytes} {v : View} (h : Header t v) :
    v.mem[1]? = some 13 ∧ v.len = v.mem.length ∨ v.mem[v.len + 1]? = some 13 := by
  have hret := ((yields_nextReturn _).2 _ h.found).1
  have hindex : (t.drop (h.pos + 1 + h.spaces))[h.more + 1]? = some 13 := by
    rw [List.getElem?_drop] at hret ⊢
    rw [← hret]
    congr 1
    omega
  rw [h.value, valueOf]
  split_ifs with hmore
  · rw [hmore] at hindex
    exact .inl ⟨hindex, rfl⟩
  · exact .inr hindex

/-- A value that starts like a form's ends before the end of its line. -/
theorem Header.ends_of_form {t : Bytes} {v : View} (h : Header t v)
    (hform : (v.bytes.take 9).map lower = ascii "form-data") :
    9 ≤ v.len ∧ v.mem[v.len + 1]? = some 13 := by
  have hlen := congrArg List.length hform
  simp only [View.bytes, List.take_take, List.length_map, List.length_take] at hlen
  have hnine : (ascii "form-data").length = 9 := rfl
  refine ⟨by omega, h.ends.resolve_left ?_⟩
  rintro ⟨h1, hall⟩
  have hsecond := congrArg (fun b : Bytes => b[1]?) hform
  simp only [View.bytes, hall, List.take_length, List.getElem?_map, List.getElem?_take, h1] at hsecond
  revert hsecond
  decide

theorem yields_quote {v : View} {start : ℕ} (hcr : 13 ∈ v.mem.drop start) :
    Yields (gotoChr 34 ((v.substr start 0).mem.drop 0) ((v.substr start 0).len - 0)) fun x =>
      x.2 = true → v.mem[start + x.1]? = some 34 := by
  have hcases : (v.substr start 0).len = 0 ∨ (v.substr start 0).mem = v.mem.drop start := by
    rw [View.substr]
    by_cases hstart : start ≤ v.len
    · simp only [if_pos hstart, if_true]
      split_ifs
      · exact .inr rfl
      · exact .inl rfl
    · rw [if_neg hstart]
      exact .inr rfl
  rw [List.drop_zero, Nat.sub_zero]
  rcases hcases with hlen | hmem
  · rw [hlen, gotoChr]
    exact yields_thrown
  · rw [hmem]
    refine (yields_gotoChr hcr _).mono fun x hx hfound => ?_
    rw [← List.getElem?_drop]
    exact (hx hfound).2

/-- Neither parameter's name has the end of a line or a zero byte in it. -/
theorem names_plain : (∀ b ∈ ascii "name=\"", lower 13 ≠ lower b ∧ lower 0 ≠ lower b) ∧
    ∀ b ∈ ascii "filename=\"", lower 13 ≠ lower b ∧ lower 0 ≠ lower b := by
  have hname : ascii "name=\"" = [110, 97, 109, 101, 61, 34] := by decide
  have hfilename : ascii "filename=\"" = [102, 105, 108, 101, 110, 97, 109, 101, 61, 34] := by
    decide
  rw [hname, hfilename]
  decide +kernel

theorem getDisposition_quote {v : View} (hmem : v.len ≤ v.mem.length) {fuel idx n f : ℕ}
    {name filename : View} (hlen : 2 ≤ v.len) (hquote : v.mem[idx]? = some 34) :
    Yields (getDisposition v fuel idx n f name filename) fun x => x.1 = false := by
  cases fuel with
  | zero =>
    rw [getDisposition]
    exact yields_thrown
  | succ fuel =>
    rw [getDisposition]
    refine (yields_get hmem idx).bind fun c ⟨_, hc⟩ => ?_
    obtain rfl := Option.some.inj (hquote.symm.trans hc)
    have hdrop : v.mem.drop idx = 34 :: v.mem.drop (idx + 1) := by
      obtain ⟨hlt, hget⟩ := List.getElem?_eq_some_iff.mp hquote
      rw [List.drop_eq_getElem_cons hlt, hget]
    have hname : sameText lower (34 :: v.mem.drop (idx + 1)) (ascii "name=\"") = .ok false := rfl
    have hfile : sameText lower (34 :: v.mem.drop (idx + 1)) (ascii "filename=\"") = .ok false := rfl
    rw [if_neg (by simp; omega), hdrop, hname, hfile]
    exact yields_ok rfl

/-- **A disposition without a zero byte** is refused: the quote behind the first name is taken
for the next parameter. -/
theorem getDisposition_spec {v : View} (h0 : 0 ∉ v.bytes) (hlen : 2 ≤ v.len)
    (hcr : v.mem[v.len + 1]? = some 13) (fuel : ℕ) {idx f : ℕ} (hf : f ≤ v.len)
    (name filename : View) :
    Yields (getDisposition v fuel idx 0 f name filename) fun x => x.1 = false := by
  have hmem : v.len + 1 < v.mem.length := (List.getElem?_eq_some_iff.mp hcr).1
  have hcrs : ∀ i ≤ v.len + 1, 13 ∈ v.mem.drop i := by
    intro i hi
    refine List.mem_of_getElem? (i := v.len + 1 - i) ?_
    rw [List.getElem?_drop, ← hcr]
    congr 1
    omega
  induction fuel generalizing idx f name filename with
  | zero =>
    rw [getDisposition]
    exact yields_thrown
  | succ fuel ih =>
    rw [getDisposition]
    refine (yields_get (by omega) idx).bind fun c ⟨hidx, hc⟩ => ?_
    have hc0 : c ≠ 0 := by
      rintro rfl
      refine h0 (List.mem_of_getElem? (i := idx) ?_)
      rw [View.bytes, List.getElem?_take, if_pos hidx, hc]
    rw [if_neg (by simp [hc0]; omega)]
    refine (yields_sameText (hcrs idx (by omega)) names_plain.1).bind fun same hname => ?_
    split_ifs with hsame
    · have hafter : 13 ∈ v.mem.drop (idx + 6) := by
        rw [← List.drop_drop]
        exact hname hsame
      refine (yields_quote hafter).bind fun x hx => ?_
      simp only
      split_ifs with hfound
      · -- the position is that of the quote
        rw [Nat.zero_add]
        have hquote := hx hfound
        refine (yields_get (by omega) _).bind fun c ⟨hlt, hc⟩ => ?_
        obtain rfl := Option.some.inj (hquote.symm.trans hc)
        have hdrop : v.bytes.drop (idx + 6 + x.1) = 34 :: v.bytes.drop (idx + 6 + x.1 + 1) := by
          have hget : v.bytes[idx + 6 + x.1]? = some 34 := by
            rw [View.bytes, List.getElem?_take, if_pos hlt, hquote]
          obtain ⟨hlt', hget'⟩ := List.getElem?_eq_some_iff.mp hget
          rw [List.drop_eq_getElem_cons hlt', hget']
        have heat : eatSpace (34 :: v.bytes.drop (idx + 6 + x.1 + 1)) = .ok 0 := rfl
        rw [if_neg (by decide), hdrop, heat]
        exact getDisposition_quote (by omega) hlen hquote
      · exact yields_ok rfl
    · refine (yields_sameText (hcrs idx (by omega)) names_plain.2).bind fun same' _ => ?_
      split_ifs with hsame'
      · refine (yields_gotoChr (hcrs f (by omega)) _).bind fun x hx => ?_
        simp only
        split_ifs with hfound
        · refine (yields_get (by omega) _).bind fun c _ => ?_
          refine (yields_eatSpace _).bind fun spaces _ => ?_
          have hlt := (hx hfound).1
          exact ih (by omega) _ _
        · exact yields_ok rfl
      · exact yields_ok rfl

/-! ### Ends -/

section Ends

variable {body : Bytes} {c c' : Scan} {e e' : Ending}

theorem ends_error (h : turn (whole body) boundary c = .error e') :
    Ends boundary body c e ↔ e = e' := by
  constructor
  · rintro ⟨n, hn⟩
    cases n with
    | zero => cases hn
    | succ n =>
      rw [run, h] at hn
      exact (Option.some.inj hn).symm
  · rintro rfl
    exact ⟨1, by rw [run, h]⟩

theorem ends_ok (h : turn (whole body) boundary c = .ok c') :
    Ends boundary body c e ↔ Ends boundary body c' e := by
  constructor
  · rintro ⟨n, hn⟩
    cases n with
    | zero => cases hn
    | succ n =>
      rw [run, h] at hn
      exact ⟨n, hn⟩
  · rintro ⟨n, hn⟩
    exact ⟨n + 1, by rwa [run, h]⟩

/-- There is one end at most. -/
theorem Ends.unique (h : Ends boundary body c e) (h' : Ends boundary body c e') : e = e' := by
  obtain ⟨n, hn⟩ := h
  induction n generalizing c with
  | zero => cases hn
  | succ n ih =>
    rw [run] at hn
    cases hturn : turn (whole body) boundary c with
    | error e'' =>
      rw [hturn] at hn
      exact (Option.some.inj hn).symm.trans ((ends_error hturn).mp h').symm
    | ok c' =>
      rw [hturn] at hn
      exact ih ((ends_ok hturn).mp h') hn

theorem ends_of_error (h : c.nextState = .stateError) :
    Ends boundary body c (.returned false c.form) := by
  refine (ends_error ?_).mpr rfl
  rw [turn]
  split_ifs
  · rw [h]
  · rfl

/-- Ends that add no part. -/
def Barren (e : Ending) : Prop := e = .thrown ∨ ∃ ok, e = .returned ok []

/-- A turn that throws, or goes on to such an end. -/
theorem ends_of_yields {Q : Scan → Prop} (h : Yields (turn (whole body) boundary c) Q)
    (hQ : ∀ c', Q c' → ∃ e, Ends boundary body c' e ∧ Barren e) :
    ∃ e, Ends boundary body c e ∧ Barren e := by
  cases hturn : turn (whole body) boundary c with
  | error e =>
    obtain rfl := h.1 e hturn
    exact ⟨_, (ends_error hturn).mpr rfl, .inl rfl⟩
  | ok c' =>
    obtain ⟨e, he, hbarren⟩ := hQ c' (h.2 c' hturn)
    exact ⟨e, (ends_ok hturn).mpr he, hbarren⟩

theorem sameText_outside_iff {mem s : Bytes} :
    sameText id mem s = .error .outside ↔ mem <+: s ∧ mem ≠ s ∧ 0 ∉ mem := by
  induction s generalizing mem with
  | nil =>
    rw [sameText]
    refine iff_of_false (by simp) fun h => h.2.1 (List.prefix_nil.mp h.1)
  | cons b s ih =>
    cases mem with
    | nil =>
      rw [sameText]
      exact iff_of_true rfl ⟨List.nil_prefix, by simp, List.not_mem_nil⟩
    | cons a mem =>
      rw [sameText, List.cons_prefix_cons]
      by_cases hab : a = b
      · subst hab
        rw [if_neg (not_not.mpr rfl)]
        by_cases hzero : a = 0
        · rw [if_pos hzero]
          simp [hzero]
        · rw [if_neg hzero, ih]
          simp [Ne.symm hzero]
      · simp [hab]

theorem sameText_error {fold : UInt8 → UInt8} {mem s : Bytes}
    (h : sameText fold mem s = .error e) : e = .outside := by
  induction s generalizing mem with
  | nil =>
    rw [sameText] at h
    cases h
  | cons b s ih =>
    cases mem with
    | nil =>
      rw [sameText] at h
      exact (Except.error.inj h).symm
    | cons a mem =>
      rw [sameText] at h
      split_ifs at h
      exact ih h

theorem sameText_append (s rest : Bytes) : sameText id (s ++ rest) s = .ok true := by
  induction s with
  | nil => rw [sameText]
  | cons a s ih =>
    rw [List.cons_append, sameText]
    simp [ih]

theorem ends_of_past (hcap : c.cap = false) (h : body.length ≤ c.idx) :
    Ends boundary body c (.returned false c.form) := by
  refine (ends_error ?_).mpr rfl
  rw [turn, if_pos]
  rintro (hcap' | hlt)
  · rw [hcap] at hcap'
    cases hcap'
  · exact absurd hlt (Nat.not_lt.mpr h)

theorem turn_of_lt (h : c.idx < body.length) (hnext : c.nextState = .stateBoundary) :
    turn (whole body) boundary c = atBoundary (whole body) boundary c := by
  rw [turn, if_neg (not_not.mpr (.inr h)), hnext]

theorem turn_content (h : c.idx < body.length) (hnext : c.nextState = .stateContent) :
    turn (whole body) boundary c = content (whole body) c := by
  rw [turn, if_neg (not_not.mpr (.inr h)), hnext]

end Ends

/-! ### The first part -/

section First

variable {body : Bytes} {c : Scan}

/-- Content at the first boundary is an error, unless its disposition has a zero byte. -/
theorem content_spec (hplain : Plain boundary body) (hidx : c.idx = boundary.length + 4)
    (hlen : c.idx ≤ body.length) :
    Yields (content (whole body) c) fun c' => c'.nextState = .stateError ∧ c'.form = c.form := by
  rw [content]
  refine (getHeader_spec hlen).self.bind fun ⟨found, i, f, v⟩ ⟨hget, hheader⟩ => ?_
  simp only
  split_ifs with hfound hform
  · obtain ⟨header : Header _ v⟩ := hheader hfound.1
    have h0 : 0 ∉ v.bytes := hplain i f v (by rw [← hidx, hget, hfound.1])
    obtain ⟨hnine, hcr⟩ := header.ends_of_form hform
    refine (yields_eatSpace _).bind fun spaces _ => ?_
    refine (getDisposition_spec h0 (by omega) hcr _ (Nat.zero_le _) _ _).bind fun x hx => ?_
    simp only [hx]
    exact yields_ok ⟨rfl, rfl⟩
  · exact yields_ok ⟨rfl, rfl⟩
  · exact yields_ok ⟨rfl, rfl⟩

theorem yields_pairAt (body : Bytes) (i : ℕ) (a b : UInt8) :
    Yields (pairAt (whole body) i a b) fun _ => True := by
  rw [pairAt]
  refine (yields_get le_rfl i).bind fun x _ => ?_
  split_ifs
  · exact (yields_get le_rfl (i + 1)).bind fun y _ => yields_ok trivial
  · exact yields_ok trivial

/-- Behind the first boundary is content, the end, or an error. -/
theorem atBoundary_spec (hname : c.name.len = 0) (hfile : c.filename.len = 0) {same : Bool}
    (hsame : sameText id (body.drop c.idx) boundary = .ok same) :
    Yields (atBoundary (whole body) boundary c) fun c' => c'.form = c.form ∧ c'.cap = c.cap ∧
      (c'.nextState = .stateError ∨ c'.nextState = .stateEnd ∨
        c'.nextState = .stateContent ∧ c'.idx = c.idx + boundary.length + 2) := by
  have hmem : sameText id ((whole body).mem.drop c.idx) boundary = .ok same := hsame
  simp only [atBoundary, hmem, hname, hfile, ne_eq, not_true, if_false]
  refine (yields_ok trivial : Yields (.ok same : Read Bool) fun _ => True).bind fun same _ => ?_
  split_ifs with hno
  · exact yields_ok ⟨rfl, rfl, .inl rfl⟩
  · refine (yields_pairAt body _ 13 10).bind fun el _ => ?_
    refine (yields_pairAt body _ 45 45).bind fun eb _ => ?_
    split_ifs
    · exact yields_ok ⟨rfl, rfl, .inr (.inr ⟨rfl, rfl⟩)⟩
    · exact yields_ok ⟨rfl, rfl, .inr (.inl rfl)⟩
    · exact yields_ok ⟨rfl, rfl, .inl rfl⟩

/-- The first turn, and the second before a boundary. -/
theorem turn_begin (a : UInt8) (t : Bytes) :
    turn (whole (a :: t)) boundary {} = isBoundary (whole (a :: t))
      { state := .stateError, nextState := .stateIsBoundary } := by
  rw [turn, if_neg]
  exact not_not.mpr (.inr (Nat.succ_pos _))

theorem turn_dashes (q : Bytes) : turn (whole (45 :: 45 :: q)) boundary {} =
    .ok { state := .stateIsBoundary, nextState := .stateBoundary, idx := 2 } := by
  rw [turn_begin, isBoundary]
  simp [View.get, whole, bind, Except.bind, pure, Except.pure]

/-- A body that does not begin with dashes is refused. -/
theorem ends_of_no_dashes {a : UInt8} {t : Bytes} (h : ∀ q, a :: t ≠ 45 :: 45 :: q) :
    ∃ e, Ends boundary (a :: t) {} e ∧ Barren e := by
  refine ends_of_yields (Q := fun c' => c'.nextState = .stateError ∧ c'.form = []) ?_ ?_
  · rw [turn_begin, isBoundary]
    refine (yields_get le_rfl 0).bind fun b ⟨_, hb⟩ => ?_
    obtain rfl : a = b := Option.some.inj hb
    split_ifs with ha
    · refine (yields_get le_rfl 1).bind fun d ⟨_, hd⟩ => ?_
      split_ifs with hdash
      · cases t with
        | nil => cases hd
        | cons b q =>
          obtain rfl : b = d := Option.some.inj hd
          exact absurd (by rw [ha, hdash]) (h q)
      · exact yields_ok ⟨rfl, rfl⟩
    · exact yields_ok ⟨rfl, rfl⟩
  · rintro c' ⟨hnext, hform⟩
    exact ⟨_, ends_of_error hnext, .inr ⟨false, by rw [hform]⟩⟩

/-- What is behind the dashes and a boundary that can be compared. -/
theorem ends_of_boundary (hplain : Plain boundary body) (hlen : 2 < body.length) {same : Bool}
    (hsame : sameText id (body.drop 2) boundary = .ok same) :
    ∃ e, Ends boundary body { state := .stateIsBoundary, nextState := .stateBoundary, idx := 2 } e ∧
      Barren e := by
  refine ends_of_yields (by
    rw [turn_of_lt hlen rfl]
    exact atBoundary_spec rfl rfl hsame) ?_
  rintro c' ⟨hform, hcap, hnext⟩
  by_cases hpast : body.length ≤ c'.idx
  · exact ⟨_, ends_of_past hcap hpast, .inr ⟨false, by rw [hform]⟩⟩
  · rcases hnext with hnext | hnext | ⟨hnext, hidx⟩
    · exact ⟨_, ends_of_error hnext, .inr ⟨false, by rw [hform]⟩⟩
    · refine ⟨.returned true c'.form, (ends_error ?_).mpr rfl, .inr ⟨true, by rw [hform]⟩⟩
      rw [turn, if_neg (not_not.mpr (.inr (Nat.lt_of_not_le hpast))), hnext]
    · have hstart : c'.idx = 2 + boundary.length + 2 := hidx
      have hlt := Nat.lt_of_not_le hpast
      refine ends_of_yields (by
        rw [turn_content hlt hnext]
        exact content_spec hplain (by omega) hlt.le) ?_
      rintro c'' ⟨hnext', hform'⟩
      exact ⟨_, ends_of_error hnext', .inr ⟨false, by rw [hform', hform]⟩⟩

/-- **A body without a zero byte in the first disposition** comes to an end without a part; it
is read behind its end when it is cut within the first boundary. -/
theorem ends_of_plain (h : Plain boundary body) : ∃ e, Ends boundary body {} e ∧
    (CutShort boundary body ∧ e = .outside ∨ ¬CutShort boundary body ∧ Barren e) := by
  by_cases hdashes : ∃ q, body = 45 :: 45 :: q
  · obtain ⟨q, rfl⟩ := hdashes
    have hcut : CutShort boundary (45 :: 45 :: q) ↔
        q ≠ [] ∧ sameText id q boundary = .error .outside := by
      rw [CutShort, sameText_outside_iff]
      simp only [List.cons.injEq, true_and, exists_eq_left']
    by_cases hq : q = []
    · refine ⟨.returned false [], ?_, .inr ⟨fun hc => (hcut.mp hc).1 hq, .inr ⟨false, rfl⟩⟩⟩
      rw [ends_ok (turn_dashes q)]
      exact ends_of_past rfl (by simp [hq])
    · have hlen : 2 < (45 :: 45 :: q).length := by
        have := List.length_pos_of_ne_nil hq
        simp only [List.length_cons]
        omega
      cases hsame : sameText id q boundary with
      | error e =>
        obtain rfl := sameText_error hsame
        refine ⟨.outside, ?_, .inl ⟨hcut.mpr ⟨hq, hsame⟩, rfl⟩⟩
        rw [ends_ok (turn_dashes q)]
        refine (ends_error ?_).mpr rfl
        have hmem : sameText id ((whole (45 :: 45 :: q)).mem.drop 2) boundary =
          .error .outside := hsame
        rw [turn_of_lt hlen rfl, atBoundary]
        simp only [hmem]
        rfl
      | ok same =>
        obtain ⟨e, he, hbarren⟩ := ends_of_boundary h hlen (by exact hsame)
        refine ⟨e, (ends_ok (turn_dashes q)).mpr he, .inr ⟨fun hc => ?_, hbarren⟩⟩
        have := (hcut.mp hc).2
        rw [hsame] at this
        cases this
  · have hcut : ¬CutShort boundary body := fun ⟨q, hq, _⟩ => hdashes ⟨q, hq⟩
    cases body with
    | nil => exact ⟨_, ends_of_past rfl (Nat.zero_le _), .inr ⟨hcut, .inr ⟨false, rfl⟩⟩⟩
    | cons a t =>
      obtain ⟨e, he, hbarren⟩ := ends_of_no_dashes fun q hq => hdashes ⟨q, hq⟩
      exact ⟨e, he, .inr ⟨hcut, hbarren⟩⟩

end First

/-! ### Forms -/

theorem nextReturn_append {a : Bytes} (h : 13 ∉ a) (b : Bytes) :
    nextReturn (a ++ 13 :: b) = .ok a.length := by
  induction a with
  | nil => rfl
  | cons c a ih =>
    have hc : c ≠ 13 := fun heq => h (heq ▸ List.mem_cons_self)
    rw [List.cons_append, nextReturn, if_pos hc, ih fun hmem => h (List.mem_cons_of_mem c hmem)]
    rfl

/-- The value of a line without its last character. -/
theorem Header.bytes_of_line {field s rest : Bytes} {a : UInt8} {v : View}
    (h : Header (field ++ 58 :: 32 :: a :: (s ++ 13 :: rest)) v) (hfield : 58 ∉ field)
    (ha : isSpace a = false) (hs : 13 ∉ s) (hne : s ≠ []) : v.bytes = (a :: s).dropLast := by
  have hpos : h.pos = field.length :=
    Option.some.inj (h.colon.symm.trans (idxOf?_separator hfield _))
  have hdrop : ∀ k, (field ++ 58 :: 32 :: a :: (s ++ 13 :: rest)).drop (field.length + 1 + k) =
      (32 :: a :: (s ++ 13 :: rest)).drop k := by
    intro k
    rw [List.drop_append, List.drop_of_length_le (by omega), List.nil_append]
    have hk : field.length + 1 + k - field.length = k + 1 := by omega
    rw [hk, List.drop_succ_cons]
  have heat := h.eaten
  rw [hpos, hdrop 0, List.drop_zero, eatSpace, if_pos (by decide), eatSpace,
    if_neg (by simp [ha])] at heat
  have hspaces : h.spaces = 1 := (Except.ok.inj heat).symm
  have hreturn := h.found
  have htwo : field.length + 2 + 1 = field.length + 1 + 2 := by omega
  rw [hpos, hspaces, htwo, hdrop 2] at hreturn
  have hmore : h.more = s.length := by
    refine Except.ok.inj (hreturn.symm.trans ?_)
    exact nextReturn_append hs rest
  have hlen : s.length ≠ 0 := fun hzero => hne (List.eq_nil_of_length_eq_zero hzero)
  rw [h.value, hpos, hspaces, hmore, hdrop 1, valueOf, if_neg hlen, View.bytes]
  simp only [List.drop_succ_cons, List.drop_zero]
  rw [← List.cons_append, List.take_append_of_le_length (Nat.le_succ _), List.dropLast_eq_take]
  rfl

theorem Part.disposition_eq (part : Part) :
    ∃ s, part.disposition = 102 :: s ∧ s ≠ [] := by
  cases part with
  | field name value => exact ⟨_, rfl, by simp⟩
  | file name filename data => exact ⟨_, rfl, by simp⟩

/-- The first disposition of a form is the one of its first part. -/
theorem plain_render {e : Entry} (h : e.part.Clean) (es : List Entry) (epilogue : Bytes) :
    Plain boundary (render boundary (e :: es) epilogue) := by
  obtain ⟨s, hs, hne⟩ := e.part.disposition_eq
  rw [Part.Clean, hs] at h
  obtain ⟨rest, hrest⟩ : ∃ rest, render boundary (e :: es) epilogue =
      (ascii "--" ++ (boundary ++ crlf)) ++
        (ascii "Content-Disposition" ++ 58 :: 32 :: 102 :: (s ++ 13 :: rest)) := by
    have hfield : ascii "Content-Disposition: " = ascii "Content-Disposition" ++ [58, 32] := rfl
    simp only [render, List.flatMap_cons, Entry.text, hs, crlf, hfield, List.append_assoc,
      List.cons_append, List.nil_append]
    exact ⟨_, rfl⟩
  intro i f v hget hmem
  have hstart : (ascii "--" ++ (boundary ++ crlf)).length = boundary.length + 4 := by
    simp only [List.length_append, crlf, List.length_cons, List.length_nil]
    exact Nat.add_comm 2 _
  rw [hrest] at hget
  obtain ⟨header⟩ := (getHeader_spec (by rw [List.length_append]; omega)).2 _ hget rfl
  rw [← hstart, List.drop_left] at header
  have hvalue := header.bytes_of_line (by decide +kernel) (by decide)
    (fun hcr => h.2 (List.mem_cons_of_mem _ hcr)) hne
  rw [hvalue] at hmem
  exact h.1 (List.mem_of_mem_dropLast hmem)

theorem get_whole {body : Bytes} {i : ℕ} {a : UInt8} (h : body[i]? = some a) :
    (whole body).get i = .ok a := by
  obtain ⟨hlt, hget⟩ := List.getElem?_eq_some_iff.mp h
  have hlen : i < (whole body).len := hlt
  have hmem : i < (whole body).mem.length := hlt
  rw [View.get, if_pos hlen, dif_pos hmem]
  exact congrArg _ hget

/-- A form without parts: the loop ends before it comes to the end state when nothing is
behind the boundary. -/
theorem ends_of_none (boundary epilogue : Bytes) :
    Ends boundary (render boundary [] epilogue) {} (.returned (epilogue ≠ []) []) := by
  have hbody : render boundary [] epilogue =
      45 :: 45 :: (boundary ++ 45 :: 45 :: epilogue) := rfl
  have hindex : ∀ k, (render boundary [] epilogue)[2 + boundary.length + k]? =
      (45 :: 45 :: epilogue)[k]? := by
    intro k
    rw [hbody, Nat.add_assoc, Nat.add_comm 2, List.getElem?_cons_succ, List.getElem?_cons_succ,
      List.getElem?_append_right (Nat.le_add_right _ _), Nat.add_sub_cancel_left]
  have hfirst := get_whole (hindex 0)
  have hsecond := get_whole (hindex 1)
  have hlen : (render boundary [] epilogue).length = 2 + boundary.length + 2 + epilogue.length := by
    rw [hbody]
    simp only [List.length_cons, List.length_append]
    omega
  have hsame : sameText id ((whole (render boundary [] epilogue)).mem.drop 2) boundary = .ok true :=
    sameText_append boundary (45 :: 45 :: epilogue)
  have hbegin : turn (whole (render boundary [] epilogue)) boundary {} =
    .ok { state := .stateIsBoundary, nextState := .stateBoundary, idx := 2 } :=
    turn_dashes (boundary ++ 45 :: 45 :: epilogue)
  rw [ends_ok hbegin]
  have hturn : turn (whole (render boundary [] epilogue)) boundary
      { state := .stateIsBoundary, nextState := .stateBoundary, idx := 2 } =
      .ok { state := .stateEnd, nextState := .stateEnd, idx := 2 + boundary.length + 2 } := by
    rw [turn_of_lt (by simp only [hlen]; omega) rfl, atBoundary]
    simp only [hsame, pairAt]
    simp only [Nat.add_zero] at hfirst
    simp [bind, Except.bind, hfirst, hsecond, pure, Except.pure, View.empty]
  rw [ends_ok hturn]
  by_cases hepilogue : epilogue = []
  · rw [show decide (epilogue ≠ []) = false by simp [hepilogue]]
    refine ends_of_past rfl ?_
    rw [hlen, hepilogue]
    exact le_rfl
  · refine (ends_error ?_).mpr rfl
    have hpos := List.length_pos_of_ne_nil hepilogue
    have hlt : 2 + boundary.length + 2 < (render boundary [] epilogue).length := by
      rw [hlen]
      omega
    rw [turn, if_neg (not_not.mpr (.inr hlt))]
    simp [hepilogue]

theorem parses_render {entries : List Entry} (h : ∀ e ∈ entries, e.part.Clean)
    (epilogue : Bytes) :
    Parses boundary (render boundary entries epilogue) (entries.map Entry.part) ↔
      entries = [] ∧ epilogue ≠ [] := by
  cases entries with
  | nil =>
    have hend := ends_of_none boundary epilogue
    constructor
    · intro hparses
      have := hend.unique hparses
      simpa using this
    · rintro ⟨_, hepilogue⟩
      rwa [decide_eq_true hepilogue] at hend
  | cons e es =>
    have hclean : e.part.Clean := h e List.mem_cons_self
    refine iff_of_false ?_ fun hnil => List.cons_ne_nil _ _ hnil.1
    intro hparses
    have hplain : Plain boundary (render boundary (e :: es) epilogue) :=
      plain_render hclean es epilogue
    obtain ⟨e', he', hcases⟩ := ends_of_plain hplain
    obtain rfl := he'.unique hparses
    rcases hcases with ⟨_, hout⟩ | ⟨_, hthrown | ⟨ok, hok⟩⟩
    · cases hout
    · cases hthrown
    · cases hok

/-- The parts that `Form::encodeMultipart` writes, in their order. -/
def formEntries (data : List (Bytes × Bytes)) (files : List (Bytes × Bytes × Bytes × Bytes)) :
    List Entry :=
  data.map (fun x => { part := .field x.1 x.2 }) ++
  files.map fun (name, filename, ctype, contents) =>
    { part := .file name filename contents,
      headers := if ctype ≠ [] then [ascii "Content-Type: " ++ ctype] else [] }

theorem encodeMultipart_eq (data : List (Bytes × Bytes))
    (files : List (Bytes × Bytes × Bytes × Bytes)) :
    encodeMultipart boundary data files =
      render boundary (formEntries data files) (if files = [] then [] else crlf) := by
  have hfield : ascii "Content-Disposition: form-data; name=\"" =
    ascii "Content-Disposition: " ++ ascii "form-data; name=\"" := rfl
  have hdata : ∀ x : Bytes × Bytes, Entry.text boundary { part := .field x.1 x.2 } =
      ascii "--" ++ boundary ++ crlf ++ ascii "Content-Disposition: form-data; name=\"" ++ x.1 ++
        ascii "\"" ++ crlf ++ crlf ++ x.2 ++ crlf := by
    intro x
    simp only [Entry.text, Part.disposition, Part.payload, hfield, List.flatMap_nil,
      List.nil_append, List.append_assoc]
  have hfile : ∀ x : Bytes × Bytes × Bytes × Bytes, Entry.text boundary
      { part := .file x.1 x.2.1 x.2.2.2,
        headers := if x.2.2.1 ≠ [] then [ascii "Content-Type: " ++ x.2.2.1] else [] } =
      ascii "--" ++ boundary ++ crlf ++ ascii "Content-Disposition: form-data; name=\"" ++ x.1 ++
        ascii "\"; filename=\"" ++ x.2.1 ++ ascii "\"" ++ crlf ++
        (if x.2.2.1 ≠ [] then ascii "Content-Type: " ++ x.2.2.1 ++ crlf else []) ++ crlf ++
        x.2.2.2 ++ crlf := by
    intro x
    by_cases hctype : x.2.2.1 = []
    · simp only [Entry.text, Part.disposition, Part.payload, hfield, hctype, ne_eq, not_true,
        if_false, List.flatMap_nil, List.nil_append, List.append_assoc]
    · simp only [Entry.text, Part.disposition, Part.payload, hfield, ne_eq, hctype, not_false_iff,
        if_true, List.flatMap_cons, List.flatMap_nil, List.append_nil, List.append_assoc]
  rw [encodeMultipart, render, formEntries, List.flatMap_append, List.flatMap_map, List.flatMap_map]
  simp only [hdata, hfile]
  split_ifs with hfiles
  · simp [hfiles]
  · simp

/-- `parseForm` does not hand a form on: a content type with a boundary is not the one it
compares with. -/
theorem formBoundary_eq_none (ctype : Bytes) : formBoundary ctype = none := by
  rw [formBoundary]
  split_ifs with h
  · have hno : ctype.idxOf? 61 = none := by
      rw [List.idxOf?_eq_none_iff]
      intro hmem
      have : lower 61 ∈ ctype.map lower := List.mem_map_of_mem hmem
      rw [h] at this
      revert this
      decide +kernel
    rw [hno]
    rfl
  · rfl

theorem not_parses_encodeMultipart {data : List (Bytes × Bytes)}
    {files : List (Bytes × Bytes × Bytes × Bytes)}
    (h : ∀ e ∈ formEntries data files, e.part.Clean) :
    ¬Parses boundary (encodeMultipart boundary data files)
      ((formEntries data files).map Entry.part) := by
  rw [encodeMultipart_eq, parses_render h]
  rintro ⟨hnil, hepilogue⟩
  have hfiles : files = [] := List.map_eq_nil_iff.mp (List.append_eq_nil_iff.mp hnil).2
  exact hepilogue (if_pos hfiles)

/-- A turn that changes nothing is taken for ever. -/
theorem never_ends {body : Bytes} {c : Scan} (h : turn (whole body) boundary c = .ok c)
    (e : Ending) : ¬Ends boundary body c e := by
  rintro ⟨n, hn⟩
  induction n with
  | zero => cases hn
  | succ n ih =>
    rw [run, h] at hn
    exact ih hn

end Multipart

end Suil
