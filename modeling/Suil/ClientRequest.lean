/-
Requests of an HTTP client.

A session handle holds one request object.  It is emptied only when the method or
the resource of a request differs from those of the one before; otherwise headers,
form, uploads and body are still there, and a header that is there is not replaced.
The length of a multipart form with files does not count the line end behind the
last boundary.

* `perform_own` — a request from an emptied object is what a new handle sends;
* `submit_length` — its `Content-Length` is the number of body bytes;
* `run_sends_own` — both, for runs of requests on one handle.
-/
import Suil.Base64Url
import Suil.StringKeys
import Suil.Lib.Runs

open Runs

namespace Suil.ClientRequest

def crlf : Bytes := [13, 10]

inductive Method where
  | unknown
  | delete
  | get
  | head
  | post
  | put
  | connect
  | options
  | trace
deriving DecidableEq

/-- `Form::File`: `size` is what `fs::size` told when the form was made, `content` what the file
holds when it is sent. -/
structure UpFile where
  name : Bytes
  path : Bytes
  contentType : Bytes
  size : ℕ
  content : Bytes
deriving DecidableEq

structure Upload where
  file : UpFile
  head : Bytes
deriving DecidableEq

/-- `Form`; `data` is in the order of its map. -/
structure Form where
  boundary : Bytes
  encoding : ℕ
  files : List UpFile
  uploads : List Upload
  data : List (Bytes × Bytes)
deriving DecidableEq

/-- `Request`; a body file is its content and the position that `tell` gives. -/
structure Request where
  headers : List (Bytes × Bytes)
  arguments : List (Bytes × Bytes)
  method : Method
  resource : Bytes
  form : Form
  body : Bytes
  bodyFd : Option (Bytes × ℕ)
deriving DecidableEq

/-- What the socket is given: the parts of the head, and the bytes behind it. -/
structure Sent where
  method : Method
  resource : Bytes
  arguments : List (Bytes × Bytes)
  headers : List (Bytes × Bytes)
  body : Bytes
deriving DecidableEq

/-- What a request builder does to the request. -/
inductive Build where
  | header (name value : Bytes)
  | arg (name value : Bytes)
  | form (boundary : Bytes) (encoding : ℕ) (files : List UpFile) (data : List (Bytes × Bytes))
  | file (content : Bytes) (tell : ℕ)
  | buffer (contentType bytes : Bytes)
deriving DecidableEq

/-! ### Forms -/

/-- `Form::operator bool`. -/
def Form.isSet (f : Form) : Bool := f.data ≠ [] || f.files ≠ []

/-- `fs::filename`. -/
def filename (path : Bytes) : Bytes := path.rtakeWhile (· ≠ 47)

def encodeUrlEncoded (data : List (Bytes × Bytes)) : Bytes :=
  [38].intercalate (data.map fun x => x.1 ++ 61 :: x.2)

/-- The fields of a multipart form. -/
def multipartFields (boundary : Bytes) (data : List (Bytes × Bytes)) : Bytes :=
  data.flatMap fun x =>
    ascii "--" ++ boundary ++ crlf ++ ascii "Content-Disposition: form-data; name=\"" ++ x.1 ++
      ascii "\"" ++ crlf ++ crlf ++ x.2 ++ crlf

/-- What `encodeMultipart` makes of a file. -/
def upload (boundary : Bytes) (ff : UpFile) : Upload :=
  ⟨ff, ascii "--" ++ boundary ++ crlf ++ ascii "Content-Disposition: form-data; name=\"" ++ ff.name ++
    ascii "\"; filename=\"" ++ filename ff.path ++ ascii "\"" ++ crlf ++
    (if ff.contentType ≠ [] then ascii "Content-Type: " ++ ff.contentType ++ crlf else []) ++ crlf⟩

/-- `Form::encode`: the buffer, the length that is returned, and the form with its uploads. -/
def Form.encode (f : Form) (dst : Bytes) : Bytes × ℕ × Form :=
  if f.files = [] ∧ f.data = [] then (dst, 0, f)
  else if f.encoding = 0 then
    let dst := dst ++ encodeUrlEncoded f.data
    (dst, dst.length, f)
  else
    let dst := dst ++ multipartFields f.boundary f.data
    if f.files = [] then
      let dst := dst ++ ascii "--" ++ f.boundary ++ ascii "--"
      (dst, dst.length, f)
    else
      let uploads := f.files.map (upload f.boundary)
      (dst, dst.length + (uploads.map fun up => up.head.length + up.file.size + crlf.length).sum +
        (4 + f.boundary.length), { f with uploads := f.uploads ++ uploads })

/-- `Form::clear`. -/
def Form.clear (f : Form) : Form :=
  { f with
    uploads := []
    files := []
    data := [] }

/-! ### The request -/

/-- The keys are one for a map of headers: hash and comparison agree. -/
def sameKey (a b : Bytes) : Bool :=
  Key.computeHash a = Key.computeHash b && Key.compare ⟨some a, 0⟩ ⟨some b, 0⟩

/-- `emplace` into a map of headers, here in the order of the calls: what is there stays. -/
def emplace (headers : List (Bytes × Bytes)) (name value : Bytes) : List (Bytes × Bytes) :=
  if headers.any fun h => sameKey name h.1 then headers else headers ++ [(name, value)]

def Request.header (s : Request) (name value : Bytes) : Request :=
  { s with headers := emplace s.headers name value }

/-- One action of a builder, and whether it returns. -/
def build (s : Request) : Build → Request × Bool
  | .header name value => (s.header name value, true)
  | .arg name value =>
    match Base64.urlEncode value with
    | none => (s, false)
    | some text =>
      ({ s with arguments := if s.arguments.any (·.1 = name) then s.arguments
          else s.arguments ++ [(name, text)] }, true)
  | .form boundary encoding files data =>
    if s.body ≠ [] ∨ s.bodyFd.isSome then (s, false)
    else
      let s := { s with form := ⟨boundary, encoding, files, [], data⟩ }
      (s.header (ascii "Content-Type")
        (if encoding = 0 then ascii "application/x-www-form-urlencoded"
          else ascii "multipart/form-data; boundary=" ++ boundary), true)
  | .file content tell =>
    if s.body ≠ [] ∨ s.form.isSet then (s, false)
    else ({ s with bodyFd := some (content, tell) }, true)
  | .buffer contentType bytes =>
    if s.bodyFd.isSome ∨ s.form.isSet then (s, false)
    else
      let s := s.header (ascii "Content-Type") contentType
      ({ s with body := s.body ++ bytes }, true)

/-- A builder: its actions up to the first that throws. -/
def builds (s : Request) : List Build → Request × Bool
  | [] => (s, true)
  | b :: bs =>
    match build s b with
    | (s, true) => builds s bs
    | (s, false) => (s, false)

/-- `Request::cleanup`. -/
def Request.cleanup (s : Request) : Request := ⟨[], [], s.method, [], s.form.clear, [], none⟩

/-- `Request::reset`, as `perform` calls it. -/
def Request.reset (s : Request) (m : Method) (res : Bytes) : Request :=
  if m ≠ s.method ∨ strEq res s.resource = false then
    { s.cleanup with
      resource := res
      method := m }
  else s

/-- `Request::buildBody`, and the request behind it. -/
def buildBody (s : Request) : Request × ℕ :=
  match s.bodyFd with
  | some (_, tell) => (s, tell)
  | none =>
    if s.form.isSet then
      let (body, n, form) := s.form.encode s.body
      ({ s with
        body := body
        form := form }, n)
    else (s, s.body.length)

/-- An upload as it is sent; a file that has become shorter is never sent in full. -/
def Upload.bytes (up : Upload) : Option Bytes :=
  if up.file.size ≤ up.file.content.length then
    some (up.head ++ up.file.content.take up.file.size ++ crlf)
  else none

/-- The bytes that `submit` sends behind the head, for a length that is not zero. -/
def payload (s : Request) (contentLength : ℕ) : Option Bytes :=
  match s.bodyFd with
  | some (content, _) => if contentLength ≤ content.length then some (content.take contentLength) else none
  | none => do
    let uploads ← s.form.uploads.mapM Upload.bytes
    some (s.body ++ uploads.flatten ++
      if s.form.uploads ≠ [] then ascii "--" ++ s.form.boundary ++ ascii "--" ++ crlf else [])

/-- `Request::submit`: what is sent, when all of it is. -/
def submit (s : Request) (date : Bytes) : Option Sent × Request :=
  let (s, contentLength) := buildBody s
  let s := (s.header (ascii "Content-Length") (decimalText contentLength)).header (ascii "Date") date
  let body := if contentLength = 0 then some [] else payload s contentLength
  (body.map fun body => ⟨s.method, s.resource, s.arguments, s.headers, body⟩, s)

/-- A call of `Session::perform`: the headers of the session, the builder and what it returns,
whether the socket is or gets open and whether it sends what it is given. -/
structure Perform where
  method : Method
  resource : Bytes
  session : List (Bytes × Bytes)
  builder : List Build
  accepts : Bool
  opens : Bool
  sends : Bool
  date : Bytes

/-- `Session::perform`, up to the response; nothing is answered when it throws. -/
def perform (s : Request) (p : Perform) : Option Sent × Request :=
  let s := s.reset p.method p.resource
  let s := p.session.foldl (fun s h => s.header h.1 h.2) s
  match builds s p.builder with
  | (s, false) => (none, s)
  | (s, true) =>
    if p.accepts && p.opens then
      let (sent, s) := submit s p.date
      (if p.sends then sent else none, s)
    else (none, s)

/-- The calls on a handle: a request, or a request that is followed by `cleanup` as in
`Session::connect`. -/
structure Op where
  call : Perform
  cleans : Bool

def step (s : Request) (op : Op) : Option (Option Sent × Request) :=
  let (sent, s) := perform s op.call
  some (sent, if op.cleans then s.cleanup else s)

/-- The request object of a new handle. -/
def Request.new : Request := ⟨[], [], .unknown, [], ⟨[], 0, [], [], []⟩, [], none⟩

/-- The value that a header has in what is sent. -/
def Sent.header (out : Sent) (name : Bytes) : Option Bytes :=
  (out.headers.find? fun h => sameKey name h.1).map (·.2)

/-- What is sent tells the number of its body bytes, and is what a new handle would send. -/
def Right (m : Move Request Op (Option Sent)) : Prop :=
  ∀ out ∈ m.output, out.header (ascii "Content-Length") = some (decimalText out.body.length) ∧
    (perform .new m.input.call).1 = some out

instance (m : Move Request Op (Option Sent)) : Decidable (Right m) :=
  inferInstanceAs (Decidable (∀ out ∈ m.output,
    out.header (ascii "Content-Length") = some (decimalText out.body.length) ∧
      (perform .new m.input.call).1 = some out))

/-- The object holds nothing of an earlier request. -/
def Request.Clean (s : Request) : Prop :=
  s.headers = [] ∧ s.arguments = [] ∧ s.form.isSet = false ∧ s.form.uploads = [] ∧ s.body = [] ∧
    s.bodyFd = none

instance (s : Request) : Decidable s.Clean :=
  inferInstanceAs (Decidable (s.headers = [] ∧ s.arguments = [] ∧ s.form.isSet = false ∧
    s.form.uploads = [] ∧ s.body = [] ∧ s.bodyFd = none))

/-- The headers that a builder adds, and the files of its forms. -/
def Build.header? : Build → Option Bytes
  | .header name _ => some name
  | _ => none

def Build.files : Build → List UpFile
  | .form _ _ files _ => files
  | _ => []

/-- The object is emptied, or is that of a new handle, nobody else gives the length, and no file is
in a form. -/
def Allowed (s : Request) (op : Op) : Prop :=
  (op.call.method ≠ s.method ∨ strEq op.call.resource s.resource = false ∨
      s.Clean ∧ op.call.resource = s.resource) ∧
    (∀ h ∈ op.call.session, sameKey (ascii "Content-Length") h.1 = false) ∧
    (∀ b ∈ op.call.builder, ∀ n ∈ b.header?, sameKey (ascii "Content-Length") n = false) ∧
    ∀ b ∈ op.call.builder, b.files = []

instance (s : Request) (op : Op) : Decidable (Allowed s op) :=
  inferInstanceAs (Decidable ((op.call.method ≠ s.method ∨ strEq op.call.resource s.resource = false ∨
      s.Clean ∧ op.call.resource = s.resource) ∧
    (∀ h ∈ op.call.session, sameKey (ascii "Content-Length") h.1 = false) ∧
    (∀ b ∈ op.call.builder, ∀ n ∈ b.header?, sameKey (ascii "Content-Length") n = false) ∧
    ∀ b ∈ op.call.builder, b.files = []))

variable {s t : Request}

/-! ### What a form that is blank leaves open -/

/-- Nothing of the form is sent; its boundary and encoding may be those of an earlier form. -/
def Form.Blank (f : Form) : Prop := f.isSet = false ∧ f.uploads = []

/-- The objects differ at most in the boundary and the encoding of a blank form. -/
def Same (s t : Request) : Prop := ∃ f, s = { t with form := f } ∧ (f = t.form ∨ f.Blank ∧ t.form.Blank)

theorem Same.header (h : Same s t) (name value : Bytes) :
    Same (s.header name value) (t.header name value) := by
  obtain ⟨f, rfl, hf⟩ := h
  exact ⟨f, rfl, hf⟩

theorem Same.isSet (h : Same s t) : s.form.isSet = t.form.isSet := by
  obtain ⟨f, rfl, rfl | ⟨hf, ht⟩⟩ := h
  · rfl
  · exact hf.1.trans ht.1.symm

theorem Same.build (h : Same s t) (b : Build) :
    Same (build s b).1 (build t b).1 ∧ (build s b).2 = (build t b).2 := by
  have hset := h.isSet
  obtain ⟨f, rfl, hf⟩ := h
  cases b with
  | header name value => exact ⟨⟨f, rfl, hf⟩, rfl⟩
  | arg name value =>
    simp only [ClientRequest.build]
    cases Base64.urlEncode value with
    | none => exact ⟨⟨f, rfl, hf⟩, rfl⟩
    | some text => exact ⟨⟨f, rfl, hf⟩, rfl⟩
  | form boundary encoding files data =>
    simp only [ClientRequest.build]
    split_ifs
    · exact ⟨⟨f, rfl, hf⟩, rfl⟩
    · exact ⟨⟨_, rfl, Or.inl rfl⟩, rfl⟩
    · exact ⟨⟨_, rfl, Or.inl rfl⟩, rfl⟩
  | file content tell =>
    simp only [ClientRequest.build, hset]
    split_ifs
    · exact ⟨⟨f, rfl, hf⟩, rfl⟩
    · exact ⟨⟨f, rfl, hf⟩, rfl⟩
  | buffer contentType bytes =>
    simp only [ClientRequest.build, hset]
    split_ifs
    · exact ⟨⟨f, rfl, hf⟩, rfl⟩
    · exact ⟨⟨f, rfl, hf⟩, rfl⟩

theorem Same.builds (h : Same s t) (bs : List Build) :
    Same (builds s bs).1 (builds t bs).1 ∧ (builds s bs).2 = (builds t bs).2 := by
  induction bs generalizing s t with
  | nil => exact ⟨h, rfl⟩
  | cons b bs ih =>
    obtain ⟨hsame, hok⟩ := h.build b
    rw [ClientRequest.builds, ClientRequest.builds]
    rcases hs : ClientRequest.build s b with ⟨u, ok⟩
    rcases ht : ClientRequest.build t b with ⟨v, ok'⟩
    rw [hs, ht] at hsame hok
    obtain rfl : ok = ok' := hok
    cases ok with
    | true => exact ih hsame
    | false => exact ⟨hsame, rfl⟩

theorem Same.session (h : Same s t) (headers : List (Bytes × Bytes)) :
    Same (headers.foldl (fun s h => s.header h.1 h.2) s)
      (headers.foldl (fun s h => s.header h.1 h.2) t) := by
  induction headers generalizing s t with
  | nil => exact h
  | cons x headers ih => exact ih (h.header x.1 x.2)

/-- A request whose form is not set is sent as it stands. -/
theorem buildBody_of_not_set (h : s.form.isSet = false) :
    buildBody s = (s, (s.bodyFd.map (·.2)).getD s.body.length) := by
  rw [buildBody]
  cases s.bodyFd with
  | none => rw [h]; rfl
  | some fd => rfl

theorem Same.submit (h : Same s t) (date : Bytes) : (submit s date).1 = (submit t date).1 := by
  obtain ⟨f, rfl, rfl | ⟨hf, ht⟩⟩ := h
  · rfl
  · rw [ClientRequest.submit, ClientRequest.submit, buildBody_of_not_set hf.1,
      buildBody_of_not_set ht.1]
    simp only [payload, Request.header, hf.2, ht.2]
    rfl

/-! ### An object that is emptied -/

theorem Form.clear_blank (f : Form) : f.clear.Blank := ⟨rfl, rfl⟩

theorem strEq_nil {a : Bytes} (h : strEq a [] = true) : a = [] := by
  rw [strEq, if_pos (Or.inr rfl), Bool.and_eq_true, decide_eq_true_eq] at h
  exact h.1

/-- A new handle's object, once it knows what is asked for. -/
theorem new_reset (m : Method) (res : Bytes) :
    Request.new.reset m res = ⟨[], [], m, res, ⟨[], 0, [], [], []⟩, [], none⟩ := by
  rw [Request.reset]
  split_ifs with h
  · rfl
  · rw [not_or, not_not, Bool.not_eq_false] at h
    obtain rfl := strEq_nil h.2
    rw [h.1]
    rfl

theorem same_reset {op : Op} (h : Allowed s op) :
    Same (s.reset op.call.method op.call.resource)
      (Request.new.reset op.call.method op.call.resource) := by
  rw [new_reset, Request.reset]
  split_ifs with hclean
  · exact ⟨s.form.clear, rfl, Or.inr ⟨s.form.clear_blank, rfl, rfl⟩⟩
  · -- nothing is emptied, so nothing must be there
    rw [not_or, not_not, Bool.not_eq_false] at hclean
    rcases h.1 with hmethod | hres | ⟨⟨hheaders, hargs, hset, huploads, hbody, hfd⟩, hres⟩
    · exact absurd hclean.1 hmethod
    · rw [hres] at hclean
      cases hclean.2
    · refine ⟨s.form, ?_, Or.inr ⟨⟨hset, huploads⟩, rfl, rfl⟩⟩
      rw [hclean.1, hres]
      calc s = ⟨s.headers, s.arguments, s.method, s.resource, s.form, s.body, s.bodyFd⟩ := rfl
        _ = _ := by rw [hheaders, hargs, hbody, hfd]

/-- **A request from an emptied object** is what a new handle sends. -/
theorem perform_own {op : Op} (h : Allowed s op) :
    (perform s op.call).1 = (perform .new op.call).1 := by
  have hsame := (same_reset h).session op.call.session
  rw [perform, perform]
  simp only
  obtain ⟨hbuilt, hok⟩ := hsame.builds op.call.builder
  set u := op.call.session.foldl (fun s h => s.header h.1 h.2)
    (s.reset op.call.method op.call.resource)
  set v := op.call.session.foldl (fun s h => s.header h.1 h.2)
    (Request.new.reset op.call.method op.call.resource)
  rcases hu : builds u op.call.builder with ⟨u', ok⟩
  rcases hv : builds v op.call.builder with ⟨v', ok'⟩
  rw [hu, hv] at hbuilt hok
  obtain rfl : ok = ok' := hok
  cases ok with
  | false => rfl
  | true =>
    simp only
    split_ifs
    · exact hbuilt.submit op.call.date
    · rfl
    · rfl

/-! ### The length -/

/-- No file is to be uploaded, and no header gives the length. -/
structure Plain (s : Request) : Prop where
  files : s.form.files = [] ∧ s.form.uploads = []
  headers : ∀ h ∈ s.headers, sameKey (ascii "Content-Length") h.1 = false

theorem Plain.header (h : Plain s) {name : Bytes} (value : Bytes)
    (hname : sameKey (ascii "Content-Length") name = false) : Plain (s.header name value) := by
  refine ⟨h.files, fun x hx => ?_⟩
  rw [Request.header, emplace] at hx
  split_ifs at hx
  · exact h.headers x hx
  · rcases List.mem_append.mp hx with hx | hx
    · exact h.headers x hx
    · obtain rfl := List.mem_singleton.mp hx
      exact hname

theorem sameKey_contentType : sameKey (ascii "Content-Length") (ascii "Content-Type") = false := by
  decide +kernel

theorem Plain.build (h : Plain s) {b : Build}
    (hheader : ∀ n ∈ b.header?, sameKey (ascii "Content-Length") n = false) (hfiles : b.files = []) :
    Plain (build s b).1 := by
  cases b with
  | header name value => exact h.header value (hheader name rfl)
  | arg name value =>
    simp only [ClientRequest.build]
    cases Base64.urlEncode value with
    | none => exact h
    | some text => exact ⟨h.files, h.headers⟩
  | form boundary encoding files data =>
    obtain rfl : files = [] := hfiles
    have hform : Plain { s with form := ⟨boundary, encoding, [], [], data⟩ } := ⟨⟨rfl, rfl⟩, h.headers⟩
    simp only [ClientRequest.build]
    split_ifs
    · exact h
    · exact hform.header _ sameKey_contentType
    · exact hform.header _ sameKey_contentType
  | file content tell =>
    simp only [ClientRequest.build]
    split_ifs
    · exact h
    · exact ⟨h.files, h.headers⟩
  | buffer contentType bytes =>
    simp only [ClientRequest.build]
    split_ifs
    · exact h
    · have hkept := h.header contentType sameKey_contentType
      exact ⟨hkept.files, hkept.headers⟩

theorem Plain.builds (h : Plain s) {bs : List Build}
    (hheader : ∀ b ∈ bs, ∀ n ∈ b.header?, sameKey (ascii "Content-Length") n = false)
    (hfiles : ∀ b ∈ bs, b.files = []) : Plain (builds s bs).1 := by
  induction bs generalizing s with
  | nil => exact h
  | cons b bs ih =>
    rw [List.forall_mem_cons] at hheader hfiles
    have hb := h.build hheader.1 hfiles.1
    rw [ClientRequest.builds]
    rcases hbuilt : ClientRequest.build s b with ⟨u, ok⟩
    rw [hbuilt] at hb
    cases ok with
    | true => exact ih hb hheader.2 hfiles.2
    | false => exact hb

theorem Plain.session (h : Plain s) {headers : List (Bytes × Bytes)}
    (hheaders : ∀ x ∈ headers, sameKey (ascii "Content-Length") x.1 = false) :
    Plain (headers.foldl (fun s h => s.header h.1 h.2) s) := by
  induction headers generalizing s with
  | nil => exact h
  | cons x headers ih =>
    rw [List.forall_mem_cons] at hheaders
    exact ih (h.header x.2 hheaders.1) hheaders.2

/-- The first header of that name is the one that `submit` adds. -/
theorem find_length (h : ∀ h ∈ s.headers, sameKey (ascii "Content-Length") h.1 = false)
    (value name other : Bytes) :
    (((s.header (ascii "Content-Length") value).header name other).headers.find?
      fun h => sameKey (ascii "Content-Length") h.1).map (·.2) = some value := by
  have hself : sameKey (ascii "Content-Length") (ascii "Content-Length") = true := by decide +kernel
  have hnone : s.headers.find? (fun h => sameKey (ascii "Content-Length") h.1) = none :=
    List.find?_eq_none.mpr fun x hx => by simp [h x hx]
  have hfirst : (s.header (ascii "Content-Length") value).headers =
      s.headers ++ [(ascii "Content-Length", value)] := by
    rw [Request.header, emplace, if_neg]
    simpa using fun a b hab => h (a, b) hab
  have hfind : (s.headers ++ [(ascii "Content-Length", value)]).find?
      (fun h => sameKey (ascii "Content-Length") h.1) = some (ascii "Content-Length", value) := by
    rw [List.find?_append, hnone, Option.none_or, List.find?_singleton, if_pos hself]
  rw [Request.header, emplace]
  split_ifs
  · rw [hfirst, hfind]
    rfl
  · rw [hfirst, List.find?_append, hfind]
    rfl

theorem buildBody_headers (s : Request) : (buildBody s).1.headers = s.headers := by
  rw [buildBody]
  cases s.bodyFd with
  | some fd => rfl
  | none =>
    simp only
    split_ifs <;> rfl

/-- Without files the form is written into the body, and counted with it. -/
theorem buildBody_of_plain (h : Plain s) (hfd : s.bodyFd = none) (hn : (buildBody s).2 ≠ 0) :
    (buildBody s).1.form.uploads = [] ∧ (buildBody s).1.bodyFd = none ∧
      (buildBody s).2 = (buildBody s).1.body.length := by
  revert hn
  rw [buildBody, hfd]
  simp only
  split_ifs with hset
  · rw [Form.encode]
    split_ifs with hempty hurl hfiles
    · intro hn
      exact absurd rfl hn
    · exact fun _ => ⟨h.files.2, rfl, rfl⟩
    · exact fun _ => ⟨h.files.2, rfl, rfl⟩
    · exact absurd h.files.1 hfiles
  · exact fun _ => ⟨h.files.2, hfd, rfl⟩

/-- **The length** that a plain request gives is the number of its body bytes. -/
theorem submit_length (h : Plain s) (date : Bytes) {out : Sent} (hout : (submit s date).1 = some out) :
    out.header (ascii "Content-Length") = some (decimalText out.body.length) := by
  have hheaders := buildBody_headers s
  have hplain := buildBody_of_plain h
  rw [submit] at hout
  rcases hbuilt : buildBody s with ⟨u, n⟩
  rw [hbuilt] at hout hheaders hplain
  obtain ⟨body, hbody, rfl⟩ := Option.map_eq_some_iff.mp hout
  have hlen : body.length = n := by
    split_ifs at hbody with hzero
    · rw [← Option.some.inj hbody, hzero]
      rfl
    rcases hfd : s.bodyFd with _ | ⟨content, tell⟩
    · -- the body that was counted is sent, and no upload behind it
      obtain ⟨huploads, hufd, hn⟩ := hplain hfd hzero
      simp only at huploads hufd hn
      simp only [payload, Request.header, hufd, huploads] at hbody
      rw [← Option.some.inj hbody]
      simp [hn]
    · obtain ⟨rfl, rfl⟩ : s = u ∧ tell = n := by
        rw [buildBody, hfd] at hbuilt
        exact Prod.mk.inj hbuilt
      simp only [payload, Request.header, hfd] at hbody
      obtain ⟨hle, hbody⟩ := Option.ite_none_right_eq_some.mp hbody
      rw [← Option.some.inj hbody, List.length_take]
      exact min_eq_left hle
  rw [hlen]
  exact find_length (by rw [hheaders]; exact h.headers) _ _ _

/-- A length that is there already is the one that is sent. -/
theorem stale_length {name value : Bytes} (h : s.headers.find? (fun h => sameKey (ascii "Content-Length") h.1) =
    some (name, value)) (date : Bytes) {out : Sent} (hout : (submit s date).1 = some out) :
    out.header (ascii "Content-Length") = some value := by
  have hkept : ∀ (headers : List (Bytes × Bytes)) (other text : Bytes),
      headers.find? (fun h => sameKey (ascii "Content-Length") h.1) = some (name, value) →
      (emplace headers other text).find? (fun h => sameKey (ascii "Content-Length") h.1) =
        some (name, value) := by
    intro headers other text hfind
    rw [emplace]
    split_ifs
    · exact hfind
    · rw [List.find?_append, hfind]
      rfl
  rw [submit] at hout
  obtain ⟨body, -, rfl⟩ := Option.map_eq_some_iff.mp hout
  rw [← buildBody_headers] at h
  show (List.find? _ (emplace (emplace _ _ _) _ _)).map _ = _
  rw [hkept _ _ _ (hkept _ _ _ h)]
  rfl

theorem length_uploads {uploads : List Upload} {parts : List Bytes}
    (h : uploads.mapM Upload.bytes = some parts) :
    parts.flatten.length =
      (uploads.map fun up => up.head.length + up.file.size + crlf.length).sum := by
  induction uploads generalizing parts with
  | nil =>
    obtain rfl := Option.some.inj h
    rfl
  | cons up uploads ih =>
    rw [List.mapM_cons] at h
    obtain ⟨part, hpart, h⟩ := Option.bind_eq_some_iff.mp h
    obtain ⟨rest, hrest, h⟩ := Option.bind_eq_some_iff.mp h
    obtain rfl := Option.some.inj h
    obtain ⟨hle, hpart⟩ := Option.ite_none_right_eq_some.mp hpart
    obtain rfl := Option.some.inj hpart
    rw [List.flatten_cons, List.length_append, ih hrest, List.map_cons, List.sum_cons,
      List.length_append, List.length_append, List.length_take, min_eq_left hle]

/-- **A form with files** is always two bytes longer than its length. -/
theorem submit_uploads (hfd : s.bodyFd = none) (hfiles : s.form.files ≠ [])
    (huploads : s.form.uploads = []) (hencoding : s.form.encoding ≠ 0) (date : Bytes) {out : Sent}
    (hout : (submit s date).1 = some out) : out.body.length = (buildBody s).2 + 2 := by
  have hset : s.form.isSet = true := by simp [Form.isSet, hfiles]
  have hbuilt : buildBody s = ({ s with
      body := (s.form.encode s.body).1
      form := (s.form.encode s.body).2.2 }, (s.form.encode s.body).2.1) := by
    rw [buildBody, hfd]
    simp only [hset, if_pos]
  rw [submit, hbuilt] at hout
  rw [hbuilt]
  obtain ⟨body, hbody, rfl⟩ := Option.map_eq_some_iff.mp hout
  simp only [Form.encode, hfiles, false_and, if_false, hencoding] at hbody ⊢
  rw [if_neg (by omega)] at hbody
  simp only [payload, Request.header, hfd, huploads, List.nil_append] at hbody
  obtain ⟨parts, hparts, hbody⟩ := Option.bind_eq_some_iff.mp hbody
  rw [← Option.some.inj hbody, if_pos (by simpa using hfiles)]
  simp only [List.length_append, length_uploads hparts]
  have hcrlf : crlf.length = 2 := rfl
  have hdashes : (ascii "--").length = 2 := by decide
  omega

/-! ### Runs -/

theorem plain_new_reset (m : Method) (res : Bytes) : Plain (Request.new.reset m res) := by
  rw [new_reset]
  exact ⟨⟨rfl, rfl⟩, fun _ h => absurd h List.not_mem_nil⟩

/-- One request as it is allowed. -/
theorem step_right {op : Op} (h : Allowed s op) {answer : Option Sent}
    (hstep : step s op = some (answer, t)) : Right ⟨s, op, answer, t⟩ := by
  obtain ⟨rfl, -⟩ := Prod.mk.inj (Option.some.inj hstep)
  intro out hout
  have hown := perform_own h
  have hnew : (perform .new op.call).1 = some out := hown.symm.trans hout
  refine ⟨?_, hnew⟩
  obtain ⟨-, hsession, hheader, hfiles⟩ := h
  -- what a new handle sends is plain, so its length is right
  have hplain := ((plain_new_reset op.call.method op.call.resource).session hsession).builds hheader hfiles
  rw [perform] at hnew
  simp only at hnew
  rcases hbuilt : builds (op.call.session.foldl (fun s h => s.header h.1 h.2)
    (Request.new.reset op.call.method op.call.resource)) op.call.builder with ⟨u, ok⟩
  rw [hbuilt] at hnew hplain
  cases ok with
  | false => cases hnew
  | true =>
    simp only at hnew
    split_ifs at hnew
    · exact submit_length hplain op.call.date hnew

/-- **Runs**: when each request meets an emptied object, no header but that of `submit` gives a
length and no file is in a form, what is sent is right. -/
theorem run_sends_own {ms : List (Move Request Op (Option Sent))} (h : Run step .new ms t)
    (hallowed : ∀ m ∈ ms, Allowed m.before m.input) : ∀ m ∈ ms, Right m :=
  fun m hm => step_right (hallowed m hm) (h.step_of_mem hm)

/-- A POST to `/`. -/
def post (builder : List Build) : Op :=
  ⟨⟨.post, ascii "/", [], builder, true, true, true, ascii "now"⟩, false⟩

/-- Two requests, with a body and with a form. -/
def bodyThenForm : List Op :=
  [post [.buffer (ascii "text/plain") (ascii "ab")],
    ⟨⟨.put, ascii "/", [], [.form (ascii "b") 1 [] [(ascii "k", ascii "v")]], true, true, true,
      ascii "now"⟩, false⟩]

theorem sends_own_two : (moves step .new bodyThenForm).length = 2 ∧
    ∀ m ∈ moves step .new bodyThenForm, Right m := by
  refine ⟨by decide +kernel, run_sends_own (run_final step .new bodyThenForm) ?_⟩
  decide +kernel

/-- A form with a file is longer than its header says, and a handle that is used again sends the body
and the length of the request before. -/
theorem not_sends_own :
    (∃ m ∈ moves step .new [post [.form (ascii "b") 1
        [⟨ascii "f", ascii "f", [], 1, ascii "x"⟩] []]], ¬Right m) ∧
      ∃ m ∈ moves step .new [post [.buffer (ascii "text/plain") (ascii "ab")],
        post [.buffer (ascii "text/plain") (ascii "cde")]], ¬Right m := by
  constructor
  · decide +kernel
  · decide +kernel

end Suil.ClientRequest
