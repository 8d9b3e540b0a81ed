/-
The response of a handler, and what the connection sends of it.

A `Response` keeps a list of queued chunks, a body and, beside them, the total
of the chunk sizes, from which the connection computes the `Content-Length`.
A handler works on it through its methods; an error it throws is handled by the
connection, which empties the response and may write a text into it.

* `apply_right_iff` — which single steps keep the total right;
* `right_iff` — along which runs it is right in every state;
* `announces_iff` — for a right total, when the announced length is what is sent;
* `announcesSent_iff` — both, for a whole run.
-/
import Suil.Strings

namespace Suil.Http

/-- `net::Chunk`: memory or a file descriptor, an offset into it and a size. -/
structure Chunk where
  usesFd : Bool
  off : ℕ
  len : ℕ
deriving DecidableEq, Repr

/-- The chunk made of memory released by a buffer or held by a string. -/
def Chunk.ofBytes (b : Bytes) : Chunk := ⟨false, 0, b.length⟩

/-- `Response`; of `_headers` only the names are kept. -/
structure Response where
  chunks : List Chunk := []
  chunksSize : ℕ := 0
  headers : List Bytes := []
  status : ℕ := 200
  body : Bytes := []
  completed : Bool := false
deriving DecidableEq, Repr

def lower (c : UInt8) : UInt8 := if 65 ≤ c ∧ c ≤ 90 then c + 32 else c

/-- `_headers.contains`, which ignores the case of a name. -/
def hasField (headers : List Bytes) (field : Bytes) : Bool :=
  headers.any fun h => h.map lower == field.map lower

namespace Response

/-- `chunk`, on `size_t`. -/
def chunk (r : Response) (c : Chunk) : Response :=
  { r with chunksSize := (r.chunksSize + c.len) % 2 ^ 64, chunks := r.chunks ++ [c] }

/-- `header`: a name that is there stays. -/
def header (r : Response) (field : Bytes) : Response :=
  if hasField r.headers field then r else { r with headers := r.headers ++ [field] }

/-- `append` of anything a buffer formats. -/
def append (r : Response) (t : Bytes) : Response := { r with body := r.body ++ t }

/-- `append` of a value that is encoded to JSON text first. -/
def appendJson (r : Response) (text : Bytes) : Response :=
  let r := if r.body ≠ [] then { r.chunk (.ofBytes r.body) with body := [] }
    else r.header (ascii "Content-Type")
  r.chunk (.ofBytes text)

/-- `end(status, buffer)`. -/
def endBuffer (r : Response) (status : ℕ) (b : Bytes) : Response :=
  let r := if r.body ≠ [] then { r.chunk (.ofBytes r.body) with body := [] } else r
  let r := if r.chunks ≠ [] then r.chunk (.ofBytes b) else { r with body := b }
  { r with status := status, completed := true }

/-- `clearContent`. -/
def clearContent (r : Response) : Response :=
  { r with
    chunks := []
    body := []
    headers := r.headers.filter fun h => !hasField [h] (ascii "Content-Type") }

/-- `clear`. -/
def clear (r : Response) : Response :=
  { r.clearContent with status := 200, completed := false, headers := [] }

/-- `merge`. -/
def merge (r o : Response) : Response :=
  { r with
    status := o.status
    body := o.body
    chunksSize := o.chunksSize
    chunks := o.chunks
    headers := r.headers ++ o.headers.filter fun h => !hasField r.headers h }

/-- The connection's `catch (HttpError&)`. -/
def catchHttpError (r : Response) (code : ℕ) (text : Bytes) : Response :=
  append { r with status := code, body := [], chunks := [] } text

/-- The connection's `catch (...)`. -/
def catchAll (r : Response) : Response :=
  { r with status := 500, chunks := [], body := [] }

/-- `size`, on `size_t`. -/
def size (r : Response) : ℕ := (r.body.length + r.chunksSize) % 2 ^ 64

end Response

/-- A call of the handler, or the end of the handler by an error. -/
inductive Event where
  | append (t : Bytes)
  | appendJson (text : Bytes)
  | body (b : Bytes)
  | chunk (c : Chunk)
  | header (field : Bytes)
  | finish (status : Option ℕ)
  | endText (status : ℕ) (t : Bytes)
  | endJson (status : ℕ) (text : Bytes)
  | endBuffer (status : ℕ) (b : Bytes)
  | redirect (status : ℕ)
  | upgrade
  | clearContent
  | clear
  | assign (o : Response)
  | merge (o : Response)
  | httpError (code : ℕ) (text : Bytes)
  | unhandled

/-- The response after a call or an error. -/
def Response.apply (r : Response) : Event → Response
  | .append t => r.append t
  | .appendJson text => r.appendJson text
  | .body b => { r with body := b }
  | .chunk c => r.chunk c
  | .header field => r.header field
  | .finish status => { r with status := status.getD r.status, completed := true }
  | .endText status t => { r.append t with status := status, completed := true }
  | .endJson status text => { r.appendJson text with status := status }
  | .endBuffer status b => r.endBuffer status b
  | .redirect status => { r.header (ascii "Location") with status := status, completed := true }
  | .upgrade => { r with status := 101, completed := true }
  | .clearContent => r.clearContent
  | .clear => r.clear
  | .assign o => o
  | .merge o => r.merge o
  | .httpError code text => r.catchHttpError code text
  | .unhandled => r.catchAll

/-- The response after a run of the handler, from the one the connection makes. -/
def run (es : List Event) : Response := es.foldl Response.apply {}

/-! ### The connection -/

/-- What `sendResponse` uses beside the response: the text of a status, the other
lines it writes, whether the request's own status is above 400, and the most it
hands to the socket at once. -/
structure Connection where
  statusText : ℕ → Bytes
  lines : Bytes
  refused : Bool
  sendChunk : ℕ

/-- One buffer of `writeResponse` from `sent` on, with a socket that takes what it is
handed: the bytes written, and whether the loop came to the end.  A call for no
bytes returns 0, which counts as a failure. -/
def sendPiece (sendChunk size sent : ℕ) : ℕ × Bool :=
  let chunk := min sendChunk (size - sent)
  if chunk = 0 then (sent, false)
  else if sent + chunk < size then sendPiece sendChunk size (sent + chunk)
  else (sent + chunk, true)
termination_by size - sent

/-- `writeResponse`: the bytes written until a buffer fails. -/
def writeResponse (sendChunk : ℕ) : List ℕ → ℕ × Bool
  | [] => (0, true)
  | size :: rest =>
    let (sent, done) := sendPiece sendChunk size 0
    if done then ((writeResponse sendChunk rest).1 + sent, (writeResponse sendChunk rest).2)
    else (sent, false)

namespace Response

/-- The text `sendResponse` writes for a refused request without content. -/
def filled (conn : Connection) (r : Response) : Response :=
  if conn.refused ∧ r.size = 0 then r.append (substr (conn.statusText r.status) 9 0) else r

/-- The sizes of the buffers behind the header. -/
def pieces (r : Response) : List ℕ :=
  r.chunks.map Chunk.len ++ if r.body = [] then [] else [r.body.length]

/-- The `Content-Length` the connection writes; none when the handler set one. -/
def announced (r : Response) : Option ℕ :=
  if hasField r.headers (ascii "Content-Length") then none else some r.size

/-- The header. -/
def stage (conn : Connection) (r : Response) : Bytes :=
  conn.statusText r.status ++ [13, 10] ++ conn.lines ++
    (r.announced.elim [] fun n => ascii "Content-Length: " ++ decimalText n ++ [13, 10]) ++ [13, 10]

end Response

/-- `sendResponse`: the length announced and the bytes sent behind the header, when the
header was sent. -/
def sendResponse (conn : Connection) (r : Response) : Option (Option ℕ × ℕ) :=
  let r := r.filled conn
  if (sendPiece conn.sendChunk (r.stage conn).length 0).2 then
    some (r.announced, (writeResponse conn.sendChunk r.pieces).1)
  else none

/-! ### The total of the chunk sizes -/

namespace Response

/-- The bytes of the queued chunks. -/
def queued (r : Response) : ℕ := (r.chunks.map Chunk.len).sum

/-- The total kept is the total of the chunks. -/
def Right (r : Response) : Prop := r.chunksSize = r.queued

variable {r : Response}

@[simp] theorem queued_chunk (c : Chunk) : (r.chunk c).queued = r.queued + c.len := by
  simp [queued, chunk]

@[simp] theorem chunksSize_chunk (c : Chunk) :
    (r.chunk c).chunksSize = (r.chunksSize + c.len) % 2 ^ 64 := rfl

/-- Nothing but the chunks and their total counts. -/
theorem right_congr {r' : Response} (hchunks : r'.chunks = r.chunks)
    (hsize : r'.chunksSize = r.chunksSize) : r'.Right ↔ r.Right := by
  rw [Right, Right, queued, queued, hchunks, hsize]

theorem Right.chunk_iff (h : r.Right) (c : Chunk) :
    (r.chunk c).Right ↔ r.queued + c.len < 2 ^ 64 := by
  rw [Right, chunksSize_chunk, queued_chunk, h, Nat.mod_eq_iff_lt (by norm_num)]

/-- Two chunks in a row. -/
theorem Right.chunk_chunk_iff (h : r.Right) (b c : Chunk) :
    ((r.chunk b).chunk c).Right ↔ r.queued + b.len + c.len < 2 ^ 64 := by
  rw [Right, chunksSize_chunk, queued_chunk, chunksSize_chunk, queued_chunk, h, Nat.mod_add_mod,
    Nat.mod_eq_iff_lt (by norm_num)]

theorem Right.appendJson_iff (h : r.Right) (text : Bytes) :
    (r.appendJson text).Right ↔ r.queued + r.body.length + text.length < 2 ^ 64 := by
  rw [appendJson]
  by_cases hbody : r.body = []
  · have hheader : (r.header (ascii "Content-Type")).Right ∧
        (r.header (ascii "Content-Type")).queued = r.queued := by
      rw [header]
      split_ifs
      · exact ⟨h, rfl⟩
      · exact ⟨h, rfl⟩
    rw [if_neg (not_not.mpr hbody), hheader.1.chunk_iff, hheader.2, hbody]
    rfl
  · rw [if_pos hbody]
    exact h.chunk_chunk_iff (.ofBytes r.body) (.ofBytes text)

theorem Right.endBuffer_iff (h : r.Right) (status : ℕ) (b : Bytes) :
    (r.endBuffer status b).Right ↔
      r.chunks = [] ∧ r.body = [] ∨ r.queued + r.body.length + b.length < 2 ^ 64 := by
  rw [endBuffer]
  by_cases hbody : r.body = []
  · rw [if_neg (not_not.mpr hbody)]
    by_cases hchunks : r.chunks = []
    · rw [if_neg (not_not.mpr hchunks)]
      exact iff_of_true h (Or.inl ⟨hchunks, hbody⟩)
    · rw [if_pos hchunks]
      have hiff := h.chunk_iff (.ofBytes b)
      refine (right_congr rfl rfl).trans (hiff.trans ?_)
      simp [hchunks, hbody, Chunk.ofBytes]
  · rw [if_pos hbody, if_pos (by simp [chunk])]
    have hiff := h.chunk_chunk_iff (.ofBytes r.body) (.ofBytes b)
    refine (right_congr rfl rfl).trans (hiff.trans ?_)
    simp [hbody, Chunk.ofBytes]

/-- Emptying the queue. -/
theorem Right.emptied_iff (h : r.Right) {r' : Response} (hchunks : r'.chunks = [])
    (hsize : r'.chunksSize = r.chunksSize) : r'.Right ↔ r.queued = 0 := by
  rw [Right, hsize, h, queued, queued, hchunks]
  rfl

/-- The steps that keep the total right: what they queue fits `size_t`, what they
empty held nothing, and a response moved in has a right total. -/
def Allowed (r : Response) : Event → Prop
  | .chunk c => r.queued + c.len < 2 ^ 64
  | .appendJson text | .endJson _ text => r.queued + r.body.length + text.length < 2 ^ 64
  | .endBuffer _ b =>
    r.chunks = [] ∧ r.body = [] ∨ r.queued + r.body.length + b.length < 2 ^ 64
  | .clearContent | .clear | .httpError _ _ | .unhandled => r.queued = 0
  | .assign o | .merge o => o.Right
  | _ => True

/-- **One step** keeps the total right iff it is allowed. -/
theorem apply_right_iff (h : r.Right) (e : Event) : (r.apply e).Right ↔ Allowed r e := by
  cases e with
  | chunk c => exact h.chunk_iff c
  | appendJson text => exact h.appendJson_iff text
  | endJson status text => exact h.appendJson_iff text
  | endBuffer status b => exact h.endBuffer_iff status b
  | clearContent => exact h.emptied_iff rfl rfl
  | clear => exact h.emptied_iff rfl rfl
  | httpError code text => exact h.emptied_iff rfl rfl
  | unhandled => exact h.emptied_iff rfl rfl
  | assign o => exact Iff.rfl
  | merge o => exact right_congr rfl rfl
  | append t => exact iff_of_true h trivial
  | body b => exact iff_of_true h trivial
  | finish status => exact iff_of_true h trivial
  | endText status t => exact iff_of_true h trivial
  | upgrade => exact iff_of_true h trivial
  | header field =>
    refine iff_of_true ?_ trivial
    rw [apply, header]
    split_ifs
    · exact h
    · exact h
  | redirect status =>
    refine iff_of_true ?_ trivial
    rw [apply, header]
    split_ifs
    · exact h
    · exact h

end Response

theorem run_concat (es : List Event) (e : Event) : run (es ++ [e]) = (run es).apply e := by
  simp [run]

/-- **A run** keeps the total right in every state iff each of its steps is allowed in
the state before it. -/
theorem right_iff (es : List Event) :
    (∀ pre, pre <+: es → (run pre).Right) ↔
      ∀ pre e, pre ++ [e] <+: es → (run pre).Allowed e := by
  constructor
  · intro h pre e hpre
    have hbefore := h pre ((List.prefix_append pre [e]).trans hpre)
    have hafter := h _ hpre
    rw [run_concat] at hafter
    exact (Response.apply_right_iff hbefore e).mp hafter
  · intro h pre hpre
    induction pre using List.reverseRecOn with
    | nil => rfl
    | append_singleton pre e ih =>
      have hbefore := ih ((List.prefix_append pre [e]).trans hpre)
      rw [run_concat]
      exact (Response.apply_right_iff hbefore e).mpr (h pre e hpre)

/-! ### The length announced -/

theorem sendPiece_nothing (sendChunk : ℕ) : sendPiece sendChunk 0 0 = (0, false) := by
  rw [sendPiece]
  simp

/-- A buffer that is not empty is written whole. -/
theorem sendPiece_all {sendChunk size sent : ℕ} (hchunk : 0 < sendChunk) (h : sent < size) :
    sendPiece sendChunk size sent = (size, true) := by
  induction hn : size - sent using Nat.strong_induction_on generalizing sent with
  | _ n ih =>
    rw [sendPiece, if_neg (by omega)]
    split_ifs with hmore
    · exact ih _ (by omega) hmore rfl
    · rw [show sent + min sendChunk (size - sent) = size by omega]

/-- What is written: the buffers before the first empty one. -/
theorem writeResponse_eq {sendChunk : ℕ} (hchunk : 0 < sendChunk) (sizes : List ℕ) :
    (writeResponse sendChunk sizes).1 = (sizes.takeWhile (· ≠ 0)).sum := by
  induction sizes with
  | nil => rfl
  | cons size rest ih =>
    rw [writeResponse]
    rcases Nat.eq_zero_or_pos size with rfl | hpos
    · rw [sendPiece_nothing]
      rfl
    · rw [sendPiece_all hchunk hpos, List.takeWhile_cons_of_pos (by simpa using hpos.ne'),
        List.sum_cons, ← ih]
      exact Nat.add_comm _ _

namespace Response

variable {r : Response} {conn : Connection}

theorem Right.filled (h : r.Right) (conn : Connection) : (r.filled conn).Right := by
  rw [Response.filled]
  split_ifs
  · exact h
  · exact h

theorem Right.size_eq (h : r.Right) : r.size = r.pieces.sum % 2 ^ 64 := by
  have hsum : r.pieces.sum = r.body.length + r.queued := by
    rw [pieces, List.sum_append, Nat.add_comm, queued]
    split_ifs with hbody
    · rw [hbody]
      rfl
    · simp
  rw [size, h, hsum]

/-- The length announced is the number of bytes sent behind the header. -/
def Announces (conn : Connection) (r : Response) : Prop :=
  ∀ n sent, sendResponse conn r = some (some n, sent) → sent = n

/-- The buffers before the first empty one are all there is to send, on `size_t`;
or no length is announced. -/
def Gapless (conn : Connection) (r : Response) : Prop :=
  conn.sendChunk = 0 ∨ hasField (r.filled conn).headers (ascii "Content-Length") ∨
    ((r.filled conn).pieces.takeWhile (· ≠ 0)).sum = (r.filled conn).pieces.sum % 2 ^ 64

/-- **The length announced**, for a right total. -/
theorem announces_iff (h : r.Right) : Announces conn r ↔ Gapless conn r := by
  have hsize := (h.filled conn).size_eq
  rw [Announces, Gapless, sendResponse]
  set r' := r.filled conn
  rcases Nat.eq_zero_or_pos conn.sendChunk with hzero | hpos
  · refine iff_of_true (fun n sent hsend => ?_) (Or.inl hzero)
    rw [hzero, sendPiece] at hsend
    simp at hsend
  · have hstage : 0 < (r'.stage conn).length := by
      rw [stage]
      simp
    rw [sendPiece_all hpos hstage, if_pos rfl, writeResponse_eq hpos, announced, ← hsize]
    by_cases hown : hasField r'.headers (ascii "Content-Length")
    · simp [hown]
    · simp only [hown, hpos.ne', false_or, Bool.false_eq_true, if_false]
      constructor
      · intro hsent
        exact hsent _ _ rfl
      · intro hsent n sent heq
        obtain ⟨hn, rfl⟩ := Prod.mk.inj (Option.some.inj heq)
        rw [← Option.some.inj hn]
        exact hsent

end Response

/-- **When a run keeps the total and the announced length right**, in every state a
handler may leave the response in. -/
theorem announcesSent_iff (conn : Connection) (es : List Event) :
    (∀ pre, pre <+: es → (run pre).Right ∧ (run pre).Announces conn) ↔
      (∀ pre e, pre ++ [e] <+: es → (run pre).Allowed e) ∧
        ∀ pre, pre <+: es → (run pre).Gapless conn := by
  rw [← right_iff, ← forall_and]
  refine forall_congr' fun pre => ?_
  rw [← imp_and]
  refine imp_congr_right fun _ => ?_
  exact and_congr_right fun hright => Response.announces_iff hright

/-- A handler that throws after it queued a chunk. -/
def failing : List Event := [.chunk ⟨false, 0, 5⟩, .httpError 404 (ascii "Not Found")]

/-- The connection announces 14 bytes and sends 9. -/
theorem not_announcesSent : ∃ conn, sendResponse conn (run failing) = some (some 14, 9) ∧
    ¬ ∀ pre, pre <+: failing → (run pre).Right ∧ (run pre).Announces conn := by
  refine ⟨⟨fun _ => ascii "HTTP/1.1 404 Not Found", [], false, 1024⟩, ?_, fun h => ?_⟩
  · rw [sendResponse, sendPiece_all (by decide) (by decide), if_pos rfl,
      writeResponse_eq (by decide)]
    decide
  · have hright : (run failing).chunksSize = (run failing).queued := (h failing (List.prefix_refl _)).1
    exact absurd hright (by decide)

end Suil.Http
