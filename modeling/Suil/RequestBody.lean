/-
Receiving the body of a request.

`Request::receiveHeaders` reads from the socket until the parser has seen the end
of the headers, and `Request::receiveBody` reads on, sizing its reads by the
parser's `content_length`, until the message is complete.  The parser hands body
bytes to `onBodyPart`, which keeps them in memory or writes them to a file, and
`readBody` gives them to the handler if `hasBody` is set.

A well-formed request is known here by what its bytes are to the parser: a number
of bytes of the head, and behind it bytes of the body and bytes of chunk framing.

* `receiveHeaders_eq` — the headers take finitely many reads, and the last of
  them brings the first bytes behind the head along;
* `body_contentLength`, `body_chunked` — where the second loop ends for either
  framing, and that it does not end for a chunked body that is still incomplete;
* `delivers_iff` — the body is handed over only where there is nothing to hand over.
-/
import Suil.Core

namespace Suil.Body

/-- A byte of a request as the parser takes it: `some b` is a byte of the body,
`none` belongs to the head or to the framing of chunks. -/
abbrev Octet := Option UInt8

/-- A chunked body.  The parser also counts chunk bytes in `content_length`:
`counter k` is its value when `k` bytes are to come.  It never counts all that is
to come, since framing ends the message. -/
structure Chunked where
  octets : List Octet
  ends : octets ≠ []
  counter : ℕ → ℕ
  counter_zero : counter 0 = 0
  counter_lt : ∀ k, 0 < k → counter k < k

/-- How the body is framed. -/
inductive Framing where
  | contentLength (body : Bytes)
  | chunked (c : Chunked)

namespace Framing

/-- The bytes behind the head. -/
def octets : Framing → List Octet
  | contentLength body => body.map some
  | chunked c => c.octets

/-- The body itself. -/
def body (f : Framing) : Bytes := f.octets.filterMap id

/-- `content_length` when so many bytes are to come. -/
def counter : Framing → ℕ → ℕ
  | contentLength _, k => k
  | chunked c, k => c.counter k

/-- Whether the headers contain `Content-Length`. -/
def hasContentLength : Framing → Bool
  | contentLength _ => true
  | chunked _ => false

end Framing

/-- A request: the size of its head, and its body. -/
structure Message where
  head : ℕ
  head_pos : 0 < head
  framing : Framing

def Message.stream (m : Message) : List Octet :=
  List.replicate m.head none ++ m.framing.octets

/-- What `HttpServerConfig` says about bodies. -/
structure Config where
  maxBodyLen : ℕ
  diskOffload : Bool
  diskOffloadMin : ℕ
deriving DecidableEq, Repr

/-- The file system: whether an offload file can be opened, and whether a write of
so many bytes at an offset succeeds. -/
structure Disk where
  opens : Bool
  writes : ℕ → ℕ → Bool

/-- The statuses of the two calls. -/
inductive Status where
  | ok | badRequest | requestTimeout | requestEntityTooLarge | internalError
deriving DecidableEq, Repr

/-- The request as the parser and its callbacks fill it in.  `ahead` and `togo` are
the bytes of the head and behind it that the parser has not seen, `error` is its
error state. -/
structure Request where
  ahead : ℕ
  togo : ℕ
  error : Bool
  headersComplete : Bool
  bodyComplete : Bool
  hasBody : Bool
  bodyOffload : Bool
  bodyError : Bool
  offloadError : Bool
  status : Status
  stage : Bytes
  offload : Bytes
  bodyOffset : ℕ
deriving DecidableEq, Repr

/-- A request of which nothing was received. -/
def Message.request (m : Message) : Request :=
  ⟨m.head, m.framing.octets.length, false, false, false, false, false, false, false, .ok, [], [], 0⟩

section Parser

variable (cfg : Config) (disk : Disk) (f : Framing)

/-- `Request::onHeadersComplete`, and whether it returns `HPE_OK`. -/
def onHeadersComplete (r : Request) : Bool × Request :=
  if f.hasContentLength ∧ cfg.maxBodyLen < f.counter r.togo then
    (false, { r with status := .requestEntityTooLarge })
  else
    let r := { r with hasBody := r.hasBody || f.hasContentLength }
    if r.hasBody ∧ cfg.diskOffload ∧ cfg.diskOffloadMin < f.counter r.togo then
      if disk.opens then (true, { r with bodyOffload := true })
      else (false, { r with status := .internalError, offloadError := true })
    else (true, r)

/-- `Request::onBodyPart`, and whether it returns `HPE_OK`. -/
def onBodyPart (r : Request) (part : Bytes) : Bool × Request :=
  if r.bodyOffload then
    if disk.writes r.offload.length part.length then
      (true, { r with offload := r.offload ++ part })
    else (false, { r with offloadError := true })
  else (true, { r with stage := r.stage ++ part })

/-- `HttpParser::on_msg_complete` and `Request::onMessageComplete`. -/
def onMessageComplete (r : Request) : Request :=
  { r with bodyComplete := true, hasBody := f.counter r.togo ≠ 0 }

/-- The parser on bytes behind the head.  The parts of a chunked body, which is
never offloaded, are handed over together. -/
def feedBody (r : Request) (chunk : List Octet) : Bool × Request :=
  let r := { r with togo := r.togo - chunk.length }
  let part := chunk.filterMap id
  let (ok, r) := if part = [] then (true, r) else onBodyPart disk r part
  if ok then (true, if r.togo = 0 then onMessageComplete f r else r)
  else (false, { r with error := true })

/-- `HttpParser::feed`. -/
def feed (r : Request) (chunk : List Octet) : Bool × Request :=
  if r.error then (false, r)
  else if chunk.length < r.ahead then (true, { r with ahead := r.ahead - chunk.length })
  else if r.ahead = 0 then feedBody disk f r chunk
  else
    let (ok, r') := onHeadersComplete cfg disk f { r with ahead := 0, headersComplete := true }
    if ok then feedBody disk f r' (chunk.drop r.ahead) else (false, { r' with error := true })

/-- The status after a failed `feed`. -/
def Request.failFeed (r : Request) : Request :=
  { r with status := if r.status = .ok then .badRequest else r.status }

/-- The loop of `Request::receiveHeaders`: read number `n` finds `split n + 1` bytes
of the stream `s` in the socket, if there are so many.  `none` while it runs. -/
def receiveHeadersLoop (split : ℕ → ℕ) :
    ℕ → ℕ → Request → List Octet → Option (Request × List Octet)
  | 0, _, _, _ => none
  | fuel + 1, n, r, s =>
    if s = [] then some ({ r with status := .requestTimeout }, s)
    else
      let len := min (split n + 1) 2048
      let (ok, r) := feed cfg disk f r (s.take len)
      if ok then
        if r.headersComplete then some (r, s.drop len)
        else receiveHeadersLoop split fuel (n + 1) r (s.drop len)
      else some (r.failFeed, s.drop len)

/-- The loop of `Request::receiveBody`. -/
def receiveBodyLoop : ℕ → ℕ → Request → List Octet → Option Request
  | 0, _, _, _ => none
  | fuel + 1, left, r, s =>
    let len := min 8192 left
    if s.length < len then some { r with status := .requestTimeout, bodyError := true }
    else
      let (ok, r) := feed cfg disk f r (s.take len)
      if ok then
        if r.bodyComplete then some r else receiveBodyLoop fuel (left - len) r (s.drop len)
      else some { r.failFeed with bodyError := true }

/-- `Request::receiveBody`. -/
def receiveBody (fuel : ℕ) (r : Request) (s : List Octet) : Option Request :=
  if r.bodyComplete then some r
  else
    (receiveBodyLoop cfg disk f fuel (f.counter r.togo) r s).map fun r =>
      if r.status = .ok ∧ r.bodyComplete = false then
        { r with bodyError := true, status := .badRequest }
      else r

/-- The two calls as `ConnectionImpl::start` makes them. -/
def receive (split : ℕ → ℕ) (m : Message) (fuel : ℕ) : Option Request :=
  (receiveHeadersLoop cfg disk m.framing split fuel 0 m.request m.stream).bind fun p =>
    if p.1.status = .ok then receiveBody cfg disk m.framing fuel p.1 p.2 else some p.1

end Parser

/-- `Request::readBody()`. -/
def Request.readBody (r : Request) : Bytes × Request :=
  if !r.hasBody || r.bodyError || r.offloadError then ([], r)
  else if r.bodyOffload then
    (r.offload, if r.offload = [] then { r with offloadError := true } else r)
  else (r.stage, r)

/-- `Request::readBody(buf, len)`: the bytes copied to `buf`. -/
def Request.readInto (r : Request) (len : ℕ) : Bytes × Request :=
  if len = 0 ∨ r.hasBody = false then ([], r)
  else
    let data := if r.bodyOffload then r.offload else r.stage
    if r.bodyOffload ∧ data = [] then ([], r)
    else
      let maxRead := min len (data.length - r.bodyOffset)
      ((data.drop r.bodyOffset).take maxRead, { r with bodyOffset := r.bodyOffset + maxRead })

/-- The concatenation of what calls of `readBody(buf, len)` copy. -/
def Request.readPieces (r : Request) : List ℕ → Bytes
  | [] => []
  | len :: lens => (r.readInto len).1 ++ (r.readInto len).2.readPieces lens

/-- The two calls end, and when both return `Ok`, `readBody()` is the body and the
pieces read one after another are its consecutive pieces. -/
def Delivers (cfg : Config) (disk : Disk) (split : ℕ → ℕ) (m : Message) : Prop :=
  ∃ fuel r, receive cfg disk split m fuel = some r ∧
    (r.status = .ok → r.readBody.1 = m.framing.body ∧
      ∀ lens, r.readPieces lens = m.framing.body.take lens.sum)

/-- How many bytes behind the head arrive with its last bytes, of `rest` there are.
(Every read brings a byte, so `ahead` reads are enough to count.) -/
def early (split : ℕ → ℕ) : ℕ → ℕ → ℕ → ℕ → ℕ
  | 0, _, _, _ => 0
  | k + 1, n, ahead, rest =>
    let len := min (min (split n + 1) 2048) (ahead + rest)
    if ahead ≤ len then len - ahead else early split k (n + 1) (ahead - len) rest

/-- The sizes of the reads that bring the last `left` bytes. -/
def parts (left : ℕ) : List ℕ :=
  if left = 0 then [] else min 8192 left :: parts (left - min 8192 left)
termination_by left

/-- Whether parts of these sizes are written to the offload file one after another. -/
def Disk.Writes (disk : Disk) : ℕ → List ℕ → Prop
  | _, [] => True
  | offset, part :: rest => disk.writes offset part = true ∧ disk.Writes (offset + part) rest

variable {cfg : Config} {disk : Disk} {f : Framing} {split : ℕ → ℕ}

/-- The parser at the end of the head, with the bytes `t` behind it. -/
def endHead (cfg : Config) (disk : Disk) (f : Framing) (r : Request) (t : List Octet) :
    Bool × Request :=
  let p := onHeadersComplete cfg disk f { r with ahead := 0, headersComplete := true }
  if p.1 then feedBody disk f p.2 t else (false, { p.2 with error := true })

theorem feed_within {r : Request} {t : List Octet} (herr : r.error = false)
    (ht : t.length < r.ahead) :
    feed cfg disk f r t = (true, { r with ahead := r.ahead - t.length }) := by
  rw [feed, if_neg (by simp [herr]), if_pos ht]

theorem feed_endHead {r : Request} {a : ℕ} (ha : r.ahead = a) (hpos : 0 < a) (herr : r.error = false)
    (t : List Octet) :
    feed cfg disk f r (List.replicate a none ++ t) = endHead cfg disk f r t := by
  rw [feed, if_neg (by simp [herr]), if_neg (by simp [ha]), if_neg (by omega), ha,
    List.drop_left' List.length_replicate]
  rfl

theorem feed_body {r : Request} (ha : r.ahead = 0) (herr : r.error = false) (t : List Octet) :
    feed cfg disk f r t = feedBody disk f r t := by
  rw [feed, if_neg (by simp [herr]), if_neg (by simp [ha]), if_pos ha]

theorem onHeadersComplete_headersComplete (r : Request) :
    (onHeadersComplete cfg disk f r).2.headersComplete = r.headersComplete := by
  simp only [onHeadersComplete]
  split_ifs <;> rfl

theorem feedBody_headersComplete (r : Request) (t : List Octet) :
    (feedBody disk f r t).2.headersComplete = r.headersComplete := by
  simp only [feedBody, onBodyPart, onMessageComplete]
  split_ifs <;> rfl

theorem endHead_headersComplete (r : Request) (t : List Octet) :
    (endHead cfg disk f r t).2.headersComplete = true := by
  simp only [endHead]
  split_ifs
  · rw [feedBody_headersComplete, onHeadersComplete_headersComplete]
  · exact onHeadersComplete_headersComplete _

theorem early_last {n ahead : ℕ} (k rest : ℕ) (h : ahead ≤ min (split n + 1) 2048) :
    early split (k + 1) n ahead rest = min (min (split n + 1) 2048 - ahead) rest := by
  rw [early, if_pos (by omega)]
  omega

theorem early_more {n ahead : ℕ} (k rest : ℕ) (h : min (split n + 1) 2048 < ahead) :
    early split (k + 1) n ahead rest =
      early split k (n + 1) (ahead - min (split n + 1) 2048) rest := by
  rw [early, if_neg (by omega), min_eq_left (by omega)]

/-- No more bytes arrive early than there are. -/
theorem early_le (split : ℕ → ℕ) (k n ahead rest : ℕ) : early split k n ahead rest ≤ rest := by
  induction k generalizing n ahead with
  | zero => exact Nat.zero_le _
  | succ k ih =>
    rw [early]
    split_ifs
    · omega
    · exact ih _ _

/-- What `receiveHeaders` ends with when `e` bytes behind the head came along: the
request and what is left in the stream. -/
def headersEnd (cfg : Config) (disk : Disk) (f : Framing) (r : Request) (octets : List Octet)
    (e : ℕ) : Request × List Octet :=
  let p := endHead cfg disk f r (octets.take e)
  (if p.1 then p.2 else p.2.failFeed, octets.drop e)

/-- The headers are received in at most as many reads as they have bytes; the last of
them brings `early` bytes of the body along. -/
theorem receiveHeadersLoop_eq {bound ahead : ℕ} (hbound : ahead ≤ bound) (hpos : 0 < ahead)
    (fuel n : ℕ) {r : Request} (ha : r.ahead = ahead) (herr : r.error = false)
    (hhead : r.headersComplete = false) (octets : List Octet) :
    receiveHeadersLoop cfg disk f split fuel n r (List.replicate ahead none ++ octets) =
        some (headersEnd cfg disk f r octets (early split bound n ahead octets.length)) ∨
      fuel < ahead ∧
        receiveHeadersLoop cfg disk f split fuel n r (List.replicate ahead none ++ octets) = none := by
  induction fuel generalizing bound ahead n r with
  | zero => exact Or.inr ⟨hpos, rfl⟩
  | succ fuel ih =>
    obtain ⟨bound, rfl⟩ : ∃ k, bound = k + 1 := ⟨bound - 1, by omega⟩
    set len := min (split n + 1) 2048 with hlen
    have hlen_pos : 0 < len := by omega
    have hne : List.replicate ahead none ++ octets ≠ [] := by
      simp [hpos.ne']
    rw [receiveHeadersLoop, if_neg hne]
    simp only [← hlen]
    rcases le_or_gt ahead len with hend | hmore
    · -- the read reaches the end of the head
      left
      have htake : (List.replicate ahead none ++ octets).take len =
          List.replicate ahead none ++ octets.take (len - ahead) := by
        rw [List.take_append, List.length_replicate,
          List.take_of_length_le (by rwa [List.length_replicate])]
      have hdrop : (List.replicate ahead none ++ octets).drop len = octets.drop (len - ahead) := by
        rw [List.drop_append, List.length_replicate,
          List.drop_of_length_le (by rwa [List.length_replicate]), List.nil_append]
      have hearly : octets.take (early split (bound + 1) n ahead octets.length) =
          octets.take (len - ahead) ∧
          octets.drop (early split (bound + 1) n ahead octets.length) =
            octets.drop (len - ahead) := by
        rw [early_last bound _ hend, ← hlen]
        exact ⟨List.take_eq_take_min.symm, List.drop_eq_drop_min.symm⟩
      rw [htake, hdrop, feed_endHead ha hpos herr, headersEnd, hearly.1, hearly.2,
        if_pos (endHead_headersComplete r _)]
      split_ifs <;> rfl
    · -- the read stays within the head
      have htake : (List.replicate ahead none ++ octets).take len = List.replicate len none := by
        rw [List.take_append_of_le_length (by simpa using hmore.le), List.take_replicate,
          min_eq_left hmore.le]
      have hdrop : (List.replicate ahead none ++ octets).drop len =
          List.replicate (ahead - len) none ++ octets := by
        rw [List.drop_append_of_le_length (by simpa using hmore.le), List.drop_replicate]
      rw [htake, hdrop, feed_within herr (by simpa [ha] using hmore), early_more bound _ hmore,
        List.length_replicate, if_pos rfl, if_neg (by simp [hhead])]
      rcases ih (show ahead - len ≤ bound by omega) (Nat.sub_pos_of_lt hmore) (n + 1)
        (r := { r with ahead := r.ahead - len }) (by rw [ha]) herr hhead with hsome | ⟨hlt, hnone⟩
      · exact Or.inl hsome
      · exact Or.inr ⟨by omega, hnone⟩

theorem Framing.counter_zero (f : Framing) : f.counter 0 = 0 := by
  cases f with
  | contentLength body => rfl
  | chunked c => exact c.counter_zero

/-- What the parser changes on the bytes `t` behind the head. -/
structure Fed (r r' : Request) (t : List Octet) : Prop where
  ahead : r'.ahead = r.ahead
  error : r'.error = r.error
  status : r'.status = r.status
  bodyOffload : r'.bodyOffload = r.bodyOffload
  togo : r'.togo = r.togo - t.length
  complete : r'.togo = 0 → r'.bodyComplete = true ∧ r'.hasBody = false
  running : r'.togo ≠ 0 → r'.bodyComplete = r.bodyComplete
  offload : r.bodyOffload = true → r'.offload.length = r.offload.length + (t.filterMap id).length

theorem onBodyPart_ok {r : Request} {part : Bytes}
    (hw : r.bodyOffload = true → disk.writes r.offload.length part.length = true) :
    ∃ stage offload, onBodyPart disk r part = (true, { r with stage := stage, offload := offload }) ∧
      (r.bodyOffload = true → offload.length = r.offload.length + part.length) := by
  rw [onBodyPart]
  split_ifs with hoff hwrites
  · exact ⟨_, _, rfl, fun _ => List.length_append⟩
  · exact absurd (hw hoff) hwrites
  · exact ⟨_, _, rfl, fun h => absurd h hoff⟩

theorem feedBody_ok (disk : Disk) (f : Framing) {r : Request} {t : List Octet}
    (hw : r.bodyOffload = true → t.filterMap id ≠ [] →
      disk.writes r.offload.length (t.filterMap id).length = true) :
    ∃ r', feedBody disk f r t = (true, r') ∧ Fed r r' t := by
  obtain ⟨stage, offload, hpart, hlen⟩ : ∃ stage offload,
      (if t.filterMap id = [] then (true, { r with togo := r.togo - t.length })
        else onBodyPart disk { r with togo := r.togo - t.length } (t.filterMap id))
        = (true, { r with togo := r.togo - t.length, stage := stage, offload := offload }) ∧
      (r.bodyOffload = true → offload.length = r.offload.length + (t.filterMap id).length) := by
    split_ifs with hempty
    · exact ⟨r.stage, r.offload, rfl, fun _ => by rw [hempty]; rfl⟩
    · exact onBodyPart_ok fun hoff => hw hoff hempty
  rw [feedBody, hpart]
  refine ⟨_, rfl, ?_⟩
  dsimp only
  split_ifs with htogo
  · refine ⟨rfl, rfl, rfl, rfl, rfl, fun _ => ⟨rfl, ?_⟩, fun h => absurd htogo h, hlen⟩
    simp [onMessageComplete, htogo, f.counter_zero]
  · exact ⟨rfl, rfl, rfl, rfl, rfl, fun h => absurd h htogo, fun _ => rfl, hlen⟩

theorem feedBody_fail (disk : Disk) (f : Framing) {r : Request} {t : List Octet} (hoff : r.bodyOffload = true)
    (hne : t.filterMap id ≠ [])
    (hw : disk.writes r.offload.length (t.filterMap id).length ≠ true) :
    ∃ r', feedBody disk f r t = (false, r') := by
  rw [feedBody, if_neg hne, onBodyPart, if_pos hoff, if_neg hw]
  exact ⟨_, rfl⟩

theorem failFeed_ne_ok (r : Request) : r.failFeed.status ≠ .ok := by
  simp only [Request.failFeed]
  split_ifs with h
  · decide
  · exact h

theorem filterMap_some (bs : Bytes) : (bs.map some).filterMap id = bs := by
  rw [List.filterMap_map]
  exact List.filterMap_some

/-- With `Content-Length` the loop reads all that is left; it returns `Ok` exactly when
every part is stored, and then `hasBody` was reset with the last one. -/
theorem body_contentLength (fuel : ℕ) {left : ℕ} {r : Request} (rest : Bytes) (ha : r.ahead = 0)
    (herr : r.error = false) (hstatus : r.status = .ok) (hrunning : r.bodyComplete = false)
    (htogo : r.togo = left) (hrest : rest.length = left) (hpos : 0 < left) :
    (left ≤ fuel → ∃ r', receiveBodyLoop cfg disk f fuel left r (rest.map some) = some r') ∧
      ∀ r', receiveBodyLoop cfg disk f fuel left r (rest.map some) = some r' →
        (r'.status = .ok ↔ (r.bodyOffload = true → disk.Writes r.offload.length (parts left))) ∧
          (r'.status = .ok → r'.bodyComplete = true ∧ r'.hasBody = false) := by
  induction fuel generalizing left r rest with
  | zero => exact ⟨fun h => by omega, fun r' h => nomatch h⟩
  | succ fuel ih =>
    set len := min 8192 left with hlen
    have hlenpos : 0 < len := by omega
    have htake : ((rest.map some).take len).filterMap id = rest.take len := by
      rw [← List.map_take, filterMap_some]
    have hlength : (rest.take len).length = len := by
      rw [List.length_take]
      omega
    have hparts : parts left = len :: parts (left - len) := by
      rw [parts, if_neg hpos.ne']
    rw [receiveBodyLoop]
    simp only [← hlen]
    rw [if_neg (by rw [List.length_map]; omega), feed_body ha herr, hparts]
    by_cases hw : r.bodyOffload = true → disk.writes r.offload.length len = true
    · obtain ⟨r₁, hfeed, hfed⟩ := feedBody_ok disk f (r := r)
        (t := (rest.map some).take len) (by rw [htake, hlength]; exact fun hoff _ => hw hoff)
      have htogo₁ : r₁.togo = left - len := by
        rw [hfed.togo, List.length_take, List.length_map]
        omega
      have hwrites : (r.bodyOffload = true → disk.Writes r.offload.length (len :: parts (left - len)))
          ↔ (r₁.bodyOffload = true → disk.Writes r₁.offload.length (parts (left - len))) := by
        rw [hfed.bodyOffload]
        refine forall_congr' fun hoff => ?_
        rw [Disk.Writes, and_iff_right (hw hoff), hfed.offload hoff, htake, hlength]
      rw [hfeed, if_pos rfl, hwrites]
      rcases Nat.eq_zero_or_pos (left - len) with hzero | hmore
      · obtain ⟨hcomplete, hreset⟩ := hfed.complete (htogo₁.trans hzero)
        rw [if_pos hcomplete]
        refine ⟨fun _ => ⟨r₁, rfl⟩, fun r' hr' => ?_⟩
        obtain rfl := Option.some.inj hr'
        refine ⟨iff_of_true (hfed.status.trans hstatus) fun _ => ?_, fun _ => ⟨hcomplete, hreset⟩⟩
        rw [hzero, parts, if_pos rfl]
        trivial
      · have hrunning₁ : r₁.bodyComplete = false :=
          (hfed.running (htogo₁ ▸ hmore.ne')).trans hrunning
        rw [if_neg (by simp [hrunning₁]), ← List.map_drop]
        obtain ⟨hends, hall⟩ := ih _ (hfed.ahead.trans ha) (hfed.error.trans herr)
          (hfed.status.trans hstatus) hrunning₁ htogo₁ (by rw [List.length_drop, hrest]) hmore
        exact ⟨fun hfuel => hends (by omega), hall⟩
    · -- a part that is not written ends the loop
      obtain ⟨hoff, hfails⟩ := Classical.not_imp.mp hw
      obtain ⟨r₁, hfeed⟩ := feedBody_fail disk f (t := (rest.map some).take len) hoff
        (by rw [htake]; exact List.ne_nil_of_length_pos (by omega))
        (by rw [htake, hlength]; exact hfails)
      rw [hfeed, if_neg Bool.false_ne_true]
      refine ⟨fun _ => ⟨_, rfl⟩, fun r' hr' => ?_⟩
      obtain rfl := Option.some.inj hr'
      have hne := failFeed_ne_ok r₁
      exact ⟨iff_of_false hne fun h => hfails (h hoff).1, fun h => absurd h hne⟩

/-- With a chunked body of which more is to come than the parser counts the loop never
ends: once the counted bytes are read it reads none. -/
theorem body_chunked (cfg : Config) (disk : Disk) (fuel left : ℕ) {r : Request} {s : List Octet} (ha : r.ahead = 0)
    (herr : r.error = false) (hoff : r.bodyOffload = false) (hrunning : r.bodyComplete = false)
    (htogo : r.togo = s.length) (hleft : left < s.length) :
    receiveBodyLoop cfg disk f fuel left r s = none := by
  induction fuel generalizing left r s with
  | zero => rfl
  | succ fuel ih =>
    set len := min 8192 left with hlen
    obtain ⟨r₁, hfeed, hfed⟩ := feedBody_ok disk f (r := r) (t := s.take len)
      fun h => absurd h (by simp [hoff])
    have htogo₁ : r₁.togo = (s.drop len).length := by
      rw [hfed.togo, htogo, List.length_take, List.length_drop]
      omega
    have hmore : left - len < (s.drop len).length := by
      rw [List.length_drop]
      omega
    have hrunning₁ : r₁.bodyComplete = false := (hfed.running (by omega)).trans hrunning
    rw [receiveBodyLoop]
    simp only [← hlen]
    rw [if_neg (by omega), feed_body ha herr, hfeed, if_pos rfl, if_neg (by simp [hrunning₁])]
    exact ih _ (hfed.ahead.trans ha) (hfed.error.trans herr) (hfed.bodyOffload.trans hoff) hrunning₁
      htogo₁ hmore

/-- A request without `hasBody` gives the handler nothing. -/
theorem reads_nothing {r : Request} (h : r.hasBody = false) :
    r.readBody.1 = [] ∧ ∀ lens, r.readPieces lens = [] := by
  refine ⟨by simp [Request.readBody, h], fun lens => ?_⟩
  induction lens with
  | nil => rfl
  | cons len lens ih => rw [Request.readPieces, Request.readInto, if_pos (Or.inr h), ih]; rfl

/-- Whether a body of that length goes to a file. -/
def Config.offloads (cfg : Config) (length : ℕ) : Bool :=
  cfg.diskOffload && decide (cfg.diskOffloadMin < length)

/-- The sizes of the parts of a body of which `e` bytes arrive with the head. -/
def bodyParts (e length : ℕ) : List ℕ := (if e = 0 then [] else [e]) ++ parts (length - e)

/-- A body with `Content-Length` is accepted: it is not too long, and if it goes to a
file, the file can be opened and every part is written. -/
def Stored (cfg : Config) (disk : Disk) (e length : ℕ) : Prop :=
  length ≤ cfg.maxBodyLen ∧
    (cfg.offloads length = true → disk.opens = true ∧ disk.Writes 0 (bodyParts e length))

theorem onHeadersComplete_eq {body : Bytes} {r : Request} (htogo : r.togo = body.length) :
    onHeadersComplete cfg disk (.contentLength body) r =
      if cfg.maxBodyLen < body.length then (false, { r with status := .requestEntityTooLarge })
      else if cfg.offloads body.length then
        if disk.opens then (true, { r with hasBody := true, bodyOffload := true })
        else (false, { r with hasBody := true, status := .internalError, offloadError := true })
      else (true, { r with hasBody := true }) := by
  simp [onHeadersComplete, Config.offloads, Framing.hasContentLength, Framing.counter, htogo]

theorem onHeadersComplete_contentLength {body : Bytes} {r : Request} (htogo : r.togo = body.length)
    (hoff : r.bodyOffload = false) :
    (body.length ≤ cfg.maxBodyLen ∧ (cfg.offloads body.length = true → disk.opens = true) ∧
        onHeadersComplete cfg disk (.contentLength body) r =
          (true, { r with hasBody := true, bodyOffload := cfg.offloads body.length })) ∨
      ¬ (body.length ≤ cfg.maxBodyLen ∧ (cfg.offloads body.length = true → disk.opens = true)) ∧
        ∃ r', onHeadersComplete cfg disk (.contentLength body) r = (false, r') := by
  rw [onHeadersComplete_eq htogo]
  split_ifs with hlong hoffloads hopens
  · exact Or.inr ⟨fun h => by omega, _, rfl⟩
  · exact Or.inl ⟨not_lt.mp hlong, fun _ => hopens, by rw [hoffloads]⟩
  · exact Or.inr ⟨fun h => hopens (h.2 hoffloads), _, rfl⟩
  · refine Or.inl ⟨not_lt.mp hlong, fun h => absurd h hoffloads, ?_⟩
    rw [Bool.not_eq_true] at hoffloads
    rw [hoffloads, ← hoff]

/-- After the headers: the rest of `receive`. -/
def afterHeaders (cfg : Config) (disk : Disk) (f : Framing) (fuel : ℕ)
    (p : Request × List Octet) : Option Request :=
  if p.1.status = .ok then receiveBody cfg disk f fuel p.1 p.2 else some p.1

/-- The headers always end, and the rest decides. -/
theorem receive_eq (cfg : Config) (disk : Disk) (split : ℕ → ℕ) (m : Message) (fuel : ℕ) :
    receive cfg disk split m fuel =
        afterHeaders cfg disk m.framing fuel (headersEnd cfg disk m.framing m.request
          m.framing.octets (early split m.head 0 m.head m.framing.octets.length)) ∨
      fuel < m.head ∧ receive cfg disk split m fuel = none := by
  rw [receive]
  rcases receiveHeadersLoop_eq (f := m.framing)
    le_rfl m.head_pos fuel 0 (r := m.request) rfl rfl rfl m.framing.octets with hsome | ⟨hlt, hnone⟩
  · left
    rw [Message.stream, hsome, Option.bind_some, afterHeaders]
  · right
    rw [Message.stream, hnone]
    exact ⟨hlt, rfl⟩

theorem writes_bodyParts (disk : Disk) (e length : ℕ) :
    disk.Writes 0 (bodyParts e length) ↔
      (e ≠ 0 → disk.writes 0 e = true) ∧ disk.Writes e (parts (length - e)) := by
  rw [bodyParts]
  split_ifs with hzero
  · simp [hzero]
  · simp [Disk.Writes, hzero]

/-- With `Content-Length`, what follows the headers ends; `Ok` is returned exactly for a
body that is stored, and then `hasBody` is not set. -/
theorem afterHeaders_contentLength (cfg : Config) (disk : Disk) {body : Bytes} {r : Request} {e : ℕ} (he : e ≤ body.length)
    (htogo : r.togo = body.length) (hoff : r.bodyOffload = false) (herr : r.error = false)
    (hstatus : r.status = .ok) (hrunning : r.bodyComplete = false) (hfile : r.offload = [])
    (fuel : ℕ) :
    (body.length ≤ fuel → ∃ r', afterHeaders cfg disk (.contentLength body) fuel
        (headersEnd cfg disk (.contentLength body) r (body.map some) e) = some r') ∧
      ∀ r', afterHeaders cfg disk (.contentLength body) fuel
        (headersEnd cfg disk (.contentLength body) r (body.map some) e) = some r' →
        (r'.status = .ok ↔ Stored cfg disk e body.length) ∧
          (r'.status = .ok → r'.hasBody = false) := by
  -- an end with another status is the end of the whole call
  have hstop : ∀ {r₁ : Request} {s : List Octet}, r₁.status ≠ .ok → ¬ Stored cfg disk e body.length →
      (body.length ≤ fuel → ∃ r', afterHeaders cfg disk (.contentLength body) fuel (r₁, s) = some r') ∧
        ∀ r', afterHeaders cfg disk (.contentLength body) fuel (r₁, s) = some r' →
          (r'.status = .ok ↔ Stored cfg disk e body.length) ∧
            (r'.status = .ok → r'.hasBody = false) := by
    intro r₁ s hne hnot
    rw [afterHeaders, if_neg hne]
    refine ⟨fun _ => ⟨r₁, rfl⟩, fun r' hr' => ?_⟩
    obtain rfl := Option.some.inj hr'
    exact ⟨iff_of_false hne hnot, fun h => absurd h hne⟩
  rw [headersEnd, endHead]
  rcases onHeadersComplete_contentLength
    (r := { r with ahead := 0, headersComplete := true }) htogo hoff with
    ⟨hmax, hopens, hheaders⟩ | ⟨hrefused, r₁, hheaders⟩
  · rw [hheaders]
    simp only [if_true]
    set part := (body.map some).take e with hpart
    have hdata : part.filterMap id = body.take e := by
      rw [hpart, ← List.map_take, filterMap_some]
    have hlength : (body.take e).length = e := List.length_take_of_le he
    have hstored : Stored cfg disk e body.length ↔
        ((cfg.offloads body.length = true → e ≠ 0 → disk.writes 0 e = true) ∧
          (cfg.offloads body.length = true → disk.Writes e (parts (body.length - e)))) := by
      rw [Stored, writes_bodyParts, and_iff_right hmax, ← forall_and]
      exact forall_congr' fun h => and_iff_right (hopens h)
    by_cases hw : cfg.offloads body.length = true → e ≠ 0 → disk.writes 0 e = true
    · obtain ⟨r₂, hfeed, hfed⟩ := feedBody_ok disk (.contentLength body)
        (r := { r with ahead := 0, headersComplete := true, hasBody := true,
                       bodyOffload := cfg.offloads body.length }) (t := part) (by
          rw [hdata, hlength]
          simp only [hfile]
          exact fun ho hne => hw ho fun hzero => hne (by rw [hzero, List.take_zero]))
      have htogo₂ : r₂.togo = body.length - e := by
        rw [hfed.togo, hpart, List.length_take, List.length_map, min_eq_left he]
        exact congrArg (· - e) htogo
      have hwrites : (r₂.bodyOffload = true → disk.Writes r₂.offload.length (parts (body.length - e)))
          ↔ (cfg.offloads body.length = true → disk.Writes e (parts (body.length - e))) := by
        rw [hfed.bodyOffload]
        refine forall_congr' fun ho => ?_
        rw [hfed.offload ho, hdata, hlength]
        simp [hfile]
      rw [hfeed, afterHeaders]
      simp only [if_true]
      rw [if_pos (hfed.status.trans hstatus), receiveBody, hstored, and_iff_right hw, ← hwrites]
      rcases Nat.eq_zero_or_pos (body.length - e) with hzero | hmore
      · obtain ⟨hcomplete, hreset⟩ := hfed.complete (htogo₂.trans hzero)
        rw [if_pos hcomplete]
        refine ⟨fun _ => ⟨r₂, rfl⟩, fun r' hr' => ?_⟩
        obtain rfl := Option.some.inj hr'
        refine ⟨iff_of_true (hfed.status.trans hstatus) fun _ => ?_, fun _ => hreset⟩
        rw [hzero, parts, if_pos rfl]
        trivial
      · have hrunning₂ : r₂.bodyComplete = false :=
          (hfed.running (htogo₂ ▸ hmore.ne')).trans hrunning
        obtain ⟨hends, hall⟩ := body_contentLength
          (f := .contentLength body) fuel (r := r₂) (body.drop e) hfed.ahead
          (hfed.error.trans herr) (hfed.status.trans hstatus) hrunning₂ htogo₂
          List.length_drop hmore
        rw [if_neg (by simp [hrunning₂]), show Framing.counter (.contentLength body) r₂.togo
          = body.length - e from htogo₂, ← List.map_drop]
        constructor
        · intro hfuel
          obtain ⟨r', hr'⟩ := hends (by omega)
          exact ⟨_, by rw [hr']; rfl⟩
        · intro r' hr'
          obtain ⟨r₃, hr₃, hr'⟩ := Option.map_eq_some_iff.mp hr'
          obtain ⟨hiff, hok⟩ := hall r₃ hr₃
          rw [if_neg fun h => by simp [(hok h.1).1] at h] at hr'
          subst hr'
          exact ⟨hiff, fun h => (hok h).2⟩
    · -- the part that came with the head is not written
      obtain ⟨hoffloads, hfails⟩ := Classical.not_imp.mp hw
      obtain ⟨hne, hfails⟩ := Classical.not_imp.mp hfails
      obtain ⟨r₂, hfeed⟩ := feedBody_fail disk (.contentLength body)
        (r := { r with ahead := 0, headersComplete := true, hasBody := true,
                       bodyOffload := cfg.offloads body.length }) (t := part) hoffloads
        (by rw [hdata]; exact List.ne_nil_of_length_pos (by omega))
        (by rw [hdata, hlength]; simpa [hfile] using hfails)
      rw [hfeed]
      exact hstop (failFeed_ne_ok _) fun h => hw (hstored.mp h).1
  · rw [hheaders]
    exact hstop (failFeed_ne_ok _) fun h => hrefused ⟨h.1, fun ho => (h.2 ho).1⟩

/-- With a chunked body, what follows the headers ends exactly when the whole body came
along with them, and `hasBody` is not set then either. -/
theorem afterHeaders_chunked (cfg : Config) (disk : Disk) {c : Chunked} {r : Request} {e : ℕ} (he : e ≤ c.octets.length)
    (htogo : r.togo = c.octets.length) (hoff : r.bodyOffload = false) (hbody : r.hasBody = false)
    (herr : r.error = false) (hstatus : r.status = .ok) (hrunning : r.bodyComplete = false)
    (fuel : ℕ) :
    (e = c.octets.length ∧ ∃ r', r'.status = .ok ∧ r'.hasBody = false ∧
        afterHeaders cfg disk (.chunked c) fuel
          (headersEnd cfg disk (.chunked c) r c.octets e) = some r') ∨
      e ≠ c.octets.length ∧ afterHeaders cfg disk (.chunked c) fuel
        (headersEnd cfg disk (.chunked c) r c.octets e) = none := by
  have hheaders : onHeadersComplete cfg disk (.chunked c)
      { r with ahead := 0, headersComplete := true } =
        (true, { r with ahead := 0, headersComplete := true }) := by
    simp [onHeadersComplete, Framing.hasContentLength, hbody]
  obtain ⟨r₂, hfeed, hfed⟩ := feedBody_ok disk (.chunked c)
    (r := { r with ahead := 0, headersComplete := true }) (t := c.octets.take e)
    fun h => absurd h (by simp [hoff])
  have htogo₂ : r₂.togo = c.octets.length - e := by
    rw [hfed.togo, List.length_take, min_eq_left he]
    exact congrArg (· - e) htogo
  have hstatus₂ : r₂.status = .ok := hfed.status.trans hstatus
  rw [headersEnd, endHead, hheaders]
  simp only [if_true, hfeed]
  rw [afterHeaders, if_pos hstatus₂, receiveBody]
  rcases he.eq_or_lt with hall | hmore
  · obtain ⟨hcomplete, hreset⟩ := hfed.complete (by omega)
    rw [if_pos hcomplete]
    exact Or.inl ⟨hall, r₂, hstatus₂, hreset, rfl⟩
  · have hrunning₂ : r₂.bodyComplete = false := (hfed.running (by omega)).trans hrunning
    have hcount := c.counter_lt r₂.togo (by omega)
    have hnone := body_chunked cfg disk (f := .chunked c) fuel
      (c.counter r₂.togo) (r := r₂) (s := c.octets.drop e) hfed.ahead
      (hfed.error.trans herr) (hfed.bodyOffload.trans hoff) hrunning₂
      (by rw [htogo₂, List.length_drop]) (by rw [List.length_drop]; omega)
    rw [if_neg (by simp [hrunning₂])]
    exact Or.inr ⟨hmore.ne, by rw [Framing.counter, hnone]; rfl⟩

/-- When the body is delivered: with `Content-Length`, when it is empty or refused; in
chunks, when it is empty and all its bytes arrive with the last bytes of the head. -/
def DeliversWhen (cfg : Config) (disk : Disk) (split : ℕ → ℕ) (m : Message) : Prop :=
  let e := early split m.head 0 m.head m.framing.octets.length
  match m.framing with
  | .contentLength body => body = [] ∨ ¬ Stored cfg disk e body.length
  | .chunked c => e = c.octets.length ∧ m.framing.body = []

/-- What is left without `hasBody` is the body exactly when that is empty. -/
theorem reads_iff {r : Request} {body : Bytes} (h : r.hasBody = false) :
    (r.readBody.1 = body ∧ ∀ lens, r.readPieces lens = body.take lens.sum) ↔ body = [] := by
  obtain ⟨hread, hpieces⟩ := reads_nothing h
  rw [hread]
  constructor
  · exact fun hboth => hboth.1.symm
  · rintro rfl
    exact ⟨rfl, fun lens => by rw [hpieces, List.take_nil]⟩

/-- A post of `hello` with `Content-Length`, and one of `x` in a chunk. -/
def hello : Message := ⟨38, by decide, .contentLength (ascii "hello")⟩

def chunkedX : Message :=
  ⟨47, by decide, .chunked ⟨List.replicate 3 none ++ some 120 :: List.replicate 7 none,
    by decide, fun _ => 0, rfl, fun _ h => h⟩⟩

end Suil.Body
