/-
Feeding a request to the HTTP parser in pieces.

What is read of a connection is fed call by call.  A url, a header name, a value or a
part of the body that goes on in the next call is told in spans, and all spans go to
one staging buffer.  The completion of a name is not told for `Connection` and, in a
response, for `Content-Length`; so the buffer is compared with these after every span,
also in the middle of a name.  Behind a message that asks for another protocol the
rest of a call is left, but not the next call.

* `special_ends` — no such name is the start of another;
* `feeds_atOnce` — calls that are cut elsewhere are as one;
* `feeds_agree` — the same with the cuts that change a request.
-/
import Suil.ClientRequest

namespace Suil.HttpFeed

open ClientRequest (sameKey emplace)

inductive ParserType where
  | request
  | response
deriving DecidableEq

/-- What `llhttp` tells; of complete headers, with the length of the body. -/
inductive Callback where
  | messageBegin
  | url (at_ : Bytes)
  | urlComplete
  | status (at_ : Bytes)
  | statusComplete
  | headerField (at_ : Bytes)
  | headerFieldComplete
  | headerValue (at_ : Bytes)
  | headerValueComplete
  | headersComplete (contentLength : ℕ)
  | body (at_ : Bytes)
  | messageComplete
  | chunkHeader
  | chunkComplete
deriving DecidableEq

/-- What a call of `llhttp_execute` tells, and whether it stops behind a message that asks for
another protocol. -/
structure Call where
  told : List Callback
  upgrade : Bool
deriving DecidableEq

inductive Errno where
  | ok
  | pausedUpgrade
  | callback
deriving DecidableEq

/-- The parser of a request; `failed` is the error of a callback, which stays. -/
structure Parser where
  stage : Bytes
  follow : Bytes
  headers : List (Bytes × Bytes)
  headersComplete : Bool
  bodyComplete : Bool
  url : Bytes
  query : Bytes
  bodyOffload : Bool
  offloadError : Bool
  offload : Bytes
  failed : Bool
deriving DecidableEq

def new : Parser := ⟨[], [], [], false, false, [], [], false, false, [], false⟩

/-! ### Complete headers -/

/-- What `onHeadersComplete` sets, and whether it is no error. -/
structure Answer where
  bodyOffload : Bool
  offloadError : Bool
  ok : Bool

/-- A parser by its type and its `onHeadersComplete`, of the length and the headers. -/
structure Setup where
  type : ParserType
  onHeadersComplete : ℕ → List (Bytes × Bytes) → Answer

structure HttpServerConfig where
  maxBodyLen : ℕ
  diskOffload : Bool
  diskOffloadMin : ℕ

/-- `Request::onHeadersComplete`; `opens` tells of the file for the body. -/
def Request.onHeadersComplete (config : HttpServerConfig) (opens : Bool) (contentLength : ℕ)
    (headers : List (Bytes × Bytes)) : Answer :=
  let hasBody := headers.any fun h => sameKey (ascii "Content-Length") h.1
  if hasBody ∧ config.maxBodyLen < contentLength then ⟨false, false, false⟩
  else if hasBody ∧ config.diskOffload ∧ config.diskOffloadMin < contentLength then
    if opens then ⟨true, false, true⟩ else ⟨false, true, false⟩
  else ⟨false, false, true⟩

def request (config : HttpServerConfig) (opens : Bool) : Setup :=
  ⟨.request, Request.onHeadersComplete config opens⟩

/-- A response whose body has no writer. -/
def response : Setup := ⟨.response, fun _ _ => ⟨false, false, true⟩⟩

/-! ### The callbacks -/

/-- `compare(name, true) == 0`. -/
def sameName (s name : Bytes) : Bool := name.length = s.length && strncasecmpEq s.length s name

/-- The names whose completion is not told. -/
def special (type : ParserType) (s : Bytes) : Bool :=
  sameName s (ascii "Connection") || (type = .response && sameName s (ascii "Content-Length"))

namespace Parser

/-- `_stage.append(at, len)`. -/
def append (p : Parser) (at_ : Bytes) : Parser := { p with stage := p.stage ++ at_ }

/-- `clear(true)`, which leaves the stage. -/
def clear (p : Parser) : Parser :=
  { p with
    follow := []
    headersComplete := false
    bodyComplete := false
    headers := []
    offload := []
    url := []
    query := []
    bodyOffload := false
    offloadError := false }

/-- `on_url_complete`: what is staged is released to `Request::onUrl`. -/
def onUrlComplete (p : Parser) : Parser :=
  let url := p.stage
  let p := { p with stage := [] }
  match url.idxOf? 63 with
  | some pos =>
    { p with
      query := substr url pos 0
      url := substr url 0 pos }
  | none => { p with url := url }

/-- `on_status_complete`; the status is not kept. -/
def onStatusComplete (p : Parser) : Parser := { p with stage := [] }

/-- `_follow = String{_stage}`. -/
def take (p : Parser) : Parser :=
  { p with
    follow := p.stage
    stage := [] }

/-- `on_header_field`. -/
def onHeaderField (type : ParserType) (p : Parser) (at_ : Bytes) : Parser :=
  let p := p.append at_
  let p := if sameName p.stage (ascii "Connection") then p.take else p
  if type = .response ∧ sameName p.stage (ascii "Content-Length") then p.take else p

/-- `on_header_value_complete`. -/
def onHeaderValueComplete (p : Parser) : Parser :=
  { p with
    headers := emplace p.headers p.follow p.stage
    follow := []
    stage := [] }

/-- `on_headers_complete`. -/
def onHeadersComplete (cfg : Setup) (p : Parser) (contentLength : ℕ) : Parser :=
  let p :=
    if p.follow ≠ [] then
      { p with
        headers := emplace p.headers p.follow p.stage
        stage := [] }
    else p
  let answer := cfg.onHeadersComplete contentLength p.headers
  { p with
    headersComplete := true
    bodyOffload := p.bodyOffload || answer.bodyOffload
    offloadError := p.offloadError || answer.offloadError
    failed := !answer.ok }

/-- `onBodyPart`; a file takes all that is written. -/
def onBodyPart (p : Parser) (part : Bytes) : Parser :=
  if p.bodyOffload then { p with offload := p.offload ++ part } else p.append part

def on (cfg : Setup) (p : Parser) (c : Callback) : Parser :=
  if p.failed then p
  else
    match c with
    | .messageBegin => p.clear
    | .url at_ => p.append at_
    | .urlComplete => p.onUrlComplete
    | .status at_ => p.append at_
    | .statusComplete => p.onStatusComplete
    | .headerField at_ => p.onHeaderField cfg.type at_
    | .headerFieldComplete => p.take
    | .headerValue at_ => p.append at_
    | .headerValueComplete => p.onHeaderValueComplete
    | .headersComplete contentLength => p.onHeadersComplete cfg contentLength
    | .body at_ => p.onBodyPart at_
    | .messageComplete => { p with bodyComplete := true }
    | .chunkHeader => p
    | .chunkComplete => p

/-- `llhttp_execute`: nothing is told behind an error. -/
def execute (cfg : Setup) (p : Parser) (c : Call) : Parser × Errno :=
  let p := c.told.foldl (on cfg) p
  (p, if p.failed then .callback else if c.upgrade then .pausedUpgrade else .ok)

/-- `feed`; the pause is taken back at once. -/
def feed (cfg : Setup) (p : Parser) (c : Call) : Parser × Bool :=
  let (p, err) := p.execute cfg c
  if err ≠ .ok then
    if err = .pausedUpgrade then (p, true) else (p, false)
  else (p, true)

def feeds (cfg : Setup) (p : Parser) (calls : List Call) : Parser :=
  calls.foldl (fun p c => (p.feed cfg c).1) p

/-- `Request::body`. -/
def body (p : Parser) : Bytes :=
  if p.offloadError then [] else if p.bodyOffload then p.offload else p.stage

end Parser

/-! ### One call and many -/

/-- Two spans of one text. -/
def Callback.join : Callback → Callback → Option Callback
  | url a, url b => some (url (a ++ b))
  | status a, status b => some (status (a ++ b))
  | headerField a, headerField b => some (headerField (a ++ b))
  | headerValue a, headerValue b => some (headerValue (a ++ b))
  | body a, body b => some (body (a ++ b))
  | _, _ => none

/-- What is told without the cut between two calls. -/
def joinTold : List Callback → List Callback → List Callback
  | [], ys => ys
  | [x], y :: ys =>
    match x.join y with
    | some z => z :: ys
    | none => x :: y :: ys
  | x :: xs, ys => x :: joinTold xs ys

/-- The call that is fed all at once: what comes behind another protocol is left. -/
def atOnce : List Call → Call
  | [] => ⟨[], false⟩
  | c :: cs =>
    if c.upgrade then c else ⟨joinTold c.told (atOnce cs).told, (atOnce cs).upgrade⟩

/-- The cut is not behind a special name that goes on, as it is staged. -/
def cutApart (cfg : Setup) : Parser → List Callback → List Callback → Bool
  | p, [.headerField a], .headerField b :: _ => b = [] || !special cfg.type (p.stage ++ a)
  | p, x :: xs, ys => cutApart cfg (p.on cfg x) xs ys
  | _, [], _ => true

/-- No cut is behind a special name that goes on, and nothing is told in the calls behind one that
stops at another protocol. -/
def cutsApart (cfg : Setup) : Parser → List Call → Bool
  | _, [] => true
  | p, c :: cs =>
    if c.upgrade then cs.all fun d => d.told = []
    else cutApart cfg p c.told (atOnce cs).told && cutsApart cfg (p.feed cfg c).1 cs

def CutsApart (cfg : Setup) (p : Parser) (calls : List Call) : Prop := cutsApart cfg p calls = true

/-- The parser ends with the same request. -/
def FeedsAgree (cfg : Setup) (p : Parser) (calls : List Call) : Prop :=
  (p.feeds cfg calls).url = (p.feed cfg (atOnce calls)).1.url ∧
    (p.feeds cfg calls).headers = (p.feed cfg (atOnce calls)).1.headers ∧
    (p.feeds cfg calls).body = (p.feed cfg (atOnce calls)).1.body

/-- The calls that a name is cut into, and one for the rest. -/
def nameCalls (spans : List Bytes) (rest : List Callback) : List Call :=
  spans.map (fun a => ⟨[.headerField a], false⟩) ++ [⟨rest, false⟩]

/-- What is told of a header behind its name. -/
def behindName (type : ParserType) (name value : Bytes) : List Callback :=
  (if special type name then [] else [.headerFieldComplete]) ++
    [.headerValue value, .headerValueComplete]

/-- What is told of a header whose name is cut into spans. -/
def header (type : ParserType) (spans : List Bytes) (value : Bytes) : List Call :=
  nameCalls spans (behindName type spans.flatten value)

/-- Wherever a header with this name comes, and with whatever value. -/
def InHeaders (type : ParserType) (spans : List Bytes)
    (holds : Setup → Parser → List Call → Prop) : Prop :=
  ∀ cfg p value, cfg.type = type → p.stage = [] → p.failed = false →
    holds cfg p (header type spans value)

/-- Whatever message asks for another protocol before these calls. -/
def BehindUpgrade (later : List Call) (holds : Setup → Parser → List Call → Prop) : Prop :=
  ∀ cfg p c, c.upgrade = true → holds cfg p (c :: later)

/-- What is told first is that a message begins. -/
def Begins (calls : List Call) : Prop :=
  ∀ x ∈ (calls.flatMap Call.told).head?, x = .messageBegin

variable {type : ParserType} {cfg : Setup} {p : Parser} {a b stage : Bytes} {l : List Bytes}
variable {x y z : Callback} {xs ys : List Callback} {calls : List Call}

section Names

theorem sameName_iff {name : Bytes} (h0 : (0 : UInt8) ∉ name.map lower) (s : Bytes) :
    sameName s name = true ↔ s.map lower = name.map lower := by
  have hname : (name.map lower).length = name.length := List.length_map _
  have hs : (s.map lower).length = s.length := List.length_map _
  simp only [sameName, Bool.and_eq_true, decide_eq_true_eq, strncasecmpEq]
  constructor
  · rintro ⟨hlen, heq⟩
    -- `strncasecmp` runs over the whole name, as that has no zero byte
    rw [← hlen, ← hname] at heq
    have hpre := (strncmpEq_iff (.inl h0) (by omega)).mp heq
    exact (hpre.eq_of_length (by omega)).symm
  · intro heq
    have hlen := congrArg List.length heq
    refine ⟨by omega, ?_⟩
    rw [show s.length = (name.map lower).length by omega, heq]
    exact (strncmpEq_iff (.inl h0) le_rfl).mpr List.prefix_rfl

/-- The special names have no zeros, are not empty, and none is the start of the other. -/
theorem names_apart : (0 : UInt8) ∉ (ascii "Connection").map lower ∧
    (0 : UInt8) ∉ (ascii "Content-Length").map lower ∧
    sameName [] (ascii "Connection") = false ∧ sameName [] (ascii "Content-Length") = false ∧
    (¬(ascii "Connection").map lower <+: (ascii "Content-Length").map lower) ∧
    ¬(ascii "Content-Length").map lower <+: (ascii "Connection").map lower := by
  decide +kernel

theorem special_iff (s : Bytes) : special type s = true ↔
    s.map lower = (ascii "Connection").map lower ∨
      type = .response ∧ s.map lower = (ascii "Content-Length").map lower := by
  rw [special, Bool.or_eq_true, Bool.and_eq_true, decide_eq_true_eq,
    sameName_iff names_apart.1, sameName_iff names_apart.2.1]

theorem special_nil (type : ParserType) : special type [] = false := by
  obtain ⟨-, -, hconn, hlength, -⟩ := names_apart
  rw [special, hconn, hlength, Bool.and_false, Bool.or_false]

/-- **No special name is the start of another.** -/
theorem special_ends (ha : special type a = true) (hb : special type (a ++ b) = true) : b = [] := by
  have hpre : a.map lower <+: (a ++ b).map lower := by
    rw [List.map_append]
    exact List.prefix_append _ _
  -- of one length: nothing is behind the first one
  have hlength : (a ++ b).length = a.length → b = [] := by
    rw [List.length_append]
    exact fun h => List.length_eq_zero_iff.mp (by omega)
  obtain ⟨-, -, -, -, hapart, hapart'⟩ := names_apart
  rcases (special_iff a).mp ha with ha | ⟨-, ha⟩
  · rcases (special_iff _).mp hb with hb | ⟨-, hb⟩
    · exact hlength (by simpa using congrArg List.length (hb.trans ha.symm))
    · exact absurd (hb ▸ ha ▸ hpre) hapart
  · rcases (special_iff _).mp hb with hb | ⟨-, hb⟩
    · exact absurd (hb ▸ ha ▸ hpre) hapart'
    · exact hlength (by simpa using congrArg List.length (hb.trans ha.symm))

end Names

namespace Parser

theorem append_append (p : Parser) (a b : Bytes) : (p.append a).append b = p.append (a ++ b) := by
  simp only [append, List.append_assoc]

theorem onBodyPart_append (p : Parser) (a b : Bytes) :
    (p.onBodyPart a).onBodyPart b = p.onBodyPart (a ++ b) := by
  by_cases hoff : p.bodyOffload = true
  · simp [onBodyPart, hoff]
  · simp [onBodyPart, hoff, append]

/-- A special name is released, anything else is staged. -/
theorem onHeaderField_eq (type : ParserType) (p : Parser) (a : Bytes) : p.onHeaderField type a =
    if special type (p.stage ++ a) then (p.append a).take else p.append a := by
  obtain ⟨-, -, -, hempty, -⟩ := names_apart
  rw [onHeaderField, special, show (p.append a).stage = p.stage ++ a from rfl]
  -- when the first name is released, the second comparison is of an empty buffer
  rcases hconn : sameName (p.stage ++ a) (ascii "Connection") with _ | _
  · rw [if_neg Bool.false_ne_true, Bool.false_or, show (p.append a).stage = p.stage ++ a from rfl]
    simp only [Bool.and_eq_true, decide_eq_true_eq]
  · rw [if_pos rfl, show (p.append a).take.stage = [] from rfl, hempty, if_neg (by simp)]
    rfl

theorem onHeaderField_append (h : special type (p.stage ++ a) = false) :
    p.onHeaderField type a = p.append a := by
  rw [onHeaderField_eq, h, if_neg Bool.false_ne_true]

theorem onHeaderField_take (h : special type (p.stage ++ a) = true) :
    p.onHeaderField type a = (p.append a).take := by
  rw [onHeaderField_eq, if_pos h]

/-- What is staged after a span is no special name. -/
theorem special_onHeaderField (type : ParserType) (p : Parser) (a : Bytes) :
    special type (p.onHeaderField type a).stage = false := by
  rcases h : special type (p.stage ++ a) with _ | _
  · rw [onHeaderField_append h]
    exact h
  · rw [onHeaderField_take h]
    exact special_nil type

/-- **Spans of a name** that are cut elsewhere are as one. -/
theorem onHeaderField_cut (h : b = [] ∨ special type (p.stage ++ a) = false) :
    (p.onHeaderField type a).onHeaderField type b = p.onHeaderField type (a ++ b) := by
  rcases h with rfl | h
  · -- what the first span has left is not special, so no byte more does nothing
    have hempty := special_onHeaderField type p a
    rw [List.append_nil, onHeaderField_append (by rwa [List.append_nil]), append, List.append_nil]
  · rw [onHeaderField_append h, onHeaderField_eq, onHeaderField_eq, append_append]
    rw [show (p.append a).stage = p.stage ++ a from rfl, List.append_assoc]

theorem failed_onHeaderField (type : ParserType) (p : Parser) (a : Bytes) :
    (p.onHeaderField type a).failed = p.failed := by
  rw [onHeaderField_eq]
  split_ifs <;> rfl

theorem failed_onBodyPart (p : Parser) (a : Bytes) : (p.onBodyPart a).failed = p.failed := by
  rw [onBodyPart]
  split_ifs <;> rfl

theorem on_failed (h : p.failed = true) (x : Callback) : p.on cfg x = p := by
  rw [on.eq_def, if_pos h]

/-- One span or two. -/
theorem on_join (hjoin : x.join y = some z) (h : cutApart cfg p [x] (y :: ys) = true) :
    (p.on cfg x).on cfg y = p.on cfg z := by
  by_cases hfail : p.failed = true
  · rw [on_failed hfail, on_failed hfail, on_failed hfail]
  -- only spans of one text are joined
  have happend : ∀ a, (p.append a).failed = p.failed := fun a => rfl
  cases x <;> cases y <;> simp only [Callback.join, Option.some.injEq, reduceCtorEq] at hjoin <;>
    subst hjoin
  case url.url a b => simp only [on, happend, if_neg hfail, append_append]
  case status.status a b => simp only [on, happend, if_neg hfail, append_append]
  case headerValue.headerValue a b => simp only [on, happend, if_neg hfail, append_append]
  case body.body a b => simp only [on, failed_onBodyPart, if_neg hfail, onBodyPart_append]
  case headerField.headerField a b =>
    simp only [on, failed_onHeaderField, if_neg hfail]
    rw [cutApart, Bool.or_eq_true, decide_eq_true_eq, Bool.not_eq_true'] at h
    exact onHeaderField_cut h

theorem foldl_joinTold (h : cutApart cfg p xs ys = true) :
    (joinTold xs ys).foldl (on cfg) p = ys.foldl (on cfg) (xs.foldl (on cfg) p) := by
  fun_induction joinTold xs ys generalizing p with
  | case1 ys => rfl
  | case2 x y ys z hjoin =>
    rw [List.foldl_cons, List.foldl_cons, List.foldl_cons, List.foldl_nil, on_join hjoin h]
  | case3 x y ys hjoin => rfl
  | case4 x xs ys hother ih =>
    -- the cut is further on
    rw [List.foldl_cons, List.foldl_cons]
    apply ih
    rw [cutApart] at h
    · exact h
    · intro a b rest hys hx
      exact hother _ rest hys

/-- A call runs what is told, whatever it returns. -/
theorem feed_fst (cfg : Setup) (p : Parser) (c : Call) :
    (p.feed cfg c).1 = c.told.foldl (on cfg) p := by
  show (if (p.execute cfg c).2 ≠ .ok then
      if (p.execute cfg c).2 = .pausedUpgrade then ((p.execute cfg c).1, true)
      else ((p.execute cfg c).1, false)
    else ((p.execute cfg c).1, true)).1 = (p.execute cfg c).1
  split_ifs <;> rfl

theorem feeds_cons (cfg : Setup) (p : Parser) (c : Call) (calls : List Call) :
    p.feeds cfg (c :: calls) = (c.told.foldl (on cfg) p).feeds cfg calls := by
  rw [← feed_fst]
  rfl

theorem feeds_silent (h : ∀ c ∈ calls, c.told = []) : p.feeds cfg calls = p := by
  induction calls with
  | nil => rfl
  | cons c calls ih =>
    rw [feeds_cons, h c List.mem_cons_self, List.foldl_nil]
    exact ih fun d hd => h d (List.mem_cons_of_mem _ hd)

/-- **Calls that are cut elsewhere are as one.** -/
theorem feeds_atOnce (h : CutsApart cfg p calls) :
    p.feeds cfg calls = (p.feed cfg (atOnce calls)).1 := by
  induction calls generalizing p with
  | nil => rw [feed_fst]; rfl
  | cons c calls ih =>
    rw [CutsApart, cutsApart] at h
    by_cases hupgrade : c.upgrade = true
    · -- what is left of the call is left of the text
      rw [if_pos hupgrade] at h
      rw [atOnce, if_pos hupgrade, feeds_cons, feed_fst]
      exact feeds_silent fun d hd => of_decide_eq_true (List.all_eq_true.mp h d hd)
    · rw [if_neg hupgrade, Bool.and_eq_true] at h
      rw [feeds_cons, ← feed_fst, ih h.2, atOnce, if_neg hupgrade, feed_fst, feed_fst, feed_fst]
      exact (foldl_joinTold h.1).symm

end Parser

section Header

/-- No span ends a special name that goes on. -/
def spansApart (type : ParserType) : Bytes → List Bytes → Bool
  | _, [] => true
  | stage, a :: l =>
    (l.flatten = [] || !special type (stage ++ a)) && spansApart type (stage ++ a) l

variable {rest : List Callback}

theorem spansApart_empty (hl : l.flatten = []) : spansApart type stage l = true := by
  induction l generalizing stage with
  | nil => rfl
  | cons a l ih =>
    rw [List.flatten_cons, List.append_eq_nil_iff] at hl
    rw [spansApart, ih hl.2, hl.2]
    rfl

/-- A name that is cut behind a special one is not special. -/
theorem special_spans (h : spansApart type stage l = false) :
    special type (stage ++ l.flatten) = false := by
  induction l generalizing stage with
  | nil => cases h
  | cons a l ih =>
    rw [spansApart, Bool.and_eq_false_iff] at h
    rw [List.flatten_cons, ← List.append_assoc]
    rcases h with hcut | hl
    · -- two special names, one the start of the other
      rw [Bool.or_eq_false_iff, decide_eq_false_iff_not, Bool.not_eq_false'] at hcut
      by_contra hwhole
      exact hcut.1 (special_ends hcut.2 (by simpa using hwhole))
    · exact ih hl

theorem stage_onHeaderField_le (type : ParserType) (p : Parser) (a : Bytes) :
    (p.onHeaderField type a).stage.length ≤ p.stage.length + a.length := by
  rw [Parser.onHeaderField_eq]
  split_ifs
  · exact Nat.zero_le _
  · exact (List.length_append).le

theorem stage_spans_le (type : ParserType) (p : Parser) (l : List Bytes) :
    (l.foldl (Parser.onHeaderField type) p).stage.length ≤
      p.stage.length + l.flatten.length := by
  induction l generalizing p with
  | nil => exact le_rfl
  | cons a l ih =>
    have hone := stage_onHeaderField_le type p a
    have hrest := ih (p.onHeaderField type a)
    rw [List.foldl_cons, List.flatten_cons, List.length_append]
    omega

/-- **A cut behind a special name** takes it from the stage. -/
theorem stage_spans_lt (h : spansApart type p.stage l = false) :
    (l.foldl (Parser.onHeaderField type) p).stage.length <
      p.stage.length + l.flatten.length := by
  induction l generalizing p with
  | nil => cases h
  | cons a l ih =>
    rw [List.foldl_cons, List.flatten_cons, List.length_append]
    rcases hspecial : special type (p.stage ++ a) with _ | _
    · -- the span stays staged, and the cut is further on
      rw [spansApart, hspecial, Bool.not_false, Bool.or_true, Bool.true_and] at h
      rw [Parser.onHeaderField_append hspecial]
      have hrest := ih (p := p.append a) h
      rw [show (p.append a).stage = p.stage ++ a from rfl, List.length_append] at hrest
      omega
    · -- what was staged is gone, and it was not empty
      have hne : p.stage ++ a ≠ [] := by
        intro hnil
        rw [hnil, special_nil] at hspecial
        cases hspecial
      have hpos := List.length_pos_of_ne_nil hne
      have hrest := stage_spans_le type (p.append a).take l
      rw [Parser.onHeaderField_take hspecial]
      rw [show (p.append a).take.stage = [] from rfl, List.length_nil] at hrest
      rw [List.length_append] at hpos
      omega

theorem headers_spans (type : ParserType) (p : Parser) (l : List Bytes) :
    (l.foldl (Parser.onHeaderField type) p).headers = p.headers ∧
      (l.foldl (Parser.onHeaderField type) p).failed = p.failed := by
  induction l generalizing p with
  | nil => exact ⟨rfl, rfl⟩
  | cons a l ih =>
    have hheaders : (p.onHeaderField type a).headers = p.headers := by
      rw [Parser.onHeaderField_eq]
      split_ifs <;> rfl
    obtain ⟨h1, h2⟩ := ih (p.onHeaderField type a)
    exact ⟨h1.trans hheaders, h2.trans (Parser.failed_onHeaderField _ _ _)⟩

theorem on_headerField (hfail : p.failed = false) (a : Bytes) :
    p.on cfg (.headerField a) = p.onHeaderField cfg.type a := by
  rw [Parser.on.eq_def, if_neg (by simp [hfail])]

/-- A name in spans, then the rest of its header. -/
theorem feeds_nameCalls (hfail : p.failed = false) (l : List Bytes) (rest : List Callback) :
    p.feeds cfg (nameCalls l rest) =
      rest.foldl (Parser.on cfg) (l.foldl (Parser.onHeaderField cfg.type) p) := by
  induction l generalizing p with
  | nil =>
    show p.feeds cfg [⟨rest, false⟩] = _
    rw [Parser.feeds_cons]
    rfl
  | cons a l ih =>
    show p.feeds cfg (⟨[.headerField a], false⟩ :: nameCalls l rest) = _
    rw [Parser.feeds_cons, List.foldl_cons, List.foldl_nil, on_headerField hfail]
    exact ih ((Parser.failed_onHeaderField _ _ _).trans hfail)

theorem joinTold_nil (xs : List Callback) : joinTold xs [] = xs := by
  induction xs with
  | nil => rfl
  | cons x xs ih => rw [joinTold, ih]; simp

theorem joinTold_field (h : ∀ b, rest.head? ≠ some (.headerField b)) (a : Bytes) :
    joinTold [.headerField a] rest = .headerField a :: rest := by
  cases rest with
  | nil => rfl
  | cons y ys =>
    cases y
    case headerField b => exact absurd rfl (h b)
    all_goals rfl

theorem atOnce_name (h : ∀ b, rest.head? ≠ some (.headerField b)) (a : Bytes) (l : List Bytes) :
    (atOnce (nameCalls (a :: l) rest)).told = .headerField (a :: l).flatten :: rest := by
  induction l generalizing a with
  | nil =>
    show joinTold [.headerField a] (joinTold rest []) = _
    rw [joinTold_nil, joinTold_field h, List.flatten_singleton]
  | cons b l ih =>
    show joinTold [.headerField a] (atOnce (nameCalls (b :: l) rest)).told = _
    rw [ih]
    rfl

theorem cutApart_field (h : ∀ b ys', ys = .headerField b :: ys' →
    b = [] ∨ special cfg.type (p.stage ++ a) = false) :
    cutApart cfg p [.headerField a] ys = true := by
  cases ys with
  | nil => rfl
  | cons y ys =>
    cases y
    case headerField b => simpa [cutApart] using h b ys rfl
    all_goals rfl

theorem cutApart_nil (xs : List Callback) : cutApart cfg p xs [] = true := by
  induction xs generalizing p with
  | nil => rfl
  | cons x xs ih =>
    rw [cutApart]
    · exact ih
    · simp

/-- Spans that end no special name are cut apart. -/
theorem cutsApart_nameCalls (hfail : p.failed = false)
    (hrest : ∀ b, rest.head? ≠ some (.headerField b))
    (h : spansApart cfg.type p.stage l = true) : CutsApart cfg p (nameCalls l rest) := by
  induction l generalizing p with
  | nil =>
    show (cutApart cfg p rest [] && true) = true
    rw [cutApart_nil, Bool.and_true]
  | cons a l ih =>
    rw [spansApart, Bool.and_eq_true, Bool.or_eq_true, decide_eq_true_eq, Bool.not_eq_true'] at h
    show (cutApart cfg p [.headerField a] (atOnce (nameCalls l rest)).told &&
      cutsApart cfg (p.feed cfg ⟨[.headerField a], false⟩).1 (nameCalls l rest)) = true
    rw [Bool.and_eq_true, Parser.feed_fst, List.foldl_cons, List.foldl_nil, on_headerField hfail]
    constructor
    · -- behind this span comes all the rest of the name, or something else than a name
      apply cutApart_field
      intro b ys hys
      cases l with
      | nil =>
        rw [show (atOnce (nameCalls [] rest)).told = joinTold rest [] from rfl, joinTold_nil] at hys
        exact absurd (by rw [hys]; rfl) (hrest b)
      | cons c l =>
        rw [atOnce_name hrest, List.cons.injEq, Callback.headerField.injEq] at hys
        rw [← hys.1]
        exact h.1
    · apply ih ((Parser.failed_onHeaderField _ _ _).trans hfail)
      rcases hspecial : special cfg.type (p.stage ++ a) with _ | _
      · rw [Parser.onHeaderField_append hspecial]
        exact h.2
      · -- the name is special and ends here
        exact spansApart_empty (h.1.resolve_right (by simp [hspecial]))

theorem behindName_head (type : ParserType) (name value b : Bytes) :
    (behindName type name value).head? ≠ some (.headerField b) := by
  rw [behindName]
  split_ifs <;> simp

/-- The header of a name that is not special. -/
theorem headers_behindName (hp : p.failed = false) (hname : special type a = false)
    (value : Bytes) :
    ((behindName type a value).foldl (Parser.on cfg) p).headers =
      emplace p.headers p.stage value := by
  rw [behindName, if_neg (by simp [hname])]
  simp [Parser.on, hp, Parser.take, Parser.append, Parser.onHeaderValueComplete]

theorem headers_header (hfail : p.failed = false) {spans : List Bytes}
    (hname : special cfg.type spans.flatten = false) (value : Bytes) :
    (p.feeds cfg (header cfg.type spans value)).headers =
      emplace p.headers (spans.foldl (Parser.onHeaderField cfg.type) p).stage value := by
  obtain ⟨hheaders, hfailed⟩ := headers_spans cfg.type p spans
  rw [header, feeds_nameCalls hfail, headers_behindName (hfailed.trans hfail) hname, hheaders]

theorem headers_atOnce (hfail : p.failed = false) (hstage : p.stage = [])
    (hname : special cfg.type (a :: l).flatten = false) (value : Bytes) :
    (p.feed cfg (atOnce (header cfg.type (a :: l) value))).1.headers =
      emplace p.headers (a :: l).flatten value := by
  rw [header, Parser.feed_fst, atOnce_name (behindName_head cfg.type _ value), List.foldl_cons,
    on_headerField hfail, Parser.onHeaderField_append (by rwa [hstage])]
  have hbehind : ((behindName cfg.type (a :: l).flatten value).foldl (Parser.on cfg)
      (p.append (a :: l).flatten)).headers =
        emplace p.headers (p.stage ++ (a :: l).flatten) value :=
    headers_behindName (p := p.append _) hfail hname value
  rw [hbehind, hstage, List.nil_append]

/-- **The cuts of a name that change no request** are those that end no special name. -/
theorem inHeaders_iff (type : ParserType) (spans : List Bytes) :
    InHeaders type spans FeedsAgree ↔ InHeaders type spans CutsApart := by
  constructor
  · intro h cfg p value htype hstage hfail
    apply cutsApart_nameCalls hfail (behindName_head type _ value)
    rw [htype, hstage]
    by_contra hcut
    rw [Bool.not_eq_true] at hcut
    -- the name in one piece is whole, in spans it is shorter
    have hname : special type spans.flatten = false := special_spans hcut
    have hlt := stage_spans_lt (p := new) hcut
    have hone := (h ⟨type, fun _ _ => ⟨false, false, true⟩⟩ new value rfl rfl rfl).2.1
    cases spans with
    | nil => cases hcut
    | cons a l =>
      rw [headers_header rfl hname, headers_atOnce rfl rfl hname] at hone
      have hkey := congrArg (List.map Prod.fst) hone
      have hlength := congrArg List.length (List.singleton_inj.mp hkey)
      rw [show new.stage.length = 0 from rfl, Nat.zero_add] at hlt
      exact absurd hlength hlt.ne
  · intro h cfg p value htype hstage hfail
    rw [FeedsAgree, Parser.feeds_atOnce (h cfg p value htype hstage hfail)]
    exact ⟨rfl, rfl, rfl⟩

end Header

section Upgrade

variable {c : Call} {later : List Call}

theorem feeds_eq (cfg : Setup) (p : Parser) (calls : List Call) :
    p.feeds cfg calls = (calls.flatMap Call.told).foldl (Parser.on cfg) p := by
  induction calls generalizing p with
  | nil => rfl
  | cons c calls ih => rw [Parser.feeds_cons, ih, List.flatMap_cons, List.foldl_append]

/-- **What is told behind another protocol** changes no request if it is nothing. -/
theorem behindUpgrade_iff (hbegins : Begins later) :
    BehindUpgrade later FeedsAgree ↔ BehindUpgrade later CutsApart := by
  constructor
  · intro h cfg p c hupgrade
    rw [CutsApart, cutsApart, if_pos hupgrade, List.all_eq_true]
    intro d hd
    rw [decide_eq_true_eq]
    rcases htold : later.flatMap Call.told with _ | ⟨x, xs⟩
    · exact List.flatMap_eq_nil_iff.mp htold d hd
    · exfalso
      have hx : x = .messageBegin := hbegins x (by rw [htold]; rfl)
      -- a message begins: what headers there were is gone
      have hgone : ∀ hs, (xs.foldl (Parser.on cfg) new).headers = hs := by
        intro hs
        have hagree := (h cfg { new with headers := hs } ⟨[], true⟩ rfl).2.1
        rw [Parser.feeds_cons, feeds_eq, htold, hx] at hagree
        exact hagree
      exact absurd ((hgone []).symm.trans (hgone [([], [])])) (by simp)
  · intro h cfg p c hupgrade
    rw [FeedsAgree, Parser.feeds_atOnce (h cfg p c hupgrade)]
    exact ⟨rfl, rfl, rfl⟩

end Upgrade

/-- Calls that are cut elsewhere end as one call does; and the cuts of a name, and the calls behind
another protocol, of which this is true wherever they come. -/
theorem feeds_agree (cfg : Setup) (p : Parser) (calls : List Call) (type : ParserType)
    (spans : List Bytes) (later : List Call) :
    (CutsApart cfg p calls → p.feeds cfg calls = (p.feed cfg (atOnce calls)).1) ∧
    (InHeaders type spans FeedsAgree ↔ InHeaders type spans CutsApart) ∧
    (Begins later → (BehindUpgrade later FeedsAgree ↔ BehindUpgrade later CutsApart)) :=
  ⟨Parser.feeds_atOnce, inHeaders_iff type spans, behindUpgrade_iff⟩

/-- A request that is cut in its url, its names, a value and its body. -/
def inPieces : List Call :=
  [⟨[.messageBegin, .url (ascii "/a")], false⟩,
    ⟨[.url (ascii "b?x=1"), .urlComplete, .headerField (ascii "Ho")], false⟩,
    ⟨[.headerField (ascii "st"), .headerFieldComplete, .headerValue (ascii "h")], false⟩,
    ⟨[.headerValue (ascii "1"), .headerValueComplete, .headerField (ascii "Conn")], false⟩,
    ⟨[.headerField (ascii "ection"), .headerValue (ascii "close"), .headerValueComplete], false⟩,
    ⟨[.headersComplete 3, .body (ascii "ab")], false⟩,
    ⟨[.body (ascii "c"), .messageComplete], false⟩]

theorem feeds_agree_inPieces :
    new.feeds (request ⟨1000, false, 0⟩ true) inPieces =
      (new.feed (request ⟨1000, false, 0⟩ true) (atOnce inPieces)).1 ∧
    (BehindUpgrade inPieces FeedsAgree ↔ BehindUpgrade inPieces CutsApart) := by
  have hall := feeds_agree (request ⟨1000, false, 0⟩ true) new inPieces .request [] inPieces
  refine ⟨hall.1 (by unfold CutsApart; decide +kernel), hall.2.2 ?_⟩
  intro x hx
  exact (Option.some.inj hx).symm

/-- `Connection-Id`, with a cut behind its first word. -/
theorem not_feeds_agree : ¬FeedsAgree (request ⟨1000, false, 0⟩ true) new
    [⟨[.messageBegin, .url (ascii "/"), .urlComplete, .headerField (ascii "Connection")], false⟩,
      ⟨[.headerField (ascii "-Id"), .headerFieldComplete, .headerValue (ascii "7"),
        .headerValueComplete, .headersComplete 0, .messageComplete], false⟩] := by
  intro h
  exact absurd h.2.1 (by decide +kernel)

end Suil.HttpFeed
