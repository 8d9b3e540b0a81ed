/-
A message on its way from the SMTP client to the handlers of the server.

Behind DATA the client writes the header, the body as it is, the attachments, and
CRLF.CRLF.  The server ends the data phase when its window holds CRLF.CRLF at the end of
a chunk, and hands every chunk to `onDataPart` as it came, the last one included.

* `endsAtEnd_iff` — for which chunks the data phase ends with the stream;
* `parts_eq_of_endsAtEnd` — when it does, all of the stream is handed over;
* `not_carried` — so it is never just the body, nor the message before CRLF.CRLF.
-/
import Suil.SmtpTermination

namespace Suil

namespace Smtp

/-! ### The client -/

def crlf : Bytes := [13, 10]

/-- `CRLFCRLF` of the client. -/
def crlfcrlf : Bytes := [13, 10, 10]

/-- `Email::Address` -/
structure Address where
  owner : Bytes := []
  addr : Bytes

/-- `Email::Attachment`, with the contents of the file; none when it does not exist. -/
structure Attachment where
  fname : Bytes
  mime : Bytes
  contents : Option Bytes

/-- `Email` -/
structure Email where
  bodyType : Bytes := ascii "text/plain"
  subject : Bytes := []
  boundary : Bytes := []
  recipients : List Address := []
  ccs : List Address := []
  attached : List Attachment := []
  body : Bytes := []

def Address.encode (a : Address) : Bytes :=
  (if a.owner ≠ [] then 39 :: a.owner ++ [39] else []) ++ 60 :: a.addr ++ [62]

/-- `Attachment::filename`: what is behind the last slash. -/
def Attachment.filename (a : Attachment) : Bytes :=
  ((a.fname.takeWhile (· ≠ 0)).reverse.takeWhile (· ≠ 47)).reverse

/-- `Email::head`, on a date. -/
def Email.head (date : Bytes) (sender : Address) (msg : Email) : Bytes :=
  let addrs (as : List Address) := (ascii ", ").intercalate (as.map Address.encode)
  ascii "From: " ++ sender.encode ++ crlf ++
  ascii "To: " ++ addrs msg.recipients ++ crlf ++
  (if msg.ccs ≠ [] then ascii "Cc: " ++ addrs msg.ccs ++ crlf else []) ++
  ascii "Subject: " ++ msg.subject ++ crlf ++
  ascii "MIME-Version: 1.0" ++ crlf ++
  ascii "Date: " ++ date ++ crlf ++
  (if msg.attached = [] then
    ascii "Content-Type: " ++ msg.bodyType ++ ascii "; charset=utf-8" ++ crlf ++
      ascii "Content-Transfer-Encoding: 8bit" ++ crlf
  else ascii "Content-Type: multipart/mixed; boundary=\"" ++ msg.boundary ++ ascii "\"" ++ crlf) ++
  crlf

/-- An attachment as it is sent; a file that is missing or empty makes the client throw. -/
def Attachment.part (boundary : Bytes) (a : Attachment) : Option Bytes :=
  match a.contents with
  | none | some [] => none
  | some contents =>
    some (ascii "--" ++ boundary ++ crlf ++
      ascii "Content-Type: " ++ a.mime ++ ascii "; name=\"" ++ a.filename ++ ascii "\"" ++ crlf ++
      ascii "Content-Disposition: attachment; filename=\"" ++ a.filename ++ ascii "\"" ++ crlf ++
      ascii "Content-Transfer-Encoding: 8bit" ++ crlfcrlf ++ contents ++ crlfcrlf)

/-- What `Client::send` writes behind DATA before the end of the data. -/
def Email.message (date : Bytes) (sender : Address) (msg : Email) : Option Bytes :=
  if msg.attached = [] then some (msg.head date sender ++ msg.body)
  else
    (msg.attached.mapM (Attachment.part msg.boundary)).map fun parts =>
      msg.head date sender ++
      ascii "--" ++ msg.boundary ++ crlf ++
      ascii "Content-Type: " ++ msg.bodyType ++ ascii ";charset=utf8" ++ crlf ++
      ascii "Content-Encoding: 8bit" ++ crlfcrlf ++ msg.body ++ crlfcrlf ++ parts.flatten ++
      ascii "--" ++ msg.boundary ++ crlf

/-- The bytes behind DATA: the message, and `sendLine(CRLF, ".")`. -/
def Email.afterData (date : Bytes) (sender : Address) (msg : Email) : Option Bytes :=
  (msg.message date sender).map (· ++ terminator)

/-! ### The server -/

/-- What `onDataPart` is called with: every chunk that comes in the data state. -/
def parts (s : Session) : List Bytes → List Bytes
  | [] => []
  | data :: chunks => if s.state = .ExpectData then
      (onData s data).2.rxd :: parts (onData s data).2 chunks
    else []

/-- The data phase ends with the last chunk and not before. -/
def EndsAtEnd (s : Session) (chunks : List Bytes) : Prop :=
  (∀ pre, pre <+: chunks → pre ≠ chunks → (feed s pre).state = .ExpectData) ∧
    (feed s chunks).state ≠ .ExpectData

/-- The stream is read to its end, and the handlers get the body, or the message that it is
part of. -/
def Carried (date : Bytes) (sender : Address) (msg : Email) (s : Session) (chunks : List Bytes) :
    Prop :=
  EndsAtEnd s chunks ∧
    ((parts s chunks).flatten = msg.body ∨ msg.message date sender = some (parts s chunks).flatten)

theorem onData_rxd {s : Session} (hs : s.state = .ExpectData) (data : Bytes) :
    (onData s data).2.rxd = data := by
  rw [onData, if_neg (by simp [hs])]
  simp only
  split_ifs <;> rfl

/-- Whatever the window was, all chunks of such a stream are handed over. -/
theorem parts_eq_of_endsAtEnd {s : Session} {chunks : List Bytes} (h : EndsAtEnd s chunks) :
    parts s chunks = chunks := by
  induction chunks generalizing s with
  | nil => rfl
  | cons data chunks ih =>
    have hs : s.state = .ExpectData := h.1 [] List.nil_prefix (List.cons_ne_nil _ _).symm
    rw [parts, if_pos hs, onData_rxd hs, ih ⟨fun pre hpre hne => ?_, h.2⟩]
    refine h.1 (data :: pre) ((List.prefix_cons_inj data).mpr hpre) fun heq => hne ?_
    exact (List.cons.inj heq).2

theorem take_proper {α : Type*} {l : List α} {i : ℕ} (hi : 0 < i) (hlt : i < l.length) :
    l.take i ≠ [] ∧ l.take i ≠ l := by
  have hlen : (l.take i).length = i := by simp [hlt.le]
  refine ⟨fun hnil => ?_, fun heq => ?_⟩
  · rw [hnil, List.length_nil] at hlen
    omega
  · rw [heq] at hlen
    omega

/-- When the data phase ends with the stream: the window holds CRLF.CRLF behind the last
chunk and behind no chunk before it. -/
theorem endsAtEnd_iff {s : Session} (hs : s.state = .ExpectData) (chunks : List Bytes) :
    EndsAtEnd s chunks ↔ chunks ≠ [] ∧ (windowAfter s.term chunks).1 = terminator ∧
      ∀ pre, pre <+: chunks → pre ≠ [] → pre ≠ chunks → (windowAfter s.term pre).1 ≠ terminator := by
  constructor
  · rintro ⟨hstay, hleave⟩
    have hbefore : ∀ pre, pre <+: chunks → pre ≠ [] → pre ≠ chunks →
        (windowAfter s.term pre).1 ≠ terminator := by
      intro pre hpre hne hproper
      have h := (feed_state_iff hs pre).1.mp (hstay pre hpre hproper) pre.length
        (List.length_pos_iff.mpr hne) le_rfl
      rwa [List.take_length] at h
    refine ⟨fun hnil => hleave (by rw [hnil]; exact hs), ?_, hbefore⟩
    by_contra hlast
    refine hleave ((feed_state_iff hs chunks).1.mpr fun i hi hle => ?_)
    rcases Nat.lt_or_eq_of_le hle with hlt | rfl
    · have hproper := take_proper hi hlt
      exact hbefore _ (List.take_prefix i chunks) hproper.1 hproper.2
    · rwa [List.take_length]
  · rintro ⟨hne, hlast, hbefore⟩
    refine ⟨fun pre hpre hproper => (feed_state_iff hs pre).1.mpr fun i hi hle => ?_, fun hstay => ?_⟩
    · have hshort : pre.length < chunks.length :=
        lt_of_le_of_ne hpre.length_le fun h => hproper (hpre.eq_of_length h)
      have htake := take_proper hi (hle.trans_lt hshort)
      have heq : pre.take i = chunks.take i := by
        obtain ⟨rest, rfl⟩ := hpre
        rw [List.take_append_of_le_length hle]
      rw [heq]
      exact hbefore _ (List.take_prefix i chunks) htake.1 htake.2
    · have h := (feed_state_iff hs chunks).1.mp hstay chunks.length
        (List.length_pos_iff.mpr hne) le_rfl
      rw [List.take_length] at h
      exact h hlast

/-- The body is within the message. -/
theorem length_body_le {date : Bytes} {sender : Address} {msg : Email} {m : Bytes}
    (h : msg.message date sender = some m) : msg.body.length ≤ m.length := by
  rw [Email.message] at h
  split_ifs at h
  · rw [← Option.some.inj h, List.length_append]
    omega
  · obtain ⟨parts, -, rfl⟩ := Option.map_eq_some_iff.mp h
    simp only [List.length_append]
    omega

/-- **No message is carried** from the client to the handlers, however its bytes are cut into
chunks and whatever the server received before. -/
theorem not_carried {date : Bytes} {sender : Address} {msg : Email} {chunks : List Bytes}
    (s : Session) (hsent : msg.afterData date sender = some chunks.flatten) :
    ¬Carried date sender msg s chunks := by
  rintro ⟨hends, hparts⟩
  rw [parts_eq_of_endsAtEnd hends] at hparts
  obtain ⟨m, hm, hstream⟩ := Option.map_eq_some_iff.mp hsent
  have hlen : chunks.flatten.length = m.length + 5 := by
    rw [← hstream, List.length_append]
    rfl
  rcases hparts with hbody | hmessage
  · have hle := length_body_le hm
    rw [← hbody] at hle
    omega
  · have heq : m = chunks.flatten := Option.some.inj (hm.symm.trans hmessage)
    rw [← heq] at hlen
    omega

def joe : Address := ⟨ascii "Joe", ascii "joe@suil.org"⟩

/-- An email of a few words. -/
def greeting : Email := { recipients := [joe], subject := ascii "Hi", body := ascii "See you" }

theorem not_carried_greeting :
    ¬Carried (ascii "today") joe greeting waiting
      [greeting.head (ascii "today") joe ++ greeting.body ++ terminator] :=
  not_carried waiting (by rw [List.flatten_singleton]; rfl)

/-- Its body has the end of a message in it. -/
def dotted : Email := { greeting with body := ascii "a" ++ terminator ++ ascii "b" }

def dottedChunks : List Bytes :=
  [dotted.head [] joe ++ ascii "a" ++ terminator, ascii "b" ++ terminator]

/-- The handlers get the header and CRLF.CRLF with the body; and where a body has
CRLF.CRLF and the stream is cut behind it, the data phase ends there. -/
theorem not_carried_stream :
    ¬Carried [] joe greeting waiting [greeting.head [] joe ++ greeting.body ++ terminator] ∧
    dotted.afterData [] joe = some dottedChunks.flatten ∧ ¬EndsAtEnd waiting dottedChunks := by
  refine ⟨?_, by decide +kernel, fun h => ?_⟩
  · rintro ⟨-, h⟩
    revert h
    decide +kernel
  · have hstay := h.1 (dottedChunks.take 1) (List.take_prefix 1 _) (by simp [dottedChunks])
    revert hstay
    decide +kernel

end Smtp

end Suil
