/-
Cookies, from a response to its headers.

Cookies are kept in a map by name, which keeps the first one; when the response is sent each is
written and put into the map of headers, which has one entry for a field, and keeps the first one
too.

* `cookieLines_headers` — one line of cookies at most is set directly;
* `cookieLines_flush` — one line of cookies at most is sent;
* `written_eq` — the line of a cookie;
* `responseCookies_iff` — when every cookie is sent once, with the value that was set last.
-/
import Suil.ClientRequest
import Suil.Cookie

namespace Suil.ResponseCookies

open ClientRequest (sameKey emplace)
open Cookies (Cookie)

/-! ### The response -/

/-- What is called on a response before it is sent. -/
inductive Call where
  | header (field name : Bytes)
  | setCookie (ck : Cookie)

structure Response where
  headers : List (Bytes × Bytes) := []
  cookies : List (Bytes × Cookie) := []

/-- `Response::header` -/
def Response.header (r : Response) (field name : Bytes) : Response :=
  { r with headers := emplace r.headers field name }

/-- `Response::setCookie`, with the map in the order of the calls. -/
def Response.setCookie (r : Response) (ck : Cookie) : Response :=
  if ck.name = [] ∨ r.cookies.any (fun c => sameKey ck.name c.1) then r
  else { r with cookies := r.cookies ++ [(ck.name, ck)] }

def Response.call (r : Response) : Call → Response
  | .header field name => r.header field name
  | .setCookie ck => r.setCookie ck

/-- A response after these calls. -/
def response (calls : List Call) : Response := calls.foldl Response.call {}

section

-- What `strftime` writes for a time; none when `localtime` does not have it.
variable (date : ℤ → Option Bytes)

/-- `String{b}`: the byte behind the text is looked at, and has to be there. -/
def release (b : Buffer) : Option Bytes :=
  if b.bytes.length < b.memory then some b.bytes else none

/-- The line of a cookie, when it has one; like the calls below it is none when it does not
return. -/
def written (ck : Cookie) : Option (Option Bytes) := do
  let (ok, b) ← (Buffer.new 0).bind (ck.encode date)
  if ok then (release b).map some else some none

/-- `Response::flushCookies`, over the cookies in the order that their map shows them. -/
def flushCookies (headers : List (Bytes × Bytes)) :
    List (Bytes × Cookie) → Option (List (Bytes × Bytes))
  | [] => some headers
  | (_, ck) :: cookies => do
    match ← written date ck with
    | none => flushCookies headers cookies
    | some b => flushCookies (emplace headers (ascii "Set-Cookie") b) cookies

/-- What the connection writes into its own lines. -/
structure Own where
  keepAlive : Option Bytes
  hsts : Option Bytes
  server : Bytes
  date : Bytes
  length : Bytes
  type : Bytes

/-- A line for a field that is not set. -/
def missing (headers : List (Bytes × Bytes)) (field value : Bytes) : List (Bytes × Bytes) :=
  if headers.any fun h => sameKey field h.1 then [] else [(field, value)]

/-- The header lines of `sendResponse`. -/
def lines (own : Own) (headers : List (Bytes × Bytes)) : List (Bytes × Bytes) :=
  (own.keepAlive.elim [] fun v =>
    [(ascii "Connection", ascii "Keep-Alive"), (ascii "KeepAlive", v)]) ++
  (own.hsts.elim [] fun v => [(ascii "Strict-Transport-Security", v)]) ++
  headers ++
  missing headers (ascii "Server") own.server ++
  missing headers (ascii "Date") own.date ++
  missing headers (ascii "Content-Length") own.length ++
  missing headers (ascii "Content-Type") own.type

/-! ### What should be sent -/

/-- The line is one of cookies: the name of its field, in any case. -/
def isCookieLine (line : Bytes × Bytes) : Bool :=
  line.1.map lower = (ascii "Set-Cookie").map lower

/-- The name and the value that are read from a line: before the first semicolon, and on the two
sides of the first equals sign. -/
def readCookie (text : Bytes) : Option (Bytes × Bytes) :=
  let pair := text.takeWhile (· ≠ 59)
  if 61 ∈ pair then some (pair.takeWhile (· ≠ 61), (pair.dropWhile (· ≠ 61)).tail) else none

/-- The cookies in the lines. -/
def received (ls : List (Bytes × Bytes)) : List (Bytes × Bytes) :=
  (ls.filter isCookieLine).filterMap fun line => readCookie line.2

/-- The cookies that were set. -/
def named (calls : List Call) : List Cookie :=
  calls.filterMap fun
    | .setCookie ck => if ck.name = [] then none else some ck
    | .header _ _ => none

/-- The value that was set last for a name. -/
def lastValue (cks : List Cookie) (name : Bytes) : Bytes :=
  ((cks.filter fun ck => ck.name = name).getLast?.map (·.value)).getD []

/-- The response is sent, and every cookie that was set is on one line, with the value that was set
last. -/
def Sent (own : Own) (calls : List Call) : Prop :=
  ∀ shown, shown.Perm (response calls).cookies →
    ∃ headers, flushCookies date (response calls).headers shown = some headers ∧
      ∀ ck ∈ named calls,
        (received (lines own headers)).filter (fun c => c.1 = ck.name) =
          [(ck.name, lastValue (named calls) ck.name)]

/-- A line of cookies is read with this name and value. -/
def Reads (headers : List (Bytes × Bytes)) (name value : Bytes) : Prop :=
  ∃ h ∈ headers, isCookieLine h ∧ readCookie h.2 = some (name, value)

/-- No line was set that takes the place of the cookie, and the cookie is read with its name and
this value. -/
structure Plain (headers : List (Bytes × Bytes)) (ck : Cookie) (last : Bytes) : Prop where
  free : ∀ h ∈ headers, sameKey (ascii "Set-Cookie") h.1 = false
  name : 59 ∉ ck.name ∧ 61 ∉ ck.name
  value : ck.value ≠ [] ∧ ck.value.takeWhile (· ≠ 59) = last

/-- All cookies have one name, the first one can be written, and it is read with the value that was
set last, or a line that was set directly is. -/
def Single (headers : List (Bytes × Bytes)) (cks : List Cookie) : Prop :=
  ∀ ck ∈ cks.head?, (∀ other ∈ cks, other.name = ck.name) ∧ (written date ck).isSome ∧
    (Reads headers ck.name (lastValue cks ck.name) ∨ Plain headers ck (lastValue cks ck.name))

end

variable {a b k field value name text attrs last : Bytes} {hs : List (Bytes × Bytes)}
  {h : Bytes × Bytes} {ck : Cookie}

/-! ### The fields -/

/-- The same letters are the same key. -/
theorem sameKey_congr (h : a.map lower = b.map lower) (k : Bytes) : sameKey a k = sameKey b k := by
  have hlen : a.length = b.length := by
    rw [← List.length_map lower, h, List.length_map]
  have hhash : Key.computeHash a = Key.computeHash b := by
    rw [← computeHash_lower a, h, computeHash_lower]
  rw [sameKey, sameKey, hhash]
  simp only [Key.compare, Key.bytes, Option.getD_some, strncasecmpEq, h, hlen]

theorem sameKey_self (a : Bytes) : sameKey a a = true := by
  have hcompare : Key.compare ⟨some a, 0⟩ ⟨some a, 0⟩ = true :=
    compare_iff.mpr (.inr ⟨by simp, .inl rfl⟩)
  rw [sameKey, hcompare, decide_eq_true rfl]
  rfl

theorem isCookieLine_iff : isCookieLine h = true ↔
    h.1.map lower = (ascii "Set-Cookie").map lower := decide_eq_true_iff

/-- A line of cookies has the key of the lines of cookies. -/
theorem sameKey_of_isCookieLine (hline : isCookieLine h) :
    sameKey (ascii "Set-Cookie") h.1 = true := by
  rw [← sameKey_congr (isCookieLine_iff.mp hline)]
  exact sameKey_self h.1

/-- Two lines of cookies have one key. -/
theorem sameKey_of_lines {h' : Bytes × Bytes} (hline : isCookieLine h) (hline' : isCookieLine h') :
    sameKey h.1 h'.1 = true := by
  rw [sameKey_congr (isCookieLine_iff.mp hline)]
  exact sameKey_of_isCookieLine hline'

/-- **One line of cookies at most** comes from the map. -/
theorem cookieLines_emplace (hle : (hs.filter isCookieLine).length ≤ 1) (field value : Bytes) :
    ((emplace hs field value).filter isCookieLine).length ≤ 1 := by
  rw [emplace]
  split_ifs with hany
  · exact hle
  · rw [List.filter_append, List.length_append]
    by_cases hline : isCookieLine (field, value)
    · have hnone : hs.filter isCookieLine = [] := List.filter_eq_nil_iff.mpr fun h hmem hline' =>
        hany (List.any_eq_true.mpr ⟨h, hmem, sameKey_of_lines hline hline'⟩)
      rw [hnone, List.length_nil, Nat.zero_add]
      exact List.length_filter_le isCookieLine [(field, value)]
    · rw [List.filter_cons_of_neg hline]
      exact hle

theorem response_concat (calls : List Call) (call : Call) :
    response (calls ++ [call]) = (response calls).call call := List.foldl_concat ..

/-- What was set directly has one line of cookies at most. -/
theorem cookieLines_headers (calls : List Call) :
    ((response calls).headers.filter isCookieLine).length ≤ 1 := by
  induction calls using List.reverseRecOn with
  | nil => exact Nat.zero_le 1
  | append_singleton calls call ih =>
    rw [response_concat]
    cases call with
    | header field name => exact cookieLines_emplace ih field name
    | setCookie ck =>
      rw [Response.call, Response.setCookie]
      split_ifs <;> exact ih

/-- What is sent has one line of cookies at most. -/
theorem cookieLines_flush (date : ℤ → Option Bytes) {shown : List (Bytes × Cookie)}
    {hs' : List (Bytes × Bytes)} (hflush : flushCookies date hs shown = some hs')
    (hle : (hs.filter isCookieLine).length ≤ 1) : (hs'.filter isCookieLine).length ≤ 1 := by
  induction shown generalizing hs with
  | nil => exact Option.some.inj hflush ▸ hle
  | cons c shown ih =>
    rw [flushCookies] at hflush
    obtain ⟨_ | b, -, hrest⟩ := Option.bind_eq_some_iff.mp hflush
    · exact ih hrest hle
    · exact ih hrest (cookieLines_emplace hle _ _)

theorem filter_missing (hfield : isCookieLine (field, value) = false) :
    (missing hs field value).filter isCookieLine = [] := by
  rw [missing]
  split_ifs
  · rfl
  · rw [List.filter_cons_of_neg (by rw [hfield]; exact Bool.false_ne_true)]
    rfl

/-- The lines of the connection are none of cookies. -/
theorem received_lines (own : Own) (hs : List (Bytes × Bytes)) :
    received (lines own hs) = received hs := by
  have hkeep : (own.keepAlive.elim [] fun v =>
      [(ascii "Connection", ascii "Keep-Alive"), (ascii "KeepAlive", v)]).filter isCookieLine =
        [] := by
    cases own.keepAlive with
    | none => rfl
    | some v => rfl
  have hhsts : (own.hsts.elim [] fun v =>
      [(ascii "Strict-Transport-Security", v)]).filter isCookieLine = [] := by
    cases own.hsts with
    | none => rfl
    | some v => rfl
  rw [received, received, lines]
  simp only [List.filter_append, hkeep, hhsts, List.nil_append]
  rw [filter_missing rfl, filter_missing rfl, filter_missing rfl, filter_missing rfl]
  simp only [List.append_nil]

/-! ### The lines -/

/-- **What is read from a line.** -/
theorem readCookie_eq_some_iff : readCookie text = some (name, value) ↔
    text.takeWhile (· ≠ 59) = name ++ 61 :: value ∧ 61 ∉ name := by
  rw [readCookie]
  generalize text.takeWhile (· ≠ 59) = pair
  constructor
  · intro hread
    obtain ⟨hmem, hpair⟩ := Option.ite_none_right_eq_some.mp hread
    obtain ⟨rfl, rfl⟩ := Prod.mk.inj (Option.some.inj hpair)
    exact ⟨eq_takeWhile_append hmem, not_mem_takeWhile 61 pair⟩
  · rintro ⟨rfl, hnot⟩
    rw [if_pos (by simp), takeWhile_append_of_not_mem hnot, dropWhile_append_of_not_mem hnot,
      List.takeWhile_cons_of_neg (by decide), List.dropWhile_cons_of_neg (by decide),
      List.append_nil, List.tail_cons]

/-- Nothing, or what follows a semicolon. -/
def Attributes (s : Bytes) : Prop := ∀ c ∈ s.head?, c = 59

theorem Attributes.append (ha : Attributes a) (hb : Attributes b) : Attributes (a ++ b) := by
  cases a with
  | nil => exact hb
  | cons c a => exact ha

theorem takeWhile_attributes (ha : Attributes attrs) (value : Bytes) :
    (value ++ attrs).takeWhile (· ≠ 59) = value.takeWhile (· ≠ 59) := by
  rw [List.takeWhile_append]
  split_ifs with hlen
  · have hvalue : value.takeWhile (· ≠ 59) = value := (List.takeWhile_prefix _).eq_of_length hlen
    rw [hvalue]
    cases attrs with
    | nil => rw [List.takeWhile_nil, List.append_nil]
    | cons c attrs =>
      obtain rfl : c = 59 := ha c rfl
      rw [List.takeWhile_cons_of_neg (by decide), List.append_nil]
  · rfl

/-- **A cookie that is read from its own line.** -/
theorem readCookie_text_iff (ha : Attributes attrs) :
    readCookie (name ++ 61 :: value ++ attrs) = some (name, last) ↔
      (59 ∉ name ∧ 61 ∉ name) ∧ value.takeWhile (· ≠ 59) = last := by
  rw [readCookie_eq_some_iff, takeWhile_attributes ha]
  by_cases hname : 59 ∈ name
  · -- the line is cut in the name
    refine iff_of_false (fun hread => ?_) fun hread => hread.1.1 hname
    have hmem : 59 ∈ (name ++ 61 :: value).takeWhile (· ≠ 59) := by
      rw [hread.1]
      exact List.mem_append_left _ hname
    exact not_mem_takeWhile 59 _ hmem
  · rw [takeWhile_append_of_not_mem hname, List.takeWhile_cons_of_pos (by decide),
      List.append_cancel_left_eq, List.cons.injEq]
    tauto

/-! ### A cookie that is written -/

/-- The buffer goes on with attributes. -/
def Extends (b b' : Buffer) : Prop := ∃ attrs, Attributes attrs ∧ b'.bytes = b.bytes ++ attrs

theorem Extends.refl (b : Buffer) : Extends b b :=
  ⟨[], fun _ hc => (by cases hc), (List.append_nil _).symm⟩

theorem Extends.trans {b b' b'' : Buffer} (h : Extends b b') (h' : Extends b' b'') :
    Extends b b'' := by
  obtain ⟨a, ha, hb⟩ := h
  obtain ⟨a', ha', hb'⟩ := h'
  exact ⟨a ++ a', ha.append ha', by rw [hb', hb, List.append_assoc]⟩

theorem attributes_of_head {s : Bytes} (h : s.head? = some 59) : Attributes s := fun c hc => by
  rw [Option.mem_def, h] at hc
  exact (Option.some.inj hc).symm

section

variable {p : Prop} [Decidable p] {b : Buffer} {d v : Bytes} {r : Bool × Buffer}
  {f : Buffer → Option (Bool × Buffer)}

/-- An attribute without a value, when it is set. -/
theorem extends_of_flag (hd : d.head? = some 59)
    (h : (if p then (b.append d).bind f else (some b).bind f) = some r) :
    ∃ b', Extends b b' ∧ f b' = some r := by
  split_ifs at h
  · obtain ⟨b', hb', hr⟩ := Option.bind_eq_some_iff.mp h
    exact ⟨b', ⟨d, attributes_of_head hd, Buffer.append_bytes hb'⟩, hr⟩
  · exact ⟨b, .refl b, h⟩

/-- An attribute and its value, unless it is empty. -/
theorem extends_of_attribute (hd : d.head? = some 59)
    (h : (if p then (some b).bind f
      else (b.append d).bind fun b => (b.append v).bind f) = some r) :
    ∃ b', Extends b b' ∧ f b' = some r := by
  split_ifs at h
  · exact ⟨b, .refl b, h⟩
  · obtain ⟨b₁, hb₁, h⟩ := Option.bind_eq_some_iff.mp h
    obtain ⟨b', hb', hr⟩ := Option.bind_eq_some_iff.mp h
    refine ⟨b', ⟨d ++ v, attributes_of_head ?_, ?_⟩, hr⟩
    · rw [List.head?_append, hd]
      rfl
    · rw [Buffer.append_bytes hb', Buffer.append_bytes hb₁, List.append_assoc]

/-- The time, which is copied behind what is reserved for it. -/
theorem extends_of_expires {time : Option Bytes} (hd : d.head? = some 59)
    (h : (if p then (b.append d).bind fun b => (b.reserve 64).bind fun b =>
        time.bind fun t => (b.copyIn t).bind f
      else (some b).bind f) = some r) :
    ∃ b', Extends b b' ∧ f b' = some r := by
  split_ifs at h
  · obtain ⟨b₁, hb₁, h⟩ := Option.bind_eq_some_iff.mp h
    obtain ⟨b₂, hb₂, h⟩ := Option.bind_eq_some_iff.mp h
    obtain ⟨t, -, h⟩ := Option.bind_eq_some_iff.mp h
    obtain ⟨b', hb', hr⟩ := Option.bind_eq_some_iff.mp h
    refine ⟨b', ⟨d ++ t, attributes_of_head ?_, ?_⟩, hr⟩
    · rw [List.head?_append, hd]
      rfl
    · rw [(Buffer.copyIn_eq_some_iff.mp hb').2.1, Buffer.reserve_bytes hb₂,
        Buffer.append_bytes hb₁, List.append_assoc]
  · exact ⟨b, .refl b, h⟩

end

/-- **What a cookie is written as**: its name, its value, and attributes. -/
theorem encode_bytes {date : ℤ → Option Bytes} {b b' : Buffer} {ok : Bool}
    (h : ck.encode date b = some (ok, b')) :
    (ok = false ∧ (ck.name = [] ∨ ck.value = [])) ∨
      (ok = true ∧ ck.value ≠ [] ∧ ∃ attrs, Attributes attrs ∧
        b'.bytes = b.bytes ++ (ck.name ++ 61 :: ck.value ++ attrs)) := by
  rw [Cookie.encode] at h
  by_cases hempty : ck.name = [] ∨ ck.value = []
  · rw [if_pos hempty] at h
    exact .inl ⟨(congrArg Prod.fst (Option.some.inj h)).symm, hempty⟩
  · rw [if_neg hempty] at h
    obtain ⟨b₁, hb₁, h⟩ := Option.bind_eq_some_iff.mp h
    obtain ⟨b₂, hb₂, h⟩ := Option.bind_eq_some_iff.mp h
    obtain ⟨b₃, hb₃, h⟩ := Option.bind_eq_some_iff.mp h
    obtain ⟨b₄, hb₄, h⟩ := Option.bind_eq_some_iff.mp h
    obtain ⟨b₅, h₅, h⟩ := extends_of_attribute rfl h
    obtain ⟨b₆, h₆, h⟩ := extends_of_attribute rfl h
    obtain ⟨b₇, h₇, h⟩ := extends_of_flag rfl h
    obtain ⟨b₈, h₈, h⟩ := extends_of_flag rfl h
    obtain ⟨b₉, h₉, h⟩ := extends_of_expires rfl h
    obtain ⟨rfl, rfl⟩ := Prod.mk.inj (Option.some.inj h)
    obtain ⟨attrs, hattrs, hbytes⟩ := (((h₅.trans h₆).trans h₇).trans h₈).trans h₉
    refine .inr ⟨rfl, fun hnil => hempty (.inr hnil), attrs, hattrs, ?_⟩
    have hequals : ascii "=" = [61] := rfl
    rw [hbytes, Buffer.append_bytes hb₄, Buffer.append_bytes hb₃, Buffer.append_bytes hb₂,
      Buffer.reserve_bytes hb₁, hequals]
    simp only [List.append_assoc, List.cons_append, List.nil_append]

/-- **The line of a cookie**, which it has unless its value is empty. -/
theorem written_eq {date : ℤ → Option Bytes} {line : Option Bytes} (hname : ck.name ≠ [])
    (h : written date ck = some line) :
    (ck.value = [] ∧ line = none) ∨ (ck.value ≠ [] ∧ ∃ attrs, Attributes attrs ∧
      line = some (ck.name ++ 61 :: ck.value ++ attrs)) := by
  obtain ⟨⟨ok, b⟩, hencode, hline⟩ := Option.bind_eq_some_iff.mp h
  obtain ⟨b₀, hnew, hencode⟩ := Option.bind_eq_some_iff.mp hencode
  rcases encode_bytes hencode with ⟨rfl, hempty⟩ | ⟨rfl, hvalue, attrs, hattrs, hbytes⟩
  · exact .inl ⟨hempty.resolve_left hname, (Option.some.inj hline).symm⟩
  · obtain ⟨text, hrelease, rfl⟩ := Option.map_eq_some_iff.mp hline
    obtain ⟨-, htext⟩ := Option.ite_none_right_eq_some.mp hrelease
    obtain rfl := Option.some.inj hnew
    exact .inr ⟨hvalue, attrs, hattrs, by rw [← Option.some.inj htext, hbytes, List.nil_append]⟩

/-! ### The cookies of a response -/

theorem named_concat (calls : List Call) (call : Call) :
    named (calls ++ [call]) = named calls ++ named [call] := List.filterMap_append

/-- Of cookies with one name the first one is kept. -/
theorem cookies_of_name (calls : List Call) (h : ∀ ck ∈ named calls, ck.name = name) :
    (response calls).cookies = (named calls).head?.toList.map fun ck => (ck.name, ck) := by
  induction calls using List.reverseRecOn with
  | nil => rfl
  | append_singleton calls call ih =>
    rw [named_concat] at h ⊢
    rw [List.forall_mem_append] at h
    rw [response_concat]
    cases call with
    | header field value =>
      rw [Response.call, Response.header, ih h.1]
      simp [named]
    | setCookie ck =>
      rw [Response.call, Response.setCookie]
      by_cases hname : ck.name = []
      · rw [if_pos (.inl hname), ih h.1]
        simp [named, hname]
      · have hlast : named [.setCookie ck] = [ck] := by simp [named, hname]
        rw [hlast] at h ⊢
        have hcookies := ih h.1
        cases hnamed : named calls with
        | nil =>
          rw [hnamed] at hcookies
          simp [hcookies, hname]
        | cons c cks =>
          rw [hnamed] at h hcookies
          have hsame : sameKey ck.name c.name = true := by
            rw [h.2 ck List.mem_cons_self, h.1 c List.mem_cons_self]
            exact sameKey_self name
          simp [hcookies, hsame]

/-! ### What is sent -/

theorem mem_received_iff : (name, value) ∈ received hs ↔ Reads hs name value := by
  rw [received, List.mem_filterMap]
  constructor
  · rintro ⟨h, hmem, hread⟩
    exact ⟨h, (List.mem_filter.mp hmem).1, (List.mem_filter.mp hmem).2, hread⟩
  · rintro ⟨h, hmem, hline, hread⟩
    exact ⟨h, List.mem_filter.mpr ⟨hmem, hline⟩, hread⟩

/-- Of one line at most. -/
theorem filter_received_iff (own : Own) (hle : (hs.filter isCookieLine).length ≤ 1) :
    (received (lines own hs)).filter (fun c => c.1 = name) = [(name, value)] ↔
      Reads hs name value := by
  rw [received_lines, ← mem_received_iff]
  have hlen : (received hs).length ≤ 1 := (List.length_filterMap_le _ _).trans hle
  constructor
  · intro heq
    have hmem : (name, value) ∈ (received hs).filter fun c => c.1 = name :=
      heq ▸ List.mem_cons_self
    exact (List.mem_filter.mp hmem).1
  · intro hmem
    obtain ⟨c, hc⟩ := List.length_eq_one_iff.mp (le_antisymm hlen (List.length_pos_of_mem hmem))
    rw [hc, List.mem_singleton] at hmem
    rw [hc, ← hmem]
    simp

/-- Two names are not read from one line. -/
theorem Reads.eq {name' value' : Bytes} (hle : (hs.filter isCookieLine).length ≤ 1)
    (h : Reads hs name value) (h' : Reads hs name' value') : name = name' := by
  obtain ⟨l, hmem, hline, hread⟩ := h
  obtain ⟨l', hmem', hline', hread'⟩ := h'
  have hin := List.mem_filter.mpr ⟨hmem, hline⟩
  have hin' := List.mem_filter.mpr ⟨hmem', hline'⟩
  obtain ⟨x, hx⟩ := List.length_eq_one_iff.mp (le_antisymm hle (List.length_pos_of_mem hin))
  rw [hx, List.mem_singleton] at hin hin'
  rw [hin] at hread
  rw [hin', hread] at hread'
  exact (Prod.mk.inj (Option.some.inj hread')).1

/-- **What is read of one cookie**, when it is put to what was set directly. -/
theorem reads_flush_iff {date : ℤ → Option Bytes} {hs' : List (Bytes × Bytes)}
    (hname : ck.name ≠ []) (hflush : flushCookies date hs [(k, ck)] = some hs') :
    Reads hs' ck.name last ↔ Reads hs ck.name last ∨ Plain hs ck last := by
  obtain ⟨line, hwritten, hput⟩ := Option.bind_eq_some_iff.mp hflush
  rcases written_eq hname hwritten with ⟨hvalue, rfl⟩ | ⟨hvalue, attrs, hattrs, rfl⟩
  · obtain rfl := Option.some.inj hput
    exact (or_iff_left fun hplain => hplain.value.1 hvalue).symm
  · obtain rfl := Option.some.inj hput
    rw [emplace]
    split_ifs with hany
    · obtain ⟨h, hmem, hsame⟩ := List.any_eq_true.mp hany
      refine (or_iff_left fun hplain => ?_).symm
      rw [hplain.free h hmem] at hsame
      cases hsame
    · have hfree : ∀ h ∈ hs, sameKey (ascii "Set-Cookie") h.1 = false := fun h hmem =>
        Bool.eq_false_iff.mpr fun hsame => hany (List.any_eq_true.mpr ⟨h, hmem, hsame⟩)
      have hnone : ¬Reads hs ck.name last := by
        rintro ⟨h, hmem, hline, -⟩
        exact Bool.false_ne_true ((hfree h hmem).symm.trans (sameKey_of_isCookieLine hline))
      rw [or_iff_right hnone]
      constructor
      · rintro ⟨h, hmem, hline, hread⟩
        rw [List.mem_append, List.mem_singleton] at hmem
        rcases hmem with hmem | rfl
        · exact absurd ⟨h, hmem, hline, hread⟩ hnone
        · obtain ⟨hnames, hlast⟩ := (readCookie_text_iff hattrs).mp hread
          exact ⟨hfree, hnames, hvalue, hlast⟩
      · rintro ⟨-, hnames, -, hlast⟩
        have hread := (readCookie_text_iff hattrs).mpr ⟨hnames, hlast⟩
        exact ⟨_, List.mem_append_right _ List.mem_cons_self, isCookieLine_iff.mpr rfl, hread⟩

theorem flushCookies_isSome (date : ℤ → Option Bytes) (hs : List (Bytes × Bytes)) (k : Bytes)
    (ck : Cookie) : (flushCookies date hs [(k, ck)]).isSome = (written date ck).isSome := by
  rw [flushCookies]
  cases written date ck with
  | none => rfl
  | some line => cases line <;> rfl

theorem name_ne_nil {calls : List Call} (h : ck ∈ named calls) : ck.name ≠ [] := by
  obtain ⟨call, -, hcall⟩ := List.mem_filterMap.mp h
  cases call with
  | header field value => cases hcall
  | setCookie c =>
    obtain ⟨hne, heq⟩ := Option.ite_none_left_eq_some.mp hcall
    exact Option.some.inj heq ▸ hne

/-- **When every cookie is sent once, with the value that was set last.** -/
theorem responseCookies_iff (date : ℤ → Option Bytes) (own : Own) (calls : List Call) :
    Sent date own calls ↔ Single date (response calls).headers (named calls) := by
  have hdirect := cookieLines_headers calls
  cases hnamed : named calls with
  | nil =>
    refine iff_of_true (fun shown hperm => ?_) fun ck hck => by cases hck
    have hjar : (response calls).cookies = [] := by
      have hname : ∀ ck ∈ named calls, ck.name = [] := fun ck hck => by
        rw [hnamed] at hck
        exact absurd hck List.not_mem_nil
      rw [cookies_of_name calls hname, hnamed]
      rfl
    rw [hjar] at hperm
    obtain rfl := List.perm_nil.mp hperm
    rw [hnamed]
    exact ⟨_, rfl, fun ck hck => absurd hck List.not_mem_nil⟩
  | cons ck cks =>
    have hne : ck.name ≠ [] := name_ne_nil (hnamed ▸ List.mem_cons_self)
    -- with one name there is one cookie in the map
    have hjar : (∀ other ∈ ck :: cks, other.name = ck.name) →
        (response calls).cookies = [(ck.name, ck)] := fun hone => by
      rw [cookies_of_name calls (by rwa [hnamed]), hnamed]
      rfl
    rw [Sent, hnamed]
    constructor
    · intro hsent c hc
      obtain rfl := Option.some.inj hc
      obtain ⟨hs, hflush, hall⟩ := hsent _ (.refl _)
      have hle := cookieLines_flush date hflush hdirect
      have hreads : ∀ c ∈ ck :: cks, Reads hs c.name (lastValue (ck :: cks) c.name) :=
        fun c hc => (filter_received_iff own hle).mp (hall c hc)
      have hone : ∀ other ∈ ck :: cks, other.name = ck.name := fun other hother =>
        (hreads other hother).eq hle (hreads ck List.mem_cons_self)
      rw [hjar hone] at hflush
      have hwritten : (written date ck).isSome := by
        rw [← flushCookies_isSome date _ ck.name, hflush]
        rfl
      exact ⟨hone, hwritten, (reads_flush_iff hne hflush).mp (hreads ck List.mem_cons_self)⟩
    · intro hsingle shown hperm
      obtain ⟨hone, hwritten, hread⟩ := hsingle ck rfl
      rw [hjar hone] at hperm
      obtain rfl := List.perm_singleton.mp hperm
      rw [← flushCookies_isSome date (response calls).headers ck.name] at hwritten
      obtain ⟨hs, hflush⟩ := Option.isSome_iff_exists.mp hwritten
      refine ⟨hs, hflush, fun other hother => ?_⟩
      rw [hone other hother, filter_received_iff own (cookieLines_flush date hflush hdirect)]
      exact (reads_flush_iff hne hflush).mpr hread

/-- Two cookies, and two values of one cookie. -/
theorem not_responseCookies :
    ¬Sent (fun _ => none) ⟨none, none, [], [], [], []⟩
      [.setCookie { name := ascii "a", value := ascii "1" },
        .setCookie { name := ascii "b", value := ascii "2" }] ∧
    ¬Sent (fun _ => none) ⟨none, none, [], [], [], []⟩
      [.setCookie { name := ascii "a", value := ascii "1" },
        .setCookie { name := ascii "a", value := ascii "2" }] := by
  constructor
  · intro hsent
    obtain ⟨hs, hflush, hall⟩ := hsent _ (.refl _)
    have hle := cookieLines_flush _ hflush (cookieLines_headers _)
    have ha := (filter_received_iff _ hle).mp (hall _ List.mem_cons_self)
    have hb := (filter_received_iff _ hle).mp (hall _ (List.mem_cons_of_mem _ List.mem_cons_self))
    exact absurd (ha.eq hle hb) (by decide)
  · intro hsent
    obtain ⟨hs, hflush, hall⟩ := hsent _ (.refl _)
    have hle := cookieLines_flush _ hflush (cookieLines_headers _)
    have ha := (filter_received_iff _ hle).mp (hall _ List.mem_cons_self)
    rcases (reads_flush_iff (by decide) hflush).mp ha with ⟨h, hmem, -⟩ | hplain
    · exact absurd hmem List.not_mem_nil
    · exact absurd hplain.value.2 (by decide)

end Suil.ResponseCookies
