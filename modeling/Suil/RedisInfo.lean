/-
The INFO reply (`RedisClient::info`).

The text is cut at carriage returns, the line feed that then begins a line is dropped, and
what is no comment is cut at every colon.  The first two pieces are recorded, whether there
are two or not: a line without a colon, or with nothing behind it, has only one.

* `foldlM_parts` — the lines that the cut at carriage returns leaves;
* `record_parts` — what is recorded of a line;
* `info_iff` — the replies whose keys are recorded with all of their text.
-/
import Suil.StringParts

namespace Suil

namespace RedisInfo

/-- `ServerInfo`, without its buffer. -/
@[ext] structure ServerInfo where
  Version : Bytes := []
  params : Bytes → Option Bytes := fun _ => none

def redisVersion : Bytes := ascii "redis_version"

/-- `params.emplace`: a key that is there keeps its value. -/
def emplace (params : Bytes → Option Bytes) (k v : Bytes) : Bytes → Option Bytes :=
  if (params k).isSome then params else Function.update params k (some v)

/-- A key and its value. -/
def ServerInfo.put (out : ServerInfo) (k v : Bytes) : ServerInfo :=
  if k = redisVersion then { out with Version := v }
  else { out with params := emplace out.params k v }

/-- `kv[0]` and `kv[1]`, whatever the size; none when one of them is not there. -/
def record (out : ServerInfo) (kv : List Bytes) : Option ServerInfo :=
  match kv with
  | k :: v :: _ => some (out.put k v)
  | _ => none

/-- The body of the loop. -/
def infoPart (out : ServerInfo) (part : Bytes) : Option ServerInfo :=
  if part = [] then some out
  else
    let line := if part.head? = some 10 then substr part 1 0 else part
    if line = [] ∨ line.head? = some 35 then some out else record out (parts 58 line)

/-- `info(out)`, by the text of the reply to INFO; an empty one is no response. -/
def info (out : ServerInfo) (data : Bytes) : Option (Bool × ServerInfo) :=
  if data = [] then some (false, { out with Version := ascii "NotFound" })
  else ((parts 13 data).foldlM infoPart out).map (true, ·)

/-! ### The lines -/

/-- A line of text. -/
abbrev Line := { l : Bytes // 13 ∉ l ∧ 10 ∉ l ∧ 0 ∉ l }

/-- Lines with CRLF between them. -/
def text : List Line → Bytes
  | [] => []
  | l :: ls => l.1 ++ ls.flatMap fun l => 13 :: 10 :: l.1

/-- Neither blank nor a comment. -/
def Line.kept (l : Line) : Bool := l.1 ≠ [] && l.1.head? ≠ some 35

/-- The text before the first colon, and the text behind it. -/
def Line.key (l : Line) : Bytes := l.1.takeWhile (· ≠ 58)

def Line.value (l : Line) : Bytes := (l.1.dropWhile (· ≠ 58)).tail

/-- **What should be recorded**: of each line with a colon the whole text behind the first. -/
def expected (lines : List Line) : ServerInfo :=
  (lines.filter fun l => l.kept && l.1.contains 58).foldl (fun out l => out.put l.key l.value) {}

/-- What was recorded of the lines; without a line of the version nothing is said of it. -/
structure Recorded (lines : List Line) (out : ServerInfo) : Prop where
  params : out.params = (expected lines).params
  version : (∃ l ∈ lines, l.kept = true ∧ 58 ∈ l.1 ∧ l.key = redisVersion) →
    out.Version = (expected lines).Version

/-- Each line that is kept has a colon and something behind it, and where a value is recorded
to stay, it has no colon. -/
structure Plain (lines : List Line) : Prop where
  whole : ∀ l ∈ lines, l.kept = true → 58 ∈ l.1 ∧ l.value ≠ []
  first : ∀ k ≠ redisVersion, ∀ l : Line,
    (lines.filter Line.kept).find? (fun l => l.key = k) = some l → 58 ∉ l.value
  version : ∀ l : Line,
    ((lines.filter Line.kept).filter fun l => l.key = redisVersion).getLast? = some l →
      58 ∉ l.value

/-! ### The cut at carriage returns -/

/-- A line that the loop comes to. -/
def keepLine (out : ServerInfo) (l : Line) : Option ServerInfo :=
  if l.kept then record out (parts 58 l.1) else some out

theorem infoPart_line (out : ServerInfo) (l : Line) : infoPart out l.1 = keepLine out l := by
  rw [infoPart, keepLine, Line.kept]
  by_cases hnil : l.1 = []
  · simp [hnil]
  · have hhead : l.1.head? ≠ some 10 := fun h => l.2.2.1 (List.mem_of_head? h)
    rw [if_neg hnil, if_neg hhead]
    by_cases hcomment : l.1.head? = some 35
    · rw [if_pos (.inr hcomment), if_neg (by simp [hcomment])]
    · rw [if_neg (by simp [hnil, hcomment]), if_pos (by simp [hnil, hcomment])]

theorem infoPart_lineFeed (out : ServerInfo) (l : Line) :
    infoPart out (10 :: l.1) = keepLine out l := by
  have hrest : substr (10 :: l.1) 1 0 = l.1 := by
    rw [substr_rest]
    rfl
  rw [infoPart, if_neg (by simp), keepLine, Line.kept]
  simp only [List.head?_cons, if_true, hrest]
  by_cases hskip : l.1 = [] ∨ l.1.head? = some 35
  · rw [if_pos hskip, if_neg]
    rcases hskip with h | h <;> simp [h]
  · rw [if_neg hskip, if_pos]
    rw [not_or] at hskip
    simp [hskip.1, hskip.2]

/-- A part, and the lines behind it, each with a line feed before it. -/
theorem foldlM_lineFeeds (ls : List Line) (a : Bytes) (out : ServerInfo) (hcr : 13 ∉ a)
    (h0 : 0 ∉ a) :
    (parts 13 (a ++ ls.flatMap fun l => 13 :: 10 :: l.1)).foldlM infoPart out =
      (infoPart out a).bind fun out => ls.foldlM keepLine out := by
  induction ls generalizing a out with
  | nil =>
    rw [List.flatMap_nil, List.append_nil]
    by_cases hnil : a = []
    · rw [hnil]
      rfl
    · rw [parts, partsLoop_last h0 hcr (by simpa using hnil)]
      rfl
  | cons l ls ih =>
    -- the next part is a line behind its line feed
    have hcr' : (13 : UInt8) ∉ 10 :: l.1 := by simpa using l.2.1
    have h0' : (0 : UInt8) ∉ 10 :: l.1 := by simpa using l.2.2.2
    rw [List.flatMap_cons, List.cons_append, parts, partsLoop_append h0 hcr (by decide),
      List.nil_append, List.foldlM_cons]
    refine congrArg (Option.bind (infoPart out a)) (funext fun out => ?_)
    rw [ih (10 :: l.1) out hcr' h0', infoPart_lineFeed, List.foldlM_cons]
    rfl

/-- **The lines**: each but the first one begins with its line feed. -/
theorem foldlM_parts (out : ServerInfo) (lines : List Line) :
    (parts 13 (text lines)).foldlM infoPart out = lines.foldlM keepLine out := by
  cases lines with
  | nil => rfl
  | cons l ls =>
    rw [text, foldlM_lineFeeds ls l.1 out l.2.1 l.2.2.2, infoPart_line, List.foldlM_cons]
    rfl

/-! ### The cut at colons -/

/-- What the code takes for the value. -/
def Line.cut (l : Line) : Bytes := l.value.takeWhile (· ≠ 58)

theorem Line.eq_key_value {l : Line} (h : 58 ∈ l.1) : l.1 = l.key ++ 58 :: l.value :=
  eq_takeWhile_append h

theorem Line.cut_eq_iff {l : Line} : l.cut = l.value ↔ 58 ∉ l.value := by
  constructor
  · intro h
    rw [← h]
    exact not_mem_takeWhile 58 l.value
  · exact takeWhile_of_not_mem

/-- The first part of a text that is not empty. -/
theorem parts_value {s : Bytes} (h0 : (0 : UInt8) ∉ s) (hne : s ≠ []) :
    ∃ rest, parts 58 s = s.takeWhile (· ≠ 58) :: rest := by
  by_cases hmem : (58 : UInt8) ∈ s
  · have hsplit := eq_takeWhile_append hmem
    have hfront : (0 : UInt8) ∉ s.takeWhile (· ≠ 58) := fun h => h0 (List.takeWhile_subset _ h)
    refine ⟨parts 58 (s.dropWhile (· ≠ 58)).tail, ?_⟩
    conv_lhs => rw [hsplit]
    exact partsLoop_append hfront (not_mem_takeWhile 58 s) (by decide)
  · refine ⟨[], ?_⟩
    rw [takeWhile_of_not_mem hmem]
    exact partsLoop_last h0 hmem (by simpa using hne)

/-- **What is recorded of a line**: it needs a colon and something behind it, and the value ends
at the next one. -/
theorem record_parts (out : ServerInfo) {l : Line} (hne : l.1 ≠ []) :
    record out (parts 58 l.1) =
      if 58 ∈ l.1 ∧ l.value ≠ [] then some (out.put l.key l.cut) else none := by
  by_cases hmem : 58 ∈ l.1
  · have hkey : (0 : UInt8) ∉ l.key := fun h => l.2.2.2 (List.takeWhile_subset _ h)
    have hsplit : parts 58 l.1 = l.key :: parts 58 l.value := by
      conv_lhs => rw [Line.eq_key_value hmem]
      exact partsLoop_append hkey (not_mem_takeWhile 58 l.1) (by decide)
    by_cases hval : l.value = []
    · -- nothing behind the colon is no part
      rw [hsplit, hval, if_neg (by simp)]
      rfl
    · have hvalue : (0 : UInt8) ∉ l.value := by
        intro h
        refine l.2.2.2 ?_
        rw [Line.eq_key_value hmem]
        exact List.mem_append_right _ (List.mem_cons_of_mem _ h)
      obtain ⟨rest, hrest⟩ := parts_value hvalue hval
      rw [hsplit, hrest, if_pos ⟨hmem, hval⟩]
      rfl
  · rw [parts, partsLoop_last l.2.2.2 hmem (by simpa using hne), if_neg (fun h => hmem h.1)]
    rfl

/-! ### The records -/

theorem foldlM_keepLine (out : ServerInfo) (lines : List Line) :
    ((∀ l ∈ lines, l.kept = true → 58 ∈ l.1 ∧ l.value ≠ []) →
      lines.foldlM keepLine out =
        some ((lines.filter Line.kept).foldl (fun out l => out.put l.key l.cut) out)) ∧
    ((¬∀ l ∈ lines, l.kept = true → 58 ∈ l.1 ∧ l.value ≠ []) →
      lines.foldlM keepLine out = none) := by
  induction lines generalizing out with
  | nil => exact ⟨fun _ => rfl, fun h => absurd (by simp) h⟩
  | cons l ls ih =>
    rw [List.forall_mem_cons, List.foldlM_cons, keepLine]
    by_cases hkept : l.kept = true
    · have hne : l.1 ≠ [] := by
        intro hnil
        rw [Line.kept, hnil] at hkept
        simp at hkept
      rw [if_pos hkept, record_parts out hne, List.filter_cons_of_pos hkept, List.foldl_cons]
      by_cases hwhole : 58 ∈ l.1 ∧ l.value ≠ []
      · -- the record is made, and the lines behind decide
        rw [if_pos hwhole]
        obtain ⟨hall, hnot⟩ := ih (out.put l.key l.cut)
        exact ⟨fun h => hall h.2, fun h => hnot fun h' => h ⟨fun _ => hwhole, h'⟩⟩
      · rw [if_neg hwhole]
        exact ⟨fun h => absurd (h.1 hkept) hwhole, fun _ => rfl⟩
    · rw [if_neg hkept, List.filter_cons_of_neg hkept]
      obtain ⟨hall, hnot⟩ := ih out
      exact ⟨fun h => hall h.2, fun h => hnot fun h' => h ⟨fun h'' => absurd h'' hkept, h'⟩⟩

/-- The map after some records: the first of each key. -/
theorem params_foldl (f : Line → Bytes) (ls : List Line) (out : ServerInfo) {k : Bytes}
    (hk : k ≠ redisVersion) :
    (ls.foldl (fun out l => out.put l.key (f l)) out).params k =
      (out.params k).or ((ls.find? fun l => l.key = k).map f) := by
  induction ls generalizing out with
  | nil => simp
  | cons l ls ih =>
    rw [List.foldl_cons, ih, ServerInfo.put]
    by_cases hver : l.key = redisVersion
    · have hne : ¬l.key = k := fun h => hk (h ▸ hver)
      rw [if_pos hver, List.find?_cons_of_neg (by simpa using hne)]
    · rw [if_neg hver]
      simp only [emplace]
      by_cases hkey : l.key = k
      · -- a key that is there keeps its value
        rw [List.find?_cons_of_pos (by simpa using hkey), hkey]
        cases hout : out.params k with
        | none => simp
        | some v => simp [hout]
      · rw [List.find?_cons_of_neg (by simpa using hkey)]
        split_ifs
        · rfl
        · rw [Function.update_of_ne (Ne.symm hkey)]

/-- The version after some records: the last one. -/
theorem version_foldl (f : Line → Bytes) (ls : List Line) (out : ServerInfo) :
    (ls.foldl (fun out l => out.put l.key (f l)) out).Version =
      (((ls.filter fun l => l.key = redisVersion).getLast?).map f).getD out.Version := by
  induction ls generalizing out with
  | nil => rfl
  | cons l ls ih =>
    rw [List.foldl_cons, ih, ServerInfo.put]
    by_cases hver : l.key = redisVersion
    · rw [if_pos hver, List.filter_cons_of_pos (by simpa using hver)]
      cases hlast : (ls.filter fun l => l.key = redisVersion).getLast? with
      | none =>
        have hnil := List.getLast?_eq_none_iff.mp hlast
        rw [hnil]
        rfl
      | some l' =>
        rw [List.getLast?_cons, hlast]
        rfl
    · rw [if_neg hver, List.filter_cons_of_neg (by simpa using hver)]

theorem params_version (f : Line → Bytes) (ls : List Line) (out : ServerInfo) :
    (ls.foldl (fun out l => out.put l.key (f l)) out).params redisVersion =
      out.params redisVersion := by
  induction ls generalizing out with
  | nil => rfl
  | cons l ls ih =>
    rw [List.foldl_cons, ih, ServerInfo.put]
    by_cases hver : l.key = redisVersion
    · rw [if_pos hver]
    · rw [if_neg hver]
      simp only [emplace]
      split_ifs
      · rfl
      · rw [Function.update_of_ne (Ne.symm hver)]

/-! ### Replies -/

/-- What the code records when it comes to the end. -/
def recorded (lines : List Line) : ServerInfo :=
  (lines.filter Line.kept).foldl (fun out l => out.put l.key l.cut) {}

/-- Without a line that lacks its colon, what should be recorded is of the lines that are kept. -/
theorem expected_eq {lines : List Line}
    (h : ∀ l ∈ lines, l.kept = true → 58 ∈ l.1 ∧ l.value ≠ []) :
    expected lines = (lines.filter Line.kept).foldl (fun out l => out.put l.key l.value) {} := by
  have hfilter : (lines.filter fun l => l.kept && l.1.contains 58) = lines.filter Line.kept := by
    refine List.filter_congr fun l hl => ?_
    by_cases hkept : l.kept = true
    · rw [hkept, Bool.true_and]
      exact List.contains_iff_mem.mpr (h l hl hkept).1
    · simp [hkept]
  rw [expected, hfilter]

theorem kept_text_nil {lines : List Line} (h : text lines = []) : lines.filter Line.kept = [] := by
  cases lines with
  | nil => rfl
  | cons l ls =>
    obtain ⟨hl, hls⟩ := List.append_eq_nil_iff.mp h
    have hnil : ls = [] := by
      rw [List.flatMap_eq_nil_iff] at hls
      exact List.eq_nil_iff_forall_not_mem.mpr fun l' hl' => by simpa using hls l' hl'
    rw [hnil, List.filter_cons_of_neg (by simp [Line.kept, hl]), List.filter_nil]

/-- The values agree where they are recorded to stay. -/
theorem recorded_iff {lines : List Line}
    (h : ∀ l ∈ lines, l.kept = true → 58 ∈ l.1 ∧ l.value ≠ []) :
    Recorded lines (recorded lines) ↔ Plain lines := by
  constructor
  · intro hrec
    refine ⟨h, fun k hk l hfind => ?_, fun l hlast => ?_⟩
    · have hparams := congrFun hrec.params k
      rw [recorded, expected_eq h, params_foldl _ _ _ hk, params_foldl _ _ _ hk, hfind] at hparams
      exact Line.cut_eq_iff.mp (Option.some.inj hparams)
    · obtain ⟨hkept, hver⟩ := List.mem_filter.mp (List.mem_of_getLast? hlast)
      obtain ⟨hl, hk⟩ := List.mem_filter.mp hkept
      have hversion := hrec.version ⟨l, hl, hk, (h l hl hk).1, of_decide_eq_true hver⟩
      rw [recorded, expected_eq h, version_foldl, version_foldl, hlast] at hversion
      exact Line.cut_eq_iff.mp hversion
  · intro hplain
    constructor
    · funext k
      rw [recorded, expected_eq h]
      by_cases hk : k = redisVersion
      · rw [hk, params_version, params_version]
      · rw [params_foldl _ _ _ hk, params_foldl _ _ _ hk]
        cases hfind : (lines.filter Line.kept).find? fun l => l.key = k with
        | none => rfl
        | some l =>
          have hcut := Line.cut_eq_iff.mpr (hplain.first k hk l hfind)
          rw [Option.map_some, Option.map_some, hcut]
    · intro _
      rw [recorded, expected_eq h, version_foldl, version_foldl]
      cases hlast : ((lines.filter Line.kept).filter fun l => l.key = redisVersion).getLast? with
      | none => rfl
      | some l =>
        have hcut := Line.cut_eq_iff.mpr (hplain.version l hlast)
        rw [Option.map_some, Option.map_some, hcut]

/-- **The reply to INFO**: it is recorded exactly when each line that is no comment has a colon
and something behind it, and no value that stays has a further one. -/
theorem info_iff (lines : List Line) :
    (∃ b out, info {} (text lines) = some (b, out) ∧ Recorded lines out) ↔ Plain lines := by
  by_cases hnil : text lines = []
  · -- an empty reply is no response, and there is nothing to record
    have hkept := kept_text_nil hnil
    have hnone : ∀ l ∈ lines, ¬l.kept = true := fun l hl => List.filter_eq_nil_iff.mp hkept l hl
    have hwhole : ∀ l ∈ lines, l.kept = true → 58 ∈ l.1 ∧ l.value ≠ [] :=
      fun l hl hk => absurd hk (hnone l hl)
    refine iff_of_true ⟨false, _, if_pos hnil, ?_, ?_⟩ ⟨hwhole, ?_, ?_⟩
    · rw [expected_eq hwhole, hkept]
      rfl
    · rintro ⟨l, hl, hk, -⟩
      exact absurd hk (hnone l hl)
    · simp [hkept]
    · simp [hkept]
  · have hinfo : info {} (text lines) = (lines.foldlM keepLine {}).map (true, ·) := by
      rw [info, if_neg hnil, foldlM_parts]
    obtain ⟨hall, hnot⟩ := foldlM_keepLine {} lines
    by_cases hwhole : ∀ l ∈ lines, l.kept = true → 58 ∈ l.1 ∧ l.value ≠ []
    · rw [← recorded_iff hwhole, hinfo, hall hwhole]
      constructor
      · rintro ⟨b, out, heq, hrec⟩
        rw [Option.map_some] at heq
        rw [recorded, (Prod.mk.inj (Option.some.inj heq)).2]
        exact hrec
      · exact fun hrec => ⟨true, recorded lines, rfl, hrec⟩
    · refine iff_of_false ?_ fun h => hwhole h.whole
      rintro ⟨b, out, heq, -⟩
      rw [hinfo, hnot hwhole] at heq
      exact absurd heq (by simp)

/-- A value with a colon in it: of `a:b:c` what is recorded is `b`. -/
theorem not_info :
    ¬∀ lines : List Line, ∃ b out, info {} (text lines) = some (b, out) ∧ Recorded lines out := by
  intro h
  obtain ⟨b, out, heq, hrec⟩ := h [⟨ascii "a:b:c", by decide⟩]
  have hinfo : info {} (text [⟨ascii "a:b:c", by decide⟩]) =
      some (true, ServerInfo.put {} (ascii "a") (ascii "b")) := rfl
  rw [hinfo] at heq
  have hparams := hrec.params
  rw [← (Prod.mk.inj (Option.some.inj heq)).2] at hparams
  have hvalue : some (ascii "b") = some (ascii "b:c") := congrFun hparams (ascii "a")
  exact absurd hvalue (by decide)

/-- A line without a colon, or with nothing behind it, is read behind the end. -/
example : info {} (text [⟨ascii "# Server", by decide⟩, ⟨ascii "os", by decide⟩]) = none ∧
    info {} (text [⟨ascii "role:", by decide⟩]) = none := ⟨rfl, rfl⟩

end RedisInfo

end Suil
