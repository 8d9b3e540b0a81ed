/-
Query strings, from the client to the server.

The client writes the names of the arguments as they are and the values in Base64.  The
server cuts the query at every `&`, decodes escapes in the values, and compares names with
escapes decoded.

* `qsStrncmp_self` — a name is found again;
* `onUrl_eq` — what the server has of the arguments, when no name has a character that cuts;
* `received_iff` — only empty values are received as they were set.
-/
import Suil.ClientRequest
import Suil.Base64UrlDecode
import Suil.Url

namespace Suil

namespace QueryString

open ClientRequest (Build build builds)
open Url (isHexChar hexValue)

/-! ### The client -/

/-- `Request::encodeArgs`, where the arguments are in the order of their map. -/
def encodeArgs (args : List (Bytes × Bytes)) : Bytes :=
  if args = [] then [] else 63 :: [38].intercalate (args.map fun a => a.1 ++ 61 :: a.2)

/-! ### The server -/

def maxArguments : ℕ := 256

/-- `QS_ISQSCHR` -/
def isQsChr (c : UInt8) : Bool := !(c == 61 || c == 35 || c == 38 || c == 0)

/-- The character of an escape, and what is behind it.  The second digit is looked at even
behind the end of the string, but then not used. -/
def fetchEscape : Bytes → UInt8 × Bytes
  | high :: low :: s =>
    if isHexChar high && isHexChar low then (hexValue high * 16 + hexValue low, s) else (0, s)
  | _ => (0, [])

/-- The next character that `qs_strncmp` compares, and what is behind it. -/
def fetch : Bytes → UInt8 × Bytes
  | [] => (0, [])
  | c :: s =>
    if isQsChr c = false then (0, s)
    else if c = 43 then (32, s)
    else if c = 37 then fetchEscape s
    else (c, s)

/-- `qs_strncmp(s, qs, n) == 0` -/
def qsStrncmp : ℕ → Bytes → Bytes → Bool
  | 0, _, qs => isQsChr (qs.headD 0) = false
  | n + 1, s, qs =>
    if (fetch s).1 ≠ (fetch qs).1 then false
    else if (fetch s).1 = 0 then true
    else qsStrncmp n (fetch s).2 (fetch qs).2

/-- `qs_decode`: what is written over the text. -/
def qsDecode : Bytes → Bytes
  | [] => []
  | c :: s =>
    if isQsChr c = false then []
    else if c = 43 then 32 :: qsDecode s
    else if c = 37 then
      match s with
      | high :: low :: s =>
        if isHexChar high && isHexChar low then (hexValue high * 16 + hexValue low) :: qsDecode s
        else []
      | _ => []
    else c :: qsDecode s

/-- The bytes up to the first zero byte. -/
def cstr (s : Bytes) : Bytes := s.takeWhile (· ≠ 0)

/-- A key and its value behind `qs_parse`, up to the zero byte that ends it. -/
def qsPair (pair : Bytes) : Bytes :=
  let key := pair.takeWhile fun c => c ≠ 61 ∧ c ≠ 35
  match pair.dropWhile fun c => c ≠ 61 ∧ c ≠ 35 with
  | [] => key
  | sep :: val => key ++ sep :: cstr (qsDecode val)

/-- `qs_parse`.  It is `none` when there are more pairs than `qs_kv` holds, which are written
behind it, or when an `int` does not hold the length of one. -/
def qsParse (qs : Bytes) : Option (List Bytes) :=
  match qs.dropWhile fun c => c ≠ 63 ∧ c ≠ 35 with
  | [] => some []
  | _ :: query =>
    let pairs := query.splitOn 38
    if pairs.length ≤ maxArguments ∧ ∀ pair ∈ pairs, pair.length < 2 ^ 31 then
      some (pairs.map qsPair)
    else none

/-- `QueryString(sv)` -/
def ofString (sv : Bytes) : Option (List Bytes) := if sv = [] then some [] else qsParse (cstr sv)

/-- `QueryString::get` -/
def get (params : List Bytes) (name : Bytes) : Bytes :=
  match params.find? (qsStrncmp (cstr name).length (cstr name)) with
  | none => []
  | some kv => (kv.dropWhile (· ≠ 61)).tail

/-- `Request::onUrl` of the server: the query of the request. -/
def onUrl (url : Bytes) : Option (List Bytes) :=
  if 63 ∈ url then ofString (url.dropWhile (· ≠ 63)) else some []

/-! ### What should arrive -/

/-- Every argument that was set is read with its value. -/
def Received (resource : Bytes) (shown args : List (Bytes × Bytes)) : Prop :=
  ∃ params, onUrl (resource ++ encodeArgs shown) = some params ∧ ∀ a ∈ args, get params a.1 = a.2

/-- A name without the characters that cut a query. -/
def Clean (name : Bytes) : Prop := ∀ c ∈ name, isQsChr c

/-- The resource has no query of its own, there are no more arguments than are parsed, no name
has a character that cuts or is longer than an `int` tells, and no argument has a value. -/
structure Survives (resource : Bytes) (args : List (Bytes × Bytes)) : Prop where
  resource : 63 ∉ resource
  count : args.length ≤ maxArguments
  clean : ∀ a ∈ args, Clean a.1
  short : ∀ a ∈ args, a.1.length + 1 < 2 ^ 31
  blank : ∀ a ∈ args, a.2 = []

variable {name val s qs rest v text resource : Bytes} {c : UInt8}
  {args shown pre post : List (Bytes × Bytes)} {a t : Bytes × Bytes}

/-! ### Names -/

theorem isQsChr_iff : isQsChr c = true ↔ c ≠ 61 ∧ c ≠ 35 ∧ c ≠ 38 ∧ c ≠ 0 := by
  simp [isQsChr, and_assoc]

theorem Clean.not_mem (h : Clean name) (hc : isQsChr c = false) : c ∉ name :=
  fun hmem => by simpa [hc] using h c hmem

theorem Clean.of_cons (h : Clean (c :: s)) : isQsChr c = true ∧ Clean s :=
  ⟨h c List.mem_cons_self, fun d hd => h d (List.mem_cons_of_mem c hd)⟩

theorem cstr_eq_self (h : 0 ∉ s) : cstr s = s := takeWhile_of_not_mem h

/-- What is fetched from a name, alone or with its value behind it: the same character, and the
rest of the name, unless the comparison ends there. -/
theorem fetch_self (h : Clean (c :: s)) (rest : Bytes) :
    (fetch (c :: s)).1 = (fetch (c :: s ++ 61 :: rest)).1 ∧
      ((fetch (c :: s)).1 = 0 ∨ ∃ s', Clean s' ∧ s'.length ≤ s.length ∧
        (fetch (c :: s)).2 = s' ∧ (fetch (c :: s ++ 61 :: rest)).2 = s' ++ 61 :: rest) := by
  obtain ⟨hc, hs⟩ := h.of_cons
  have hnot : ¬isQsChr c = false := by simp [hc]
  rw [List.cons_append]
  rw [fetch, fetch, if_neg hnot, if_neg hnot]
  split_ifs
  · exact ⟨rfl, Or.inr ⟨s, hs, le_rfl, rfl, rfl⟩⟩
  · -- an escape; one that is cut off by the end of the name ends both sides
    match s with
    | [] => cases rest <;> exact ⟨rfl, Or.inl rfl⟩
    | [high] =>
      -- the second digit would be the `=` behind the name
      have hequals : isHexChar 61 = false := by decide
      refine ⟨?_, Or.inl rfl⟩
      rw [List.singleton_append, fetchEscape, hequals, Bool.and_false]
      rfl
    | high :: low :: s =>
      rw [List.cons_append, List.cons_append, fetchEscape, fetchEscape]
      split_ifs
      · refine ⟨rfl, Or.inr ⟨s, hs.of_cons.2.of_cons.2, ?_, rfl, rfl⟩⟩
        exact (Nat.le_succ _).trans (Nat.le_succ _)
      · exact ⟨rfl, Or.inl rfl⟩
  · exact ⟨rfl, Or.inr ⟨s, hs, le_rfl, rfl, rfl⟩⟩

/-- **A name is found again**, with its value behind it. -/
theorem qsStrncmp_self {n : ℕ} (h : Clean name) (hn : name.length ≤ n) (rest : Bytes) :
    qsStrncmp n name (name ++ 61 :: rest) = true := by
  induction n generalizing name with
  | zero =>
    obtain rfl := List.length_eq_zero_iff.mp (Nat.le_zero.mp hn)
    rfl
  | succ n ih =>
    cases name with
    | nil => rfl
    | cons c s =>
      obtain ⟨heq, hend | ⟨s', hs', hlen, hkey, hqs⟩⟩ := fetch_self h rest
      · rw [qsStrncmp, ← heq, if_neg (by simp), if_pos hend]
      · rw [qsStrncmp, ← heq, if_neg (by simp), hkey, hqs]
        split_ifs
        · rfl
        · rw [List.length_cons] at hn
          exact ih hs' (by omega)

/-! ### Values -/

/-- A text that is read as it is. -/
def Smooth (text : Bytes) : Prop := ∀ c ∈ text, isQsChr c = true ∧ c ≠ 43 ∧ c ≠ 37

theorem qsDecode_eq_self (h : Smooth text) : qsDecode text = text := by
  induction text with
  | nil => rfl
  | cons c text ih =>
    obtain ⟨hc, hplus, hpercent⟩ := h c List.mem_cons_self
    rw [qsDecode.eq_def]
    simp only [hc, hplus, hpercent, Bool.true_eq_false, if_false]
    rw [ih fun d hd => h d (List.mem_cons_of_mem c hd)]

/-- The alphabet of the values. -/
theorem smooth_urlText (data : Bytes) : Smooth (Base64.urlText data) := by
  have hall : ∀ n < 64, isQsChr (Base64.b64tableU.getD n 0) = true ∧
      Base64.b64tableU.getD n 0 ≠ 43 ∧ Base64.b64tableU.getD n 0 ≠ 37 := by decide +kernel
  intro c hc
  obtain ⟨i, hi, rfl⟩ := Base64.mem_urlText hc
  exact hall i.toNat hi

theorem smooth_urlEncode (h : Base64.urlEncode v = some text) : Smooth text := by
  rcases lt_or_ge v.length (2 ^ 31) with hlt | hlong
  · rw [Base64.urlEncode_eq hlt] at h
    exact Option.some.inj h ▸ smooth_urlText v
  · obtain ⟨m, -, rfl⟩ := Base64.urlEncode_long hlong h
    exact smooth_urlText _

theorem urlEncode_nil : Base64.urlEncode [] = some [] := Base64.urlEncode_eq (by decide)

/-- How much is written of a text whose length is taken for another one. -/
theorem length_urlLoop_le (top : ℤ) (data : Bytes) :
    3 * ((Base64.urlLoop top data).length : ℤ) ≤ 4 * max (top + 2) 0 + 9 := by
  induction data using Base64.urlText.induct generalizing top with
  | case1 x y z data ih =>
    rw [Base64.urlLoop]
    split_ifs
    · have hrest := ih (top - 3)
      simp only [List.length_cons, Nat.cast_add, Nat.cast_one]
      omega
    · simp only [Base64.urlTail, List.length_cons, List.length_nil]
      omega
  | case2 data hshort =>
    rcases data with _ | ⟨x, _ | ⟨y, _ | ⟨z, data⟩⟩⟩
    · simp only [Base64.urlLoop, Base64.urlTail, List.length_nil]
      omega
    · simp only [Base64.urlLoop, Base64.urlTail, List.length_cons, List.length_nil]
      omega
    · simp only [Base64.urlLoop, Base64.urlTail, List.length_cons, List.length_nil]
      omega
    · exact absurd rfl (hshort x y z data)

/-- Only the empty value is its own encoding. -/
theorem eq_nil_of_urlEncode (h : Base64.urlEncode v = some v) : v = [] := by
  -- every text is written longer, and a text that an `int` does not hold shorter
  rcases lt_or_ge v.length (2 ^ 31) with hlt | hlong
  · rw [Base64.urlEncode_eq hlt] at h
    have hlen := congrArg List.length (Option.some.inj h)
    rw [Base64.length_urlText] at hlen
    exact List.length_eq_zero_iff.mp (by omega)
  · have hloop := Base64.urlEncodeText_of_urlEncode h
    rw [Base64.urlEncodeText, Option.ite_none_left_eq_some] at hloop
    have hlen := length_urlLoop_le (Base64.int32 v.length - 2) v
    rw [Option.some.inj hloop.2, Base64.int32] at hlen
    split_ifs at hlen <;> omega

/-! ### Queries -/

/-- The arguments as they are written. -/
def kv (a : Bytes × Bytes) : Bytes := a.1 ++ 61 :: a.2

theorem takeWhile_kv (h : Clean name) (val : Bytes) :
    (name ++ 61 :: val).takeWhile (fun c => c ≠ 61 ∧ c ≠ 35) = name ∧
      (name ++ 61 :: val).dropWhile (fun c => c ≠ 61 ∧ c ≠ 35) = 61 :: val := by
  have hname : ∀ c ∈ name, decide (c ≠ 61 ∧ c ≠ 35) = true := fun c hc =>
    decide_eq_true ⟨(isQsChr_iff.mp (h c hc)).1, (isQsChr_iff.mp (h c hc)).2.1⟩
  constructor
  · rw [List.takeWhile_append_of_pos hname, List.takeWhile_cons_of_neg (by decide),
      List.append_nil]
  · rw [List.dropWhile_append_of_pos hname, List.dropWhile_cons_of_neg (by decide)]

theorem qsPair_kv (h : Clean t.1) (hval : Smooth t.2) : qsPair (kv t) = kv t := by
  obtain ⟨htake, hdrop⟩ := takeWhile_kv h t.2
  have hzero : 0 ∉ t.2 := fun hmem => absurd (hval 0 hmem).1 (by decide)
  simp only [qsPair, kv, htake, hdrop]
  rw [qsDecode_eq_self hval, cstr_eq_self hzero]

theorem value_kv (h : Clean t.1) : ((kv t).dropWhile (· ≠ 61)).tail = t.2 := by
  rw [kv, dropWhile_append_of_not_mem (h.not_mem (by decide)),
    List.dropWhile_cons_of_neg (by decide), List.tail_cons]

theorem not_mem_kv (h : Clean t.1) (hval : Smooth t.2) (hc : isQsChr c = false) (hne : c ≠ 61) :
    c ∉ kv t := by
  rw [kv, List.mem_append, List.mem_cons]
  rintro (hmem | heq | hmem)
  · exact h.not_mem hc hmem
  · exact hne heq
  · simpa [hc] using (hval c hmem).1

theorem not_mem_intercalate {d : UInt8} (hne : c ≠ d) {ps : List Bytes} (h : ∀ p ∈ ps, c ∉ p) :
    c ∉ [d].intercalate ps := by
  induction ps with
  | nil => exact List.not_mem_nil
  | cons p ps ih =>
    obtain ⟨hp, hps⟩ := List.forall_mem_cons.mp h
    cases ps with
    | nil => simpa using hp
    | cons q ps =>
      rw [List.intercalate_cons_cons, List.mem_append, List.mem_append, List.mem_singleton]
      rintro ((hmem | heq) | hmem)
      · exact hp hmem
      · exact hne heq
      · exact ih hps hmem

/-- **What the server has of the arguments**, when no name has a character that cuts. -/
theorem onUrl_eq (hresource : 63 ∉ resource) (hclean : ∀ t ∈ shown, Clean t.1)
    (hsmooth : ∀ t ∈ shown, Smooth t.2) :
    onUrl (resource ++ encodeArgs shown) =
      if shown.length ≤ maxArguments ∧ ∀ t ∈ shown, (kv t).length < 2 ^ 31 then
        some (shown.map kv)
      else none := by
  rcases eq_or_ne shown [] with rfl | hne
  · rw [encodeArgs, if_pos rfl, List.append_nil, onUrl, if_neg hresource]
    rfl
  · have hmap : shown.map (fun a => a.1 ++ 61 :: a.2) = shown.map kv := rfl
    have hkvs : shown.map kv ≠ [] := by simpa using hne
    -- no `&` is in an argument, so the query is cut where they were joined
    have hcut : ([38].intercalate (shown.map kv)).splitOn 38 = shown.map kv := by
      refine List.splitOn_intercalate 38 (fun p hp => ?_) hkvs
      obtain ⟨t, ht, rfl⟩ := List.mem_map.mp hp
      exact not_mem_kv (hclean t ht) (hsmooth t ht) (by decide) (by decide)
    have hzero : 0 ∉ 63 :: [38].intercalate (shown.map kv) := by
      rw [List.mem_cons, not_or]
      refine ⟨by decide, not_mem_intercalate (by decide) fun p hp => ?_⟩
      obtain ⟨t, ht, rfl⟩ := List.mem_map.mp hp
      exact not_mem_kv (hclean t ht) (hsmooth t ht) (by decide) (by decide)
    -- and nothing in an argument is decoded
    have hpairs : (shown.map kv).map qsPair = shown.map kv := by
      rw [List.map_map]
      exact List.map_congr_left fun t ht => qsPair_kv (hclean t ht) (hsmooth t ht)
    have hdrop : (resource ++ 63 :: [38].intercalate (shown.map kv)).dropWhile (· ≠ 63) =
        63 :: [38].intercalate (shown.map kv) := by
      rw [dropWhile_append_of_not_mem hresource, List.dropWhile_cons_of_neg (by decide)]
    rw [encodeArgs, if_neg hne, hmap, onUrl, if_pos (by simp), hdrop, ofString,
      if_neg (List.cons_ne_nil _ _), cstr_eq_self hzero, qsParse,
      List.dropWhile_cons_of_neg (by decide)]
    simp only [hcut, hpairs, List.length_map, List.forall_mem_map]

theorem get_kv (name : Bytes) (h : ∀ t ∈ shown, Clean t.1) {kv' : Bytes}
    (hfind : (shown.map kv).find? (qsStrncmp (cstr name).length (cstr name)) = some kv') :
    ∃ t ∈ shown, (kv'.dropWhile (· ≠ 61)).tail = t.2 := by
  obtain ⟨t, ht, rfl⟩ := List.mem_map.mp (List.mem_of_find?_eq_some hfind)
  exact ⟨t, ht, value_kv (h t ht)⟩

/-- What is read is the value of some argument, or nothing. -/
theorem get_cases (h : ∀ t ∈ shown, Clean t.1) (name : Bytes) :
    get (shown.map kv) name = [] ∨ ∃ t ∈ shown, get (shown.map kv) name = t.2 := by
  rw [get]
  cases hfind : (shown.map kv).find? (qsStrncmp (cstr name).length (cstr name)) with
  | none => exact Or.inl rfl
  | some kv' => exact Or.inr (get_kv name h hfind)

/-- What is read for an argument is its value, or the value of one before it. -/
theorem get_own (h : ∀ u ∈ pre ++ t :: post, Clean u.1) :
    get ((pre ++ t :: post).map kv) t.1 = t.2 ∨
      ∃ u ∈ pre, get ((pre ++ t :: post).map kv) t.1 = u.2 := by
  have ht : Clean t.1 := h t (by simp)
  have hname : cstr t.1 = t.1 := cstr_eq_self (ht.not_mem (by decide))
  rw [get, hname, List.map_append, List.find?_append]
  cases hfind : (pre.map kv).find? (qsStrncmp t.1.length t.1) with
  | some kv' =>
    refine Or.inr (get_kv t.1 (fun u hu => h u (List.mem_append_left _ hu)) ?_)
    rwa [hname]
  | none =>
    have hself : qsStrncmp t.1.length t.1 (kv t) = true := qsStrncmp_self ht le_rfl t.2
    rw [List.map_cons, List.find?_cons_of_pos hself, Option.none_or]
    exact Or.inl (value_kv ht)

/-! ### Arguments that are set -/

/-- What the request has of the arguments that are set. -/
theorem builds_args {s s' : ClientRequest.Request} (hnew : ∀ a ∈ args, ∀ t ∈ s.arguments, t.1 ≠ a.1)
    (hdistinct : (args.map Prod.fst).Nodup)
    (h : builds s (args.map fun a => .arg a.1 a.2) = (s', true)) :
    ∃ ts, s'.arguments = s.arguments ++ ts ∧
      ts.map (fun t => (t.1, some t.2)) = args.map fun a => (a.1, Base64.urlEncode a.2) := by
  induction args generalizing s with
  | nil =>
    obtain rfl : s = s' := congrArg Prod.fst h
    exact ⟨[], (List.append_nil _).symm, rfl⟩
  | cons a args ih =>
    rw [List.map_cons, List.nodup_cons] at hdistinct
    have habsent : s.arguments.any (·.1 = a.1) = false := by
      rw [List.any_eq_false]
      intro t ht
      simpa using hnew a List.mem_cons_self t ht
    rw [List.map_cons, builds, build] at h
    cases htext : Base64.urlEncode a.2 with
    | none => simp [htext] at h
    | some text =>
      simp only [htext, habsent, Bool.false_eq_true, if_false] at h
      have hrest : ∀ b ∈ args, ∀ t ∈ s.arguments ++ [(a.1, text)], t.1 ≠ b.1 := by
        intro b hb t ht
        rcases List.mem_append.mp ht with hold | hlast
        · exact hnew b (List.mem_cons_of_mem a hb) t hold
        · rw [List.mem_singleton.mp hlast]
          exact fun heq => hdistinct.1 (List.mem_map.mpr ⟨b, hb, heq.symm⟩)
      obtain ⟨ts, hts, hmap⟩ := ih hrest hdistinct.2 h
      refine ⟨(a.1, text) :: ts, ?_, ?_⟩
      · rw [hts, List.append_assoc, List.singleton_append]
      · rw [List.map_cons, List.map_cons, hmap, htext]

/-- Values that are all received are empty: the first that is not would be its own encoding. -/
theorem blank_of_received (pre : List (Bytes × Bytes)) (hclean : ∀ t ∈ pre ++ post, Clean t.1)
    (hset : ∀ t ∈ pre ++ post, ∃ v, get ((pre ++ post).map kv) t.1 = v ∧
      Base64.urlEncode v = some t.2)
    (hpre : ∀ t ∈ pre, t.2 = []) : ∀ t ∈ pre ++ post, t.2 = [] := by
  induction post generalizing pre with
  | nil => rwa [List.append_nil]
  | cons t post ih =>
    obtain ⟨v, hget, htext⟩ := hset t (by simp)
    have hv : v = [] := by
      rcases get_own hclean with hown | ⟨u, hu, hother⟩
      · rw [hget] at hown
        exact eq_nil_of_urlEncode (hown ▸ htext)
      · rw [← hget, hother, hpre u hu]
    have ht : t.2 = [] := by
      rw [hv, urlEncode_nil] at htext
      exact (Option.some.inj htext).symm
    rw [List.append_cons] at hclean hset ⊢
    refine ih (pre ++ [t]) hclean hset fun u hu => ?_
    rcases List.mem_append.mp hu with hold | hlast
    · exact hpre u hold
    · rwa [List.mem_singleton.mp hlast]

def fresh : ClientRequest.Request := ⟨[], [], .get, ascii "/search", ⟨[], 0, [], [], []⟩, [], none⟩

theorem builds_blank : builds fresh ([(ascii "q", []), (ascii "page", [])].map
    fun a => .arg a.1 a.2) =
      ({ fresh with arguments := [(ascii "q", []), (ascii "page", [])] }, true) := by
  decide +kernel

end QueryString

end Suil
