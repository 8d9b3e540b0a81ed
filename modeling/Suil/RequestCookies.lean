/-
The cookies of a request.

`Request::parseCookies` cuts the header with `split`, which copies the pieces, and cuts names and
values out of them with `substr`, which does not: they point into the pieces, and these are freed
when the call returns.  The length of a name is counted from the start of its piece, also when
spaces come before it.

* `returns_split` — the pieces of a header, up to a zero byte in it;
* `puts_iff` — when the names and values are cut out as they were sent;
* `recovers_iff` — when they can be read behind the call;
* `requestCookies_iff` — both, and the headers that are read within.
-/
import Suil.ClientRequest
import Suil.StringParts
import Suil.StringPieces
import Suil.StringSplitting

open Occurrences

namespace Suil.RequestCookies

open ClientRequest (sameKey)
open Search (cText)
open Splitting (Text split)
open StringPieces (Piece)

/-- A node of the map, with the hash that it keeps. -/
structure Node where
  code : UInt64
  name : Piece
  value : Piece
deriving DecidableEq

/-- A request, as far as its cookies go. -/
structure Request where
  cookiesParsed : Bool
  headers : List (Bytes × Text)
  cookies : List Node

/-- What is behind a `String` of the map outside of the call: a piece that it does not own was
freed. -/
def read (p : Piece) : Option Bytes := if p.own ∨ p.bytes = [] then some p.bytes else none

def Node.pair (c : Node) : Bytes × Bytes := (c.name.bytes, c.value.bytes)

def Node.read (c : Node) : Option (Bytes × Bytes) := do
  return (← RequestCookies.read c.name, ← RequestCookies.read c.value)

section

-- `std::hash<strview>`, and whether the ends of two maps are equal, as they are when both are null
-- pointers.
variable (std : Bytes → UInt64) (sameEnd : Bool)

/-- `emplace` into a map, here in the order of the calls. -/
def emplace (cookies : List Node) (name value : Piece) : List Node :=
  if cookies.any fun c => c.code == std name.bytes && strEq name.bytes c.name.bytes then cookies
  else cookies ++ [⟨std name.bytes, name, value⟩]

/-- A turn of the loop; like the calls below it is none when it leaves the memory or an `int`. -/
def store (cookies : List Node) (part : Bytes) : Option (List Node) := do
  let i := (part.takeWhile isSpace).length
  if i = part.length then some cookies
  else
    match ← Cookies.find part 61 with
    | none => some (emplace std cookies (← StringPieces.substr part i 0 true) ⟨[], false⟩)
    | some pos =>
      some (emplace std cookies (← StringPieces.substr part i pos true)
        (← StringPieces.substr part (pos + 1) 0 true))

namespace Request

def header (r : Request) (name : Bytes) : Option Text :=
  (r.headers.find? fun h => sameKey name h.1).map (·.2)

/-- `Request::parseCookies` -/
def parseCookies (r : Request) (turns : ℕ) : Option (Bool × Request) :=
  if r.cookiesParsed then some (true, r)
  else
    let r := { r with cookiesParsed := true }
    match r.header (ascii "Cookie") with
    | none => some (false, r)
    | some text =>
      match split text (some (ascii ";")) turns with
      | .error _ => none
      | .ok parts =>
        (parts.foldlM (store std) r.cookies).map fun cookies =>
          (true, { r with cookies := cookies })

/-- `_cookies.find`: keys with the hash of the name are compared. -/
def find (name : Bytes) : List Node → Option (Option Node)
  | [] => some none
  | c :: cookies =>
    if c.code = std name then
      match RequestCookies.read c.name with
      | none => none
      | some key => if strEq name key then some (some c) else find name cookies
    else find name cookies

/-- `Request::cookie`, whose iterator is compared with the end of the headers. -/
def cookie (r : Request) (name : Bytes) : Option Bytes :=
  match find std name r.cookies with
  | none => none
  | some none => if sameEnd then some [] else none
  | some (some c) => RequestCookies.read c.value

end Request

/-! ### What is right -/

/-- A cookie and the spaces before it. -/
structure Sent where
  spaces : ℕ
  name : Bytes
  value : Bytes
deriving DecidableEq

namespace Sent

def text (c : Sent) : Bytes := List.replicate c.spaces 32 ++ c.name ++ 61 :: c.value

def pair (c : Sent) : Bytes × Bytes := (c.name, c.value)

end Sent

/-- The cookies of a request: names that are different tokens, and values without a semicolon. -/
structure CookieList where
  sent : List Sent
  names : ∀ c ∈ sent, Cookies.Token c.name
  distinct : (sent.map Sent.name).Nodup
  values : ∀ c ∈ sent, 59 ∉ c.value
  first : ∀ c ∈ sent.head?, c.spaces = 0

/-- The text of their header. -/
def header (cs : List Sent) : Bytes := [59].intercalate (cs.map Sent.text)

/-- A request with a header of cookies, which it owns, or which is a null pointer. -/
structure Arrived where
  request : Request
  text : Text
  unparsed : request.cookiesParsed = false
  empty : request.cookies = []
  header : request.header (ascii "Cookie") = some text
  owned : text.Owned
  short : text.size < 2 ^ 32

/-- The names and values that the call cuts out of the header. -/
def Puts (r : Request) (cs : List (Bytes × Bytes)) : Prop :=
  ∃ turns ok r', r.parseCookies std turns = some (ok, r') ∧ (r'.cookies.map Node.pair).Perm cs

/-- And behind the call they can be read, and looked up; what is absent is empty. -/
def Recovers (r : Request) (cs : List (Bytes × Bytes)) : Prop :=
  ∃ turns ok r', r.parseCookies std turns = some (ok, r') ∧
    (∃ l, r'.cookies.mapM Node.read = some l ∧ l.Perm cs) ∧
    (∀ c ∈ cs, r'.cookie std sameEnd c.1 = some c.2) ∧
    ∀ name, name ∉ cs.map Prod.fst → r'.cookie std sameEnd name = some []

/-- The call returns. -/
def Returns (r : Request) : Prop := ∃ turns, (r.parseCookies std turns).isSome

end

/-- The pieces of a header: up to its first zero byte they end at the semicolons; there is no
empty one at the end. -/
def pieces (s : Bytes) : List Bytes :=
  let cut := (cText s).splitOn 59
  cut.dropLast ++ lastPiece (cut.getLastD [] ++ s.dropWhile (· != 0))

/-- There are no spaces before the cookies, the names are counted by an `int`, and only the last
value may have a zero byte. -/
def CookieList.Plain (cs : CookieList) : Prop :=
  (∀ c ∈ cs.sent, c.spaces = 0 ∧ c.name.length + 1 < 2 ^ 31) ∧
    ∀ c ∈ cs.sent.dropLast, 0 ∉ c.value

/-- What comes before the first equals sign, with it, is counted by an `int`. -/
def Countable (part : Bytes) : Prop :=
  if 61 ∈ part then part.idxOf 61 + 1 < 2 ^ 31 else part.length < 2 ^ 31

instance (part : Bytes) : Decidable (Countable part) :=
  inferInstanceAs (Decidable (if 61 ∈ part then _ else _))

variable {s a u t behind name rest part : Bytes} {ps : List Bytes} {turns : ℕ}

/-! ### The pieces -/

theorem cText_dropWhile (s : Bytes) : cText (s.dropWhile (· != 0)) = [] := by
  rw [cText, List.takeWhile_eq_nil_iff]
  intro hpos hfirst
  have hnot := List.head_dropWhile_not (· != 0) (List.ne_nil_of_length_pos hpos)
  rw [List.head_eq_getElem] at hnot
  exact Bool.false_ne_true (hnot.symm.trans hfirst)

/-- **The pieces of a header** that is no null pointer. -/
theorem returns_split (hlen : s.length < 2 ^ 32) :
    Splitting.Returns (split (.points s []) (some (ascii ";"))) (pieces s) := by
  have hall : cText s ++ s.dropWhile (· != 0) = s := List.takeWhile_append_dropWhile
  have hcuts := cuts_splitOn 59 (cText s)
  have hnot : ¬ [59] <:+: (List.splitOn 59 (cText s)).getLastD [] ++
      cText (s.dropWhile (· != 0) ++ []) := by
    rw [List.append_nil, cText_dropWhile, List.append_nil]
    exact hcuts.not_infix
  have hreturns := Splitting.returns_cutWith_of_rest false (List.cons_ne_nil 59 [])
    (fun hmem => Search.ne_zero_of_mem_cText hmem rfl) (by rwa [hall]) hcuts hnot
  rw [hall] at hreturns
  exact hreturns

theorem split_eq (hlen : s.length < 2 ^ 32)
    (h : split (.points s []) (some (ascii ";")) turns = .ok ps) : ps = pieces s :=
  Splitting.cutWith_unique h (returns_split hlen)

theorem split_null (turns : ℕ) : ∃ e, split .null (some (ascii ";")) turns = .error e := by
  cases turns with
  | zero => exact ⟨_, rfl⟩
  | succ turns => exact ⟨.crash, rfl⟩

theorem pieces_of_not_mem (h : 59 ∉ s) : pieces s = lastPiece s := by
  have hnot : 59 ∉ cText s := fun hmem => h ((Search.cText_front s).subset hmem)
  have hall : cText s ++ s.dropWhile (· != 0) = s := List.takeWhile_append_dropWhile
  rw [pieces, List.splitOn_eq_singleton hnot]
  exact congrArg lastPiece hall

/-- What comes before a zero byte, and from there on. -/
theorem cut_zero (h : 0 ∉ a) (u : Bytes) :
    cText (a ++ 0 :: u) = a ∧ (a ++ 0 :: u).dropWhile (· != 0) = 0 :: u := by
  have hpos : ∀ x ∈ a, (x != 0) = true := fun x hx => bne_iff_ne.mpr fun heq => h (heq ▸ hx)
  rw [Splitting.cText_append h, Search.cText_zero, List.append_nil,
    List.dropWhile_append_of_pos hpos, List.dropWhile_cons_of_neg (by decide)]
  exact ⟨rfl, rfl⟩

/-- A piece with a zero byte is the last one. -/
theorem pieces_append (h : 59 ∉ a) (u : Bytes) :
    pieces (a ++ 59 :: u) = if 0 ∈ a then [a ++ 59 :: u] else a :: pieces u := by
  split_ifs with h0
  · obtain ⟨b, c, rfl, hb⟩ := List.eq_append_cons_of_mem h0
    have hnot : 59 ∉ b := fun hmem => h (List.mem_append_left _ hmem)
    have hcut := cut_zero hb (c ++ 59 :: u)
    rw [List.append_assoc, List.cons_append, pieces, hcut.1, hcut.2,
      List.splitOn_eq_singleton hnot]
    exact lastPiece_of_ne_nil (by simp)
  · have hpos : ∀ x ∈ a, (x != 0) = true := fun x hx => bne_iff_ne.mpr fun heq => h0 (heq ▸ hx)
    have htake : cText (a ++ 59 :: u) = a ++ 59 :: cText u := by
      rw [Splitting.cText_append h0, Search.cText_cons (by decide)]
    have hdrop : (a ++ 59 :: u).dropWhile (· != 0) = u.dropWhile (· != 0) := by
      rw [List.dropWhile_append_of_pos hpos, List.dropWhile_cons_of_pos (by decide)]
    rw [pieces, pieces, htake, hdrop, List.splitOn_append_cons_self_of_not_mem h]
    obtain ⟨q, qs, hq⟩ := List.exists_cons_of_ne_nil (List.splitOn_ne_nil 59 (cText u))
    rw [hq]
    rfl

/-! ### One turn -/

theorem isSpace_of_isTokenChar {x : UInt8} (h : Cookies.isTokenChar x = true) :
    isSpace x = false := by
  by_contra hspace
  rw [Bool.not_eq_false, isSpace, Bool.or_eq_true, beq_iff_eq, Bool.and_eq_true,
    decide_eq_true_eq, decide_eq_true_eq] at hspace
  have hcases : x = 32 ∨ x = 9 ∨ x = 10 ∨ x = 11 ∨ x = 12 ∨ x = 13 := by
    rcases hspace with rfl | ⟨hge, hle⟩
    · exact .inl rfl
    · right
      rw [UInt8.le_iff_toNat_le] at hge hle
      simp only [← UInt8.toNat_inj]
      revert hge hle
      show 9 ≤ x.toNat → x.toNat ≤ 13 → x.toNat = 9 ∨ x.toNat = 10 ∨ x.toNat = 11 ∨ x.toNat = 12 ∨
        x.toNat = 13
      omega
  rcases hcases with rfl | rfl | rfl | rfl | rfl | rfl <;> exact absurd h (by decide)

/-- The name that is cut out of the text of a cookie. -/
def Sent.cut (c : Sent) : Bytes := StringPieces.pieceAt c.text c.spaces (c.spaces + c.name.length)

variable {c : Sent} {std : Bytes → UInt64} {cookies cookies' : List Node}

/-- Without spaces before it that is the name. -/
theorem Sent.cut_eq (hname : Cookies.Token c.name) (h : c.spaces = 0) : c.cut = c.name := by
  have hpos : 0 < c.name.length := List.length_pos_of_ne_nil hname.1
  have htext : c.text = c.name ++ 61 :: c.value := by
    rw [Sent.text, h]
    rfl
  rw [Sent.cut, htext, h, Nat.zero_add, StringPieces.pieceAt, if_neg hpos.ne', if_pos (by simp),
    List.drop_zero, List.take_left]

/-- And with spaces that is no name. -/
theorem Sent.spaces_eq (hname : Cookies.Token c.name) (h : Cookies.Token c.cut) :
    c.spaces = 0 := by
  by_contra hspaces
  have hpos : 0 < c.name.length := List.length_pos_of_ne_nil hname.1
  have hdrop : c.text.drop c.spaces = c.name ++ 61 :: c.value := by
    rw [Sent.text, List.append_assoc]
    exact List.drop_left' List.length_replicate
  rw [Sent.cut, StringPieces.pieceAt, if_neg (by omega), hdrop] at h
  split_ifs at h with hfits
  · refine h.not_mem (by decide : Cookies.isTokenChar 61 = false) ?_
    obtain ⟨n, hn⟩ := Nat.exists_eq_succ_of_ne_zero hspaces
    have hlen : c.spaces + c.name.length = c.name.length + (n + 1) := by omega
    rw [hlen, List.take_length_add_append]
    exact List.mem_append_right _ List.mem_cons_self
  · exact h.1 rfl

/-- **A turn** at the text of a cookie. -/
theorem store_text (hname : Cookies.Token c.name) (hlen : c.text.length < 2 ^ 32)
    (cookies : List Node) :
    store std cookies c.text = if c.spaces + c.name.length + 1 < 2 ^ 31 then
      some (emplace std cookies ⟨c.cut, false⟩ ⟨c.value, false⟩) else none := by
  obtain ⟨x, xs, hx⟩ := List.exists_cons_of_ne_nil hname.1
  have hnot : isSpace x = false :=
    isSpace_of_isTokenChar (hname.2 x (hx ▸ List.mem_cons_self))
  have htake : (c.text.takeWhile isSpace).length = c.spaces := by
    rw [Sent.text, List.append_assoc, List.takeWhile_append_of_pos, hx, List.cons_append,
      List.takeWhile_cons_of_neg (by simp [hnot]), List.append_nil, List.length_replicate]
    intro y hy
    rw [List.eq_of_mem_replicate hy]
    rfl
  have hlength : c.text.length = c.spaces + c.name.length + 1 + c.value.length := by
    simp [Sent.text]
    omega
  have hmem : 61 ∉ List.replicate c.spaces 32 ++ c.name := by
    rw [List.mem_append, not_or]
    refine ⟨fun h => ?_, hname.not_mem (by decide)⟩
    exact absurd (List.eq_of_mem_replicate h) (by decide)
  have hfront : (List.replicate c.spaces (32 : UInt8) ++ c.name).length =
      c.spaces + c.name.length := by simp
  rw [store, htake]
  rw [if_neg (by omega)]
  split_ifs with hcount
  · have hfind : Cookies.find c.text 61 = some (some (c.spaces + c.name.length)) := by
      rw [← hfront]
      exact Cookies.find_separator hmem (by omega) c.value
    have hvalue : StringPieces.pieceAt c.text (c.spaces + c.name.length + 1) 0 = c.value := by
      rw [StringPieces.pieceAt, if_pos rfl, ← hfront, Sent.text, ← List.drop_drop, List.drop_left]
      rfl
    rw [hfind, Option.bind_eq_bind, Option.bind_some]
    dsimp only
    rw [StringPieces.substr_view hlen (by omega), StringPieces.substr_view hlen (by omega), hvalue]
    rfl
  · have hfind : Cookies.find c.text 61 = none := by
      rw [Cookies.find, Sent.text, idxOf?_separator hmem, hfront]
      exact if_neg hcount
    rw [hfind]
    rfl

theorem find_isSome_iff : (Cookies.find part 61).isSome = true ↔ Countable part := by
  by_cases hmem : 61 ∈ part
  · obtain ⟨a, b, rfl, ha⟩ := List.eq_append_cons_of_mem hmem
    rw [Cookies.find, idxOf?_separator ha, Countable, if_pos hmem, List.idxOf_append_of_notMem ha,
      List.idxOf_cons_self]
    dsimp only
    split_ifs with hlt
    · exact iff_of_true rfl hlt
    · exact iff_of_false Bool.false_ne_true hlt
  · rw [Cookies.find, List.idxOf?_eq_none_iff.mpr hmem, Countable, if_neg hmem]
    dsimp only
    split_ifs with hlt
    · exact iff_of_true rfl hlt
    · exact iff_of_false Bool.false_ne_true hlt

theorem lt_length_of_find {pos : ℕ} (h : Cookies.find part 61 = some (some pos)) :
    pos < part.length := by
  by_cases hmem : 61 ∈ part
  · obtain ⟨a, b, rfl, ha⟩ := List.eq_append_cons_of_mem hmem
    rw [Cookies.find, idxOf?_separator ha] at h
    dsimp only at h
    split_ifs at h
    cases h
    simp
  · rw [Cookies.find, List.idxOf?_eq_none_iff.mpr hmem] at h
    dsimp only at h
    split_ifs at h
    cases h

theorem blank_iff :
    (part.takeWhile isSpace).length = part.length ↔ part.all isSpace = true := by
  rw [List.all_eq_true, ← List.takeWhile_eq_self_iff]
  exact ⟨(List.takeWhile_prefix isSpace).eq_of_length, congrArg List.length⟩

theorem store_blank (h : part.all isSpace = true) : store std cookies part = some cookies := by
  rw [store, blank_iff.mpr h]
  exact if_pos rfl

/-- A turn at a piece that is not blank puts a name in. -/
theorem store_eq (hlen : part.length < 2 ^ 32) (hblank : ¬ part.all isSpace = true) :
    if Countable part then
      ∃ name value, ∀ cookies, store std cookies part =
        some (emplace std cookies ⟨name, false⟩ ⟨value, false⟩)
    else ∀ cookies, store std cookies part = none := by
  have hi : ¬ (part.takeWhile isSpace).length = part.length := mt blank_iff.mp hblank
  have hile := (List.takeWhile_prefix (l := part) isSpace).length_le
  have hfind : (Cookies.find part 61).isSome = true ↔ Countable part := find_isSome_iff
  split_ifs with hcount
  · obtain ⟨pos, hpos⟩ := Option.isSome_iff_exists.mp (hfind.mpr hcount)
    cases pos with
    | none =>
      refine ⟨StringPieces.pieceAt part (part.takeWhile isSpace).length 0, [], fun cookies => ?_⟩
      rw [store, if_neg hi, hpos, Option.bind_eq_bind, Option.bind_some]
      dsimp only
      rw [StringPieces.substr_view hlen hile]
      rfl
    | some pos =>
      have hposlt : pos + 1 ≤ part.length := lt_length_of_find hpos
      refine ⟨StringPieces.pieceAt part (part.takeWhile isSpace).length pos,
        StringPieces.pieceAt part (pos + 1) 0, fun cookies => ?_⟩
      rw [store, if_neg hi, hpos, Option.bind_eq_bind, Option.bind_some]
      dsimp only
      rw [StringPieces.substr_view hlen hile, StringPieces.substr_view hlen hposlt]
      rfl
  · intro cookies
    have hnone : Cookies.find part 61 = none := by
      rw [← Option.not_isSome_iff_eq_none]
      exact mt hfind.mp hcount
    rw [store, if_neg hi, hnone]
    rfl

/-! ### All turns -/

variable {parts : List Bytes} {cs : List Sent}

theorem emplace_cases (std : Bytes → UInt64) (cookies : List Node) (name value : Piece) :
    emplace std cookies name value = cookies ∨
      emplace std cookies name value = cookies ++ [⟨std name.bytes, name, value⟩] := by
  rw [emplace]
  split_ifs
  · exact .inl rfl
  · exact .inr rfl

/-- A turn keeps what is there, and puts in one cookie at most. -/
theorem store_grows (hlen : part.length < 2 ^ 32) (h : store std cookies part = some cookies') :
    cookies <+: cookies' ∧ cookies'.length ≤ cookies.length + 1 := by
  by_cases hblank : part.all isSpace = true
  · rw [store_blank hblank] at h
    cases h
    exact ⟨List.prefix_rfl, Nat.le_succ _⟩
  · have heq := @store_eq part std hlen hblank
    split_ifs at heq with hcount
    · obtain ⟨name, value, heq⟩ := heq
      rw [heq cookies] at h
      cases h
      rcases emplace_cases std cookies ⟨name, false⟩ ⟨value, false⟩ with hsame | hmore
      · rw [hsame]
        exact ⟨List.prefix_rfl, Nat.le_succ _⟩
      · rw [hmore]
        exact ⟨List.prefix_append _ _, by simp⟩
    · rw [heq cookies] at h
      cases h

theorem stores_cons (std : Bytes → UInt64) (part : Bytes) (parts : List Bytes)
    (cookies : List Node) : (part :: parts).foldlM (store std) cookies =
      (store std cookies part).bind fun cookies => parts.foldlM (store std) cookies := rfl

/-- All turns. -/
theorem stores_grow (hlen : ∀ p ∈ parts, p.length < 2 ^ 32)
    (h : parts.foldlM (store std) cookies = some cookies') :
    cookies <+: cookies' ∧ cookies'.length ≤ cookies.length + parts.length := by
  induction parts generalizing cookies with
  | nil =>
    cases h
    exact ⟨List.prefix_rfl, le_rfl⟩
  | cons part parts ih =>
    rw [stores_cons] at h
    obtain ⟨mid, hmid, h⟩ := Option.bind_eq_some_iff.mp h
    obtain ⟨hpre, hone⟩ := store_grows (hlen part List.mem_cons_self) hmid
    obtain ⟨hpre', hmore⟩ := ih (fun p hp => hlen p (List.mem_cons_of_mem _ hp)) h
    refine ⟨hpre.trans hpre', ?_⟩
    rw [List.length_cons]
    omega

/-- The turns that stay inside. -/
theorem stores_isSome_iff (hlen : ∀ p ∈ parts, p.length < 2 ^ 32) (cookies : List Node) :
    (parts.foldlM (store std) cookies).isSome = true ↔
      ∀ p ∈ parts, p.all isSpace = true ∨ Countable p := by
  induction parts generalizing cookies with
  | nil => exact iff_of_true rfl fun p hp => absurd hp List.not_mem_nil
  | cons part parts ih =>
    have ih := ih fun p hp => hlen p (List.mem_cons_of_mem _ hp)
    rw [stores_cons, List.forall_mem_cons]
    by_cases hblank : part.all isSpace = true
    · rw [store_blank hblank, Option.bind_some, ih]
      exact (and_iff_right (.inl hblank)).symm
    · have heq := @store_eq part std (hlen part List.mem_cons_self) hblank
      split_ifs at heq with hcount
      · obtain ⟨name, value, heq⟩ := heq
        rw [heq, Option.bind_some, ih]
        exact (and_iff_right (.inr hcount)).symm
      · rw [heq]
        exact iff_of_false Bool.false_ne_true fun h => h.1.elim hblank hcount

/-- When every text of a cookie puts one in, the names are those that are cut out. -/
theorem stores_texts (hnames : ∀ c ∈ cs, Cookies.Token c.name)
    (hlen : ∀ c ∈ cs, c.text.length < 2 ^ 32)
    (h : (cs.map Sent.text).foldlM (store std) cookies = some cookies')
    (hall : cookies'.length = cookies.length + cs.length) :
    (∀ c ∈ cs, c.spaces + c.name.length + 1 < 2 ^ 31) ∧
      cookies'.map Node.pair = cookies.map Node.pair ++ cs.map fun c => (c.cut, c.value) := by
  induction cs generalizing cookies with
  | nil =>
    cases h
    exact ⟨fun c hc => absurd hc List.not_mem_nil, (List.append_nil _).symm⟩
  | cons c cs ih =>
    have hlen' : ∀ c ∈ cs, c.text.length < 2 ^ 32 := fun d hd => hlen d (List.mem_cons_of_mem _ hd)
    rw [List.map_cons, stores_cons, store_text (hnames c List.mem_cons_self)
      (hlen c List.mem_cons_self)] at h
    have hcount : c.spaces + c.name.length + 1 < 2 ^ 31 := by
      by_contra hcount
      rw [if_neg hcount] at h
      cases h
    rw [if_pos hcount, Option.bind_some] at h
    have hgrow := (stores_grow (fun p hp => by
      obtain ⟨d, hd, rfl⟩ := List.mem_map.mp hp
      exact hlen' d hd) h).2
    rw [List.length_map] at hgrow
    rw [List.length_cons] at hall
    rcases emplace_cases std cookies ⟨c.cut, false⟩ ⟨c.value, false⟩ with hsame | hmore
    · rw [hsame] at hgrow
      omega
    · rw [hmore] at h
      obtain ⟨hcounts, hpairs⟩ := ih (fun d hd => hnames d (List.mem_cons_of_mem _ hd)) hlen' h (by
        rw [List.length_append, List.length_singleton]
        omega)
      refine ⟨List.forall_mem_cons.mpr ⟨hcount, hcounts⟩, ?_⟩
      rw [hpairs, List.map_append, List.append_assoc]
      rfl

/-- The node of a cookie. -/
def Sent.node (std : Bytes → UInt64) (c : Sent) : Node :=
  ⟨std c.name, ⟨c.name, false⟩, ⟨c.value, false⟩⟩

/-- Different names without spaces before them are put in. -/
theorem stores_distinct (hnames : ∀ c ∈ cs, Cookies.Token c.name)
    (hlen : ∀ c ∈ cs, c.text.length < 2 ^ 32) (hdistinct : (cs.map Sent.name).Nodup)
    (hspaces : ∀ c ∈ cs, c.spaces = 0) (hcounts : ∀ c ∈ cs, c.name.length + 1 < 2 ^ 31)
    (hnew : ∀ c ∈ cs, ∀ d ∈ cookies, d.name.bytes ≠ c.name) :
    (cs.map Sent.text).foldlM (store std) cookies = some (cookies ++ cs.map (Sent.node std)) := by
  induction cs generalizing cookies with
  | nil => exact congrArg some (List.append_nil _).symm
  | cons c cs ih =>
    rw [List.forall_mem_cons] at hnames hlen hspaces hcounts hnew
    rw [List.map_cons, List.nodup_cons] at hdistinct
    have hcount : c.spaces + c.name.length + 1 < 2 ^ 31 := by
      rw [hspaces.1, Nat.zero_add]
      exact hcounts.1
    have hany :
        (cookies.any fun d => d.code == std c.name && strEq c.name d.name.bytes) = false := by
      rw [List.any_eq_false]
      intro d hd hboth
      rw [Bool.and_eq_true] at hboth
      have hzero : 0 ∉ c.name := hnames.1.not_mem (by decide)
      exact hnew.1 d hd ((strEq_eq_true_iff hzero hnames.1.1).mp hboth.2)
    have hput : emplace std cookies ⟨c.name, false⟩ ⟨c.value, false⟩ = cookies ++ [c.node std] := by
      rw [emplace, hany]
      rfl
    rw [List.map_cons, stores_cons, store_text hnames.1 hlen.1, if_pos hcount, Option.bind_some,
      Sent.cut_eq hnames.1 hspaces.1, hput, ih hnames.2 hlen.2 hdistinct.2 hspaces.2 hcounts.2,
      List.append_assoc]
    · rfl
    · intro d hd e he
      rcases List.mem_append.mp he with he | he
      · exact hnew.2 d hd e he
      · rw [List.mem_singleton.mp he]
        exact fun heq => hdistinct.1 (List.mem_map.mpr ⟨d, hd, heq.symm⟩)

/-! ### The header -/

theorem length_le_of_mem_pieces {p : Bytes} (h : p ∈ pieces s) : p.length ≤ s.length := by
  have hcuts := (cuts_splitOn 59 (cText s)).length_le
  have hall : (cText s).length + (s.dropWhile (· != 0)).length = s.length := by
    rw [← List.length_append]
    exact congrArg List.length List.takeWhile_append_dropWhile
  rw [pieces, List.mem_append] at h
  rcases h with h | h
  · have hle := hcuts p (List.mem_append_left _ h)
    omega
  · have hle := hcuts _ (List.mem_append_right _ (List.mem_singleton.mpr rfl))
    rw [lastPiece] at h
    split_ifs at h
    · cases h
    · rw [List.mem_singleton.mp h, List.length_append]
      omega

theorem not_mem_text (hname : Cookies.Token c.name) (hvalue : 59 ∉ c.value) : 59 ∉ c.text := by
  rw [Sent.text, List.mem_append, List.mem_append, List.mem_cons]
  rintro ((h | h) | h | h)
  · exact absurd (List.eq_of_mem_replicate h) (by decide)
  · exact hname.not_mem (by decide) h
  · exact absurd h (by decide)
  · exact hvalue h

theorem zero_mem_text (hname : Cookies.Token c.name) : 0 ∈ c.text ↔ 0 ∈ c.value := by
  rw [Sent.text, List.mem_append, List.mem_append, List.mem_cons]
  constructor
  · rintro ((h | h) | h | h)
    · exact absurd (List.eq_of_mem_replicate h) (by decide)
    · exact absurd h (hname.not_mem (by decide))
    · exact absurd h (by decide)
    · exact h
  · exact fun h => .inr (.inr h)

theorem header_singleton (c : Sent) : header [c] = c.text := by
  simp [header, List.intercalate]

theorem header_cons_cons (c c' : Sent) (cs : List Sent) :
    header (c :: c' :: cs) = c.text ++ 59 :: header (c' :: cs) := by
  show [59].intercalate (c.text :: c'.text :: cs.map Sent.text) = _
  rw [List.intercalate_cons_cons, List.append_assoc]
  rfl

/-- **The pieces of the header** are the texts of its cookies, when only the last one may have a
zero byte; else there are less. -/
theorem pieces_header (hnames : ∀ c ∈ cs, Cookies.Token c.name)
    (hvalues : ∀ c ∈ cs, 59 ∉ c.value) :
    if ∀ c ∈ cs.dropLast, 0 ∉ c.value then pieces (header cs) = cs.map Sent.text
    else (pieces (header cs)).length < cs.length := by
  induction cs with
  | nil =>
    have hnone : ∀ c ∈ ([] : List Sent).dropLast, 0 ∉ c.value :=
      fun c hc => absurd hc List.not_mem_nil
    rw [if_pos hnone]
    exact pieces_of_not_mem List.not_mem_nil
  | cons c cs ih =>
    have hname := hnames c List.mem_cons_self
    have hnot := not_mem_text hname (hvalues c List.mem_cons_self)
    have ih := ih (fun d hd => hnames d (List.mem_cons_of_mem _ hd))
      fun d hd => hvalues d (List.mem_cons_of_mem _ hd)
    cases cs with
    | nil =>
      have hnone : ∀ d ∈ [c].dropLast, 0 ∉ d.value := fun d hd => absurd hd List.not_mem_nil
      rw [if_pos hnone]
      rw [header_singleton, pieces_of_not_mem hnot, lastPiece_of_ne_nil (by simp [Sent.text])]
      rfl
    | cons c' cs =>
      have hiff : (∀ d ∈ (c :: c' :: cs).dropLast, 0 ∉ d.value) ↔
          0 ∉ c.value ∧ ∀ d ∈ (c' :: cs).dropLast, 0 ∉ d.value := by
        rw [List.dropLast_cons_cons, List.forall_mem_cons]
      rw [header_cons_cons, pieces_append hnot]
      by_cases hzero : 0 ∈ c.value
      · rw [if_pos ((zero_mem_text hname).mpr hzero), if_neg fun h => (hiff.mp h).1 hzero]
        simp
      · rw [if_neg (mt (zero_mem_text hname).mp hzero)]
        split_ifs at ih with hrest
        · rw [if_pos (hiff.mpr ⟨hzero, hrest⟩), ih]
          rfl
        · rw [if_neg fun h => hrest (hiff.mp h).2]
          exact Nat.succ_lt_succ ih

/-- The first piece begins with the first cookie. -/
theorem exists_first (hname : Cookies.Token c.name) (hvalue : 59 ∉ c.value) (cs : List Sent) :
    ∃ rest more, pieces (header (c :: cs)) = Sent.text ⟨c.spaces, c.name, rest⟩ :: more := by
  have hnot := not_mem_text hname hvalue
  cases cs with
  | nil =>
    refine ⟨c.value, [], ?_⟩
    rw [header_singleton, pieces_of_not_mem hnot, lastPiece_of_ne_nil (by simp [Sent.text])]
  | cons c' cs =>
    rw [header_cons_cons, pieces_append hnot]
    split_ifs
    · refine ⟨c.value ++ 59 :: header (c' :: cs), [], ?_⟩
      simp [Sent.text]
    · exact ⟨c.value, _, rfl⟩

/-- **The call**, of a request that arrived. -/
theorem Arrived.parse_iff (a : Arrived) {ok : Bool} {r' : Request} :
    (∃ turns, a.request.parseCookies std turns = some (ok, r')) ↔
      a.text ≠ .null ∧ ∃ cookies, (pieces a.text.bytes).foldlM (store std) [] = some cookies ∧
        ok = true ∧ r' = { a.request with cookiesParsed := true, cookies := cookies } := by
  have hparse : ∀ turns, a.request.parseCookies std turns =
      match split a.text (some (ascii ";")) turns with
      | .error _ => none
      | .ok parts => (parts.foldlM (store std) []).map fun cookies =>
          (true, { a.request with cookiesParsed := true, cookies := cookies }) := by
    intro turns
    have hheader : ({ a.request with cookiesParsed := true } : Request).header (ascii "Cookie") =
        some a.text := a.header
    rw [Request.parseCookies, a.unparsed, if_neg Bool.false_ne_true]
    dsimp only
    rw [hheader]
    dsimp only
    rw [a.empty]
  have howned := a.owned
  have hshort := a.short
  cases ht : a.text with
  | null =>
    rw [ht] at hparse
    refine iff_of_false ?_ fun h => h.1 rfl
    rintro ⟨turns, h⟩
    obtain ⟨e, he⟩ := split_null turns
    rw [hparse, he] at h
    cases h
  | points s behind =>
    rw [ht] at hparse howned hshort
    obtain rfl : behind = [] := howned
    have hsome : ∀ {cookies},
        ((true, ({ a.request with cookiesParsed := true, cookies := cookies } : Request)) =
          (ok, r')) ↔
        ok = true ∧ r' = { a.request with cookiesParsed := true, cookies := cookies } := by
      intro cookies
      rw [Prod.mk.injEq, eq_comm, @eq_comm _ _ r']
    constructor
    · rintro ⟨turns, h⟩
      rw [hparse] at h
      cases hsplit : split (.points s []) (some (ascii ";")) turns with
      | error e =>
        rw [hsplit] at h
        cases h
      | ok parts =>
        rw [hsplit] at h
        obtain rfl := split_eq hshort hsplit
        obtain ⟨cookies, hcookies, heq⟩ := Option.map_eq_some_iff.mp h
        exact ⟨by simp, cookies, hcookies, hsome.mp heq⟩
    · rintro ⟨-, cookies, hcookies, heq⟩
      obtain ⟨turns, hsplit⟩ := returns_split (s := s) hshort
      refine ⟨turns, ?_⟩
      rw [hparse, hsplit]
      exact Option.map_eq_some_iff.mpr ⟨cookies, hcookies, hsome.mpr heq⟩

theorem Arrived.pieces_lt (a : Arrived) : ∀ p ∈ pieces a.text.bytes, p.length < 2 ^ 32 :=
  fun _ hp => (length_le_of_mem_pieces hp).trans_lt a.short

/-- **When the names and values are cut out as they were sent.** -/
theorem puts_iff (std : Bytes → UInt64) (a : Arrived) {cs : CookieList}
    (h : a.text.bytes = header cs.sent) :
    Puts std a.request (cs.sent.map Sent.pair) ↔ a.text ≠ .null ∧ cs.Plain := by
  have hpieces := pieces_header cs.names cs.values
  have hlt := a.pieces_lt
  rw [h] at hlt
  have hlen : ∀ {parts : List Sent}, pieces (header cs.sent) = parts.map Sent.text →
      ∀ c ∈ parts, c.text.length < 2 ^ 32 :=
    fun hmap c hc => hlt _ (hmap ▸ List.mem_map_of_mem hc)
  constructor
  · rintro ⟨turns, ok, r', hparse, hperm⟩
    obtain ⟨hnull, cookies, hstores, rfl, rfl⟩ := a.parse_iff.mp ⟨turns, hparse⟩
    rw [h] at hstores
    have hlength : cookies.length = cs.sent.length := by
      have hlength := hperm.length_eq
      rwa [List.length_map, List.length_map] at hlength
    have hgrow := (stores_grow hlt hstores).2
    rw [List.length_nil, Nat.zero_add] at hgrow
    split_ifs at hpieces with hzero
    · rw [hpieces] at hstores
      obtain ⟨hcounts, hpairs⟩ := stores_texts cs.names (hlen hpieces) hstores (by
        rw [hlength, List.length_nil, Nat.zero_add])
      refine ⟨hnull, fun c hc => ?_, hzero⟩
      -- what is cut out is the name of a cookie
      have hmem : (c.cut, c.value) ∈ cookies.map Node.pair := by
        rw [hpairs]
        exact List.mem_map.mpr ⟨c, hc, rfl⟩
      obtain ⟨d, hd, heq⟩ := List.mem_map.mp (hperm.mem_iff.mp hmem)
      have hcut : d.name = c.cut := congrArg Prod.fst heq
      have hspaces := Sent.spaces_eq (cs.names c hc) (hcut ▸ cs.names d hd)
      have hcount := hcounts c hc
      exact ⟨hspaces, by omega⟩
    · omega
  · rintro ⟨hnull, hplain, hzero⟩
    rw [if_pos hzero] at hpieces
    have hstores := @stores_distinct std [] cs.sent cs.names (hlen hpieces) cs.distinct
      (fun c hc => (hplain c hc).1) (fun c hc => (hplain c hc).2)
      fun c _ d hd => absurd hd List.not_mem_nil
    rw [← hpieces, ← h] at hstores
    obtain ⟨turns, hparse⟩ := a.parse_iff.mpr ⟨hnull, _, hstores, rfl, rfl⟩
    refine ⟨turns, true, _, hparse, ?_⟩
    rw [List.nil_append, List.map_map]
    exact List.Perm.refl _

/-- **Only when there are no cookies** are they what is read behind the call. -/
theorem recovers_iff (std : Bytes → UInt64) (sameEnd : Bool) (a : Arrived) {cs : CookieList}
    (h : a.text.bytes = header cs.sent) :
    Recovers std sameEnd a.request (cs.sent.map Sent.pair) ↔
      cs.sent = [] ∧ a.text ≠ .null ∧ sameEnd = true := by
  constructor
  · rintro ⟨turns, ok, r', hparse, ⟨l, hread, -⟩, -, habsent⟩
    obtain ⟨hnull, cookies, hstores, rfl, rfl⟩ := a.parse_iff.mp ⟨turns, hparse⟩
    have hlt := a.pieces_lt
    rw [h] at hstores hlt
    cases hsent : cs.sent with
    | nil =>
      rw [hsent] at hstores habsent
      cases hstores
      have hcookie := habsent [] List.not_mem_nil
      cases sameEnd with
      | false => cases hcookie
      | true => exact ⟨rfl, hnull, rfl⟩
    | cons c rest =>
      -- the first name is left in a piece that is freed
      have hmem : c ∈ cs.sent := hsent ▸ List.mem_cons_self
      have hname := cs.names c hmem
      have hspaces : c.spaces = 0 := cs.first c (by rw [hsent]; rfl)
      obtain ⟨value, more, hfirst⟩ := exists_first hname (cs.values c hmem) rest
      rw [hsent, hfirst] at hstores hlt
      rw [List.forall_mem_cons] at hlt
      rw [stores_cons, @store_text ⟨c.spaces, c.name, value⟩ std hname hlt.1 []] at hstores
      split_ifs at hstores
      · rw [Option.bind_some, @Sent.cut_eq ⟨c.spaces, c.name, value⟩ hname hspaces] at hstores
        obtain ⟨others, rfl⟩ := (stores_grow hlt.2 hstores).1
        have hfreed : read ⟨c.name, false⟩ = none :=
          if_neg (not_or.mpr ⟨Bool.false_ne_true, hname.1⟩)
        have hnode : Node.read ⟨std c.name, ⟨c.name, false⟩, ⟨value, false⟩⟩ = none := by
          rw [Node.read, hfreed]
          rfl
        change ((⟨std c.name, ⟨c.name, false⟩, ⟨value, false⟩⟩ : Node) :: others).mapM Node.read =
          some l at hread
        rw [List.mapM_cons, hnode] at hread
        cases hread
      · cases hstores
  · rintro ⟨hsent, hnull, rfl⟩
    have hstores : (pieces a.text.bytes).foldlM (store std) [] = some [] := by
      rw [h, hsent]
      rfl
    obtain ⟨turns, hparse⟩ := a.parse_iff.mpr ⟨hnull, _, hstores, rfl, rfl⟩
    rw [hsent]
    exact ⟨turns, true, _, hparse, ⟨[], rfl, List.Perm.refl _⟩,
      fun c hc => absurd hc List.not_mem_nil, fun name _ => rfl⟩

/-- **The headers that are read within.** -/
theorem returns_iff (std : Bytes → UInt64) (a : Arrived) : Returns std a.request ↔
    a.text ≠ .null ∧ ∀ p ∈ pieces a.text.bytes, p.all isSpace = true ∨ Countable p := by
  rw [← @stores_isSome_iff std _ a.pieces_lt []]
  constructor
  · rintro ⟨turns, hsome⟩
    obtain ⟨⟨ok, r'⟩, hparse⟩ := Option.isSome_iff_exists.mp hsome
    obtain ⟨hnull, cookies, hstores, -⟩ := a.parse_iff.mp ⟨turns, hparse⟩
    exact ⟨hnull, Option.isSome_iff_exists.mpr ⟨cookies, hstores⟩⟩
  · rintro ⟨hnull, hsome⟩
    obtain ⟨cookies, hstores⟩ := Option.isSome_iff_exists.mp hsome
    obtain ⟨turns, hparse⟩ := a.parse_iff.mpr ⟨hnull, cookies, hstores, rfl, rfl⟩
    exact ⟨turns, Option.isSome_iff_exists.mpr ⟨_, hparse⟩⟩

/-- **When the cookies of a request are read as they should be**: the names and values that are cut
out, what is left of them behind the call, and the headers that are read within. -/
theorem requestCookies_iff (std : Bytes → UInt64) (sameEnd : Bool) (a : Arrived) :
    (∀ cs : CookieList, a.text.bytes = header cs.sent →
      (Puts std a.request (cs.sent.map Sent.pair) ↔ a.text ≠ .null ∧ cs.Plain) ∧
      (Recovers std sameEnd a.request (cs.sent.map Sent.pair) ↔
        cs.sent = [] ∧ a.text ≠ .null ∧ sameEnd = true)) ∧
    (Returns std a.request ↔
      a.text ≠ .null ∧ ∀ p ∈ pieces a.text.bytes, p.all isSpace = true ∨ Countable p) :=
  ⟨fun _ h => ⟨puts_iff std a h, recovers_iff std sameEnd a h⟩, returns_iff std a⟩

/-- A request with this header alone. -/
def received (s : Bytes) (h : s.length < 2 ^ 32) : Arrived where
  request := ⟨false, [(ascii "Cookie", .points s [])], []⟩
  text := .points s []
  unparsed := rfl
  empty := rfl
  header := by
    have hkey : sameKey (ascii "Cookie") (ascii "Cookie") = true := by decide +kernel
    simp only [Request.header, List.find?_cons, hkey, Option.map_some]
  owned := rfl
  short := h

theorem token_letter {x : UInt8} (h : isAlnum x = true) : Cookies.Token [x] := by
  refine ⟨List.cons_ne_nil x [], fun ch hch => ?_⟩
  rw [List.mem_singleton.mp hch, Cookies.isTokenChar, h]
  rfl

/-- The cookies of `a=1; b=`, with so many spaces. -/
def twoCookies (spaces : ℕ) : CookieList where
  sent := [⟨0, [97], [49]⟩, ⟨spaces, [98], []⟩]
  names := fun c hc => by
    rcases List.mem_pair.mp hc with rfl | rfl
    · exact token_letter rfl
    · exact token_letter rfl
  distinct := show [([97] : Bytes), [98]].Nodup by decide
  values := fun c hc => by
    rcases List.mem_pair.mp hc with rfl | rfl
    · decide
    · exact List.not_mem_nil
  first := fun c hc => by
    cases hc
    rfl

theorem requestCookies_two :
    Puts (fun _ => 0) (received (ascii "a=1;b=") (by decide)).request
      [(ascii "a", ascii "1"), (ascii "b", [])] ∧
    Returns (fun _ => 0) (received (ascii " ;a=1; b=") (by decide)).request := by
  have htwo := requestCookies_iff (fun _ => 0) true (received (ascii "a=1;b=") (by decide))
  have hblank := requestCookies_iff (fun _ => 0) true (received (ascii " ;a=1; b=") (by decide))
  refine ⟨(htwo.1 (twoCookies 0) (by decide +kernel)).1.mpr ⟨by simp [received], ?_, by decide⟩,
    hblank.2.mpr ⟨by simp [received], by decide +kernel⟩⟩
  intro c hc
  rcases List.mem_pair.mp hc with rfl | rfl
  · exact ⟨rfl, by decide⟩
  · exact ⟨rfl, by decide⟩

/-- What is cut out is freed; behind a space it is `b=`, and not `b`. -/
theorem not_requestCookies :
    (¬ ∃ std sameEnd, Recovers std sameEnd (received (ascii "a=1;b=") (by decide)).request
      [(ascii "a", ascii "1"), (ascii "b", [])]) ∧
    ¬ ∃ std, Puts std (received (ascii "a=1; b=") (by decide)).request
      [(ascii "a", ascii "1"), (ascii "b", [])] := by
  constructor
  · rintro ⟨std, sameEnd, h⟩
    have hnil := ((@recovers_iff std sameEnd (received (ascii "a=1;b=") (by decide))
      (twoCookies 0) (by decide +kernel)).mp h).1
    cases hnil
  · rintro ⟨std, h⟩
    have hplain := ((@puts_iff std (received (ascii "a=1; b=") (by decide))
      (twoCookies 1) (by decide +kernel)).mp h).2
    have hspaces := (hplain.1 ⟨1, [98], []⟩ (by decide)).1
    exact absurd hspaces (by decide)

end Suil.RequestCookies
