/-
Finding routes before and after `optimize`.

The reference matches every registered pattern on its own: characters match
themselves, a parameter consumes what its kind allows.  `find` searches the
paths of the trie: all pieces of the routes, or those that `optimize` keeps.

* `patternMatches` — the reference, in terms of what a parameter consumes;
  `patternMatches_iff` — it agrees with matching a path of the trie;
* `reworked_search` — what `find` searches after any operations;
* `findsLeast_iff` — when `find` returns the least index of the patterns that
  match;
* `answersAlike_iff` — when `find` answers the same before and after `optimize`.
-/
import Suil.TrieKept

open Backtrack

namespace Suil

/-- The steps of a pattern: a parameter for every parameter name, and a
character for any other one. -/
def patternStepsFrom : ℕ → Bytes → List Token
  | _, [] => []
  | skip + 1, _ :: cs => patternStepsFrom skip cs
  | 0, c :: cs =>
    match paramTraits.find? fun x => x.2.isPrefixOf (c :: cs) with
    | some (k, name) => .param k :: patternStepsFrom (name.length - 1) cs
    | none => .lit c :: patternStepsFrom 0 cs

def patternSteps (pattern : Bytes) : List Token := patternStepsFrom 0 pattern

/-- The length of the longest numeral in front, signed by one of `signs`; `none`
when there is none or its value is out of range. -/
def numeralLength (signs : Bytes) (least bound : ℤ) (rest : Bytes) : Option ℕ :=
  let sign := if rest.head?.any (· ∈ signs) then 1 else 0
  let digits := (rest.drop sign).takeWhile isDigit
  let v : ℤ := if rest.head? = some 45 then -(decimal digits : ℤ) else decimal digits
  if digits ≠ [] ∧ least ≤ v ∧ v < bound then some (sign + digits.length) else none

section Reference

variable {D : Type} (strtod : Strtod D)

/-- How much of the rest of the URL a parameter consumes. -/
def consume (k : ParamType) (rest : Bytes) : Option ℕ :=
  match k with
  | .int => numeralLength [43, 45] (-2 ^ 63) (2 ^ 63) rest
  | .uint => numeralLength [43] 0 (2 ^ 64) rest
  | .double =>
    if rest.head?.any fun c => isDigit c || c ∈ [43, 45, 46] then (strtod.conv rest).map Prod.snd
    else none
  | .string =>
    let text := rest.takeWhile (· ≠ 47)
    if text = [] then none else some text.length
  | .path => if rest = [] then none else some rest.length

/-- The steps of a pattern match the whole URL. -/
def patternMatches : List Token → Bytes → Bool
  | [], rest => rest = []
  | .lit _ :: _, [] => false
  | .lit c :: p, b :: rest => b = c && patternMatches p rest
  | .param k :: p, rest => (consume strtod k rest).any fun n => patternMatches p (rest.drop n)

variable {strtod}

/-- Without leading space the sign is the first character. -/
theorem scanInteger_cons {c : UInt8} (hc : isSpace c = false) (cs : Bytes) :
    scanInteger (c :: cs) =
      let sign := if c = 43 ∨ c = 45 then 1 else 0
      let digits := ((c :: cs).drop sign).takeWhile isDigit
      if digits = [] then none else some (decide (c = 45), digits, sign + digits.length) := by
  simp [scanInteger, signLength, hc]

theorem numeralLength_of_not_digit {signs : Bytes} {c : UInt8} (hc : isDigit c = false)
    (hsign : c ∉ signs) (least bound : ℤ) (cs : Bytes) :
    numeralLength signs least bound (c :: cs) = none := by
  simp [numeralLength, hc, hsign]

theorem not_isSpace {c : UInt8} (hc : isDigit c = true ∨ c = 43 ∨ c = 45) : isSpace c = false := by
  rcases hc with hc | rfl | rfl
  · simp only [isDigit, Bool.and_eq_true, decide_eq_true_eq] at hc
    have hle : ¬c ≤ 13 := by
      have hlow := UInt8.le_iff_toNat_le.mp hc.1
      rw [UInt8.le_iff_toNat_le]
      simp at hlow ⊢
      omega
    have hne : c ≠ 32 := by
      rintro rfl
      exact absurd hc.1 (by decide)
    simp [isSpace, hle, hne]
  · decide
  · decide

theorem scan_int (rest : Bytes) :
    (scan strtod .int rest).map Prod.snd = consume strtod .int rest := by
  cases rest with
  | nil => rfl
  | cons c cs =>
    have hscan : scan strtod .int (c :: cs) = if isDigit c = true ∨ c = 43 ∨ c = 45 then
        (strtoll (c :: cs)).map fun x => (.int x.1, x.2) else none := rfl
    rw [hscan, consume]
    by_cases hc : isDigit c = true ∨ c = 43 ∨ c = 45
    · rw [if_pos hc]
      have hsign : (if (c :: cs).head?.any (· ∈ [43, 45]) then 1 else 0) =
          if c = 43 ∨ c = 45 then 1 else 0 := by simp
      simp only [strtoll, scanInteger_cons (not_isSpace hc), numeralLength, hsign]
      generalize ((c :: cs).drop (if c = 43 ∨ c = 45 then 1 else 0)).takeWhile isDigit = digits
      by_cases hd : digits = []
      · simp [hd]
      · simp only [hd, if_false, List.head?_cons, Option.some.injEq, ne_eq, not_false_eq_true,
          true_and, decide_eq_true_eq]
        split_ifs <;> rfl
    · rw [if_neg hc]
      simp only [not_or] at hc
      rw [numeralLength_of_not_digit (by simpa using hc.1) (by simp [hc.2])]
      rfl

theorem scan_uint (rest : Bytes) :
    (scan strtod .uint rest).map Prod.snd = consume strtod .uint rest := by
  cases rest with
  | nil => rfl
  | cons c cs =>
    have hscan : scan strtod .uint (c :: cs) = if isDigit c = true ∨ c = 43 then
        (strtoull (c :: cs)).map fun x => (.uint x.1, x.2) else none := rfl
    rw [hscan, consume]
    by_cases hc : isDigit c = true ∨ c = 43
    · rw [if_pos hc]
      -- The guard lets no minus sign through.
      have hminus : c ≠ 45 := by
        rintro rfl
        simp [isDigit] at hc
      have hspace := not_isSpace (hc.imp_right Or.inl)
      have hsign : (if (c :: cs).head?.any (· ∈ [43]) then 1 else 0) =
          if c = 43 ∨ c = 45 then 1 else 0 := by simp [hminus]
      simp only [strtoull, scanInteger_cons hspace, numeralLength, hsign]
      generalize ((c :: cs).drop (if c = 43 ∨ c = 45 then 1 else 0)).takeWhile isDigit = digits
      by_cases hd : digits = []
      · simp [hd]
      · have hbound : ((0 : ℤ) ≤ decimal digits ∧ (decimal digits : ℤ) < 2 ^ 64) ↔
            decimal digits < 2 ^ 64 := by norm_cast; omega
        simp only [hd, if_false, List.head?_cons, Option.some.injEq, hminus, ne_eq,
          not_false_eq_true, true_and, decide_false, Bool.false_eq_true, hbound]
        split_ifs <;> rfl
    · rw [if_neg hc]
      simp only [not_or] at hc
      rw [numeralLength_of_not_digit (by simpa using hc.1) (by simp [hc.2])]
      rfl

/-- A parameter of the trie consumes what the reference lets it consume. -/
theorem scan_length (k : ParamType) (rest : Bytes) :
    (scan strtod k rest).map Prod.snd = consume strtod k rest := by
  cases k with
  | int => exact scan_int rest
  | uint => exact scan_uint rest
  | double =>
    cases rest with
    | nil => rfl
    | cons c cs =>
      have hscan : scan strtod .double (c :: cs) =
          if isDigit c = true ∨ c = 43 ∨ c = 45 ∨ c = 46 then
            (strtod.conv (c :: cs)).map fun x => (.double x.1, x.2) else none := rfl
      rw [hscan]
      simp only [consume, List.head?_cons, Option.any_some, Bool.or_eq_true, decide_eq_true_eq,
        List.mem_cons, List.not_mem_nil, or_false]
      by_cases hc : isDigit c = true ∨ c = 43 ∨ c = 45 ∨ c = 46
      · rw [if_pos hc, if_pos hc, Option.map_map]
        rfl
      · rw [if_neg hc, if_neg hc]
        rfl
  | string =>
    simp only [scan, consume]
    split_ifs <;> rfl
  | path =>
    simp only [scan, consume]
    split_ifs <;> rfl

theorem patternMatches_iff (p : List Token) (rest : Bytes) :
    patternMatches strtod p rest = true ↔ RoutesTrie.Matches strtod p rest := by
  induction p generalizing rest with
  | nil => simp [patternMatches, RoutesTrie.Matches, matchPattern]
  | cons tok p ih =>
    cases tok with
    | lit c =>
      cases rest with
      | nil => simp [patternMatches, RoutesTrie.Matches, matchPattern]
      | cons b rest =>
        simp only [patternMatches, RoutesTrie.Matches, matchPattern, Bool.and_eq_true,
          decide_eq_true_eq, ih, Option.ite_none_right_eq_some, exists_and_left]
    | param k =>
      simp only [patternMatches, RoutesTrie.Matches, matchPattern, ← scan_length]
      rcases hscan : scan strtod k rest with _ | ⟨v, n⟩
      · simp
      · simp only [Option.map_some, Option.any_some, ih, RoutesTrie.Matches, Option.bind_eq_bind,
          Option.bind_some, Option.bind_eq_some_iff, Option.some.injEq, Prod.mk.injEq, Prod.exists]
        constructor
        · rintro ⟨vs, hvs⟩
          exact ⟨_, vs, [], hvs, rfl, rfl⟩
        · rintro ⟨_, vs, _, hvs, -, rfl⟩
          exact ⟨vs, hvs⟩

end Reference

namespace RoutesTrie

/-! ### What `find` searches -/

/-- The paths of the trie after operations. -/
def Searched (routes : List (Bytes × ℕ)) (ops : List Op) (q : List Token) : Prop :=
  Piece routes q ∧ (Merges routes ops → KeptPiece routes q)

/-- No route holds a zero byte, or the URL does not. -/
def Plain (routes : List (Bytes × ℕ)) (url : Bytes) : Prop :=
  (∀ x ∈ routes, ∀ b ∈ x.1, b ≠ 0) ∨ (0 : UInt8) ∉ url

/-- A trie that `find` searches for the URL along the paths `paths` and that
holds the indices of the routes. -/
structure Searches (routes : List (Bytes × ℕ)) (paths : List Token → Prop) (url : Bytes)
    (u : RoutesTrie) : Prop where
  shaped : u.Shaped url
  paths : (fun q => ∃ a, u.IndexAt q a) = paths
  indices : ∀ q n, n ≠ 0 → (u.IndexAt q n ↔ ∃ x ∈ routes, tokens x.1 = q ∧ x.2 = n)

section Searches

variable {D : Type} {strtod : Strtod D} {routes : List (Bytes × ℕ)} {t u : RoutesTrie} {url : Bytes}

theorem registered_searches (hreg : registerAll routes = .ok t) (url : Bytes) :
    Searches routes (Piece routes) url t := by
  have hwf := (registerAll_stores hreg).wf
  refine ⟨hwf.shaped url, ?_, fun q n hn => ?_⟩
  · rw [indexAt_paths hwf, piece_eq hreg]
  · rw [indexAt_iff_lookup hwf, lookup_eq_some_iff_route hreg hn]

theorem OptimizedFor.searches (h : OptimizedFor routes u) (hplain : Plain routes url) :
    Searches routes (KeptPiece routes) url u :=
  ⟨h.optimized.branching.shaped (hplain.imp_left (h.letters _)),
    funext fun q => propext (h.paths q), h.indices⟩

/-- **What `find` searches after any operations.** -/
theorem reworked_search (hreg : registerAll routes = .ok t) (ops : List Op)
    (hplain : Merges routes ops → Plain routes url) :
    ∃ u, reworked ops t = some u ∧ Searches routes (Searched routes ops) url u := by
  obtain ⟨u, hu, ⟨hno, rfl⟩ | ⟨hyes, hopt⟩⟩ := reworked_registered hreg ops
  · have heq : Searched routes ops = Piece routes := by
      funext q
      simp [Searched, hno]
    exact ⟨u, hu, heq ▸ registered_searches hreg url⟩
  · have heq : Searched routes ops = KeptPiece routes := by
      funext q
      simp only [Searched, hyes, true_implies, eq_iff_iff, and_iff_right_iff_imp]
      exact KeptPiece.piece
    exact ⟨u, hu, heq ▸ hopt.searches (hplain hyes)⟩

/-- The index that `find` returns is that of the first path with the least index
among the routes that match. -/
theorem Searches.find_index {paths : List Token → Prop} (h : Searches routes paths url u) {r : ℕ} {params : RoutingParams D} (hfind : u.find strtod url = some (r, params)) :
    (r ≠ 0 → ∃ x ∈ routes, x.2 = r ∧ Matches strtod (tokens x.1) url) ∧
      ∀ x ∈ routes, x.2 ≠ 0 → Matches strtod (tokens x.1) url → r ≠ 0 ∧ r ≤ x.2 := by
  obtain ⟨hfound, hleast⟩ := find_found h.shaped hfind
  constructor
  · intro hr
    obtain ⟨q, k, vs, hq⟩ := hfound hr
    obtain ⟨x, hx, rfl, hn⟩ := (h.indices q r hr).mp hq.index
    exact ⟨x, hx, hn, vs, hq.matched⟩
  · intro x hx hn hmatch
    exact hleast _ _ ((h.indices _ _ hn).mpr ⟨x, hx, rfl, rfl⟩) hn hmatch

theorem Searches.find_eq_none_iff {paths : List Token → Prop} (h : Searches routes paths url u) :
    u.find strtod url = none ↔ Overflows strtod paths url := by
  rw [h.shaped.find_eq_none_iff, h.paths]

end Searches

/-! ### The least index -/

section Least

variable {D : Type} (strtod : Strtod D)

/-- After the operations `find` returns the least index among the patterns that
match the URL, and 0 when there is none. -/
def FindsLeast (routes : List (Bytes × ℕ)) (ops : List Op) (t : RoutesTrie) (url : Bytes) : Prop :=
  ∃ u r params, reworked ops t = some u ∧ u.find strtod url = some (r, params) ∧
    ((r = 0 ∧ ∀ x ∈ routes, patternMatches strtod (patternSteps x.1) url = false) ∨
      ∃ x ∈ routes, x.2 = r ∧ patternMatches strtod (patternSteps x.1) url = true ∧
        ∀ y ∈ routes, patternMatches strtod (patternSteps y.1) url = true → r ≤ y.2)

/-- A pattern and the pattern without the braces that open no parameter name
both match the URL. -/
def MatchesEither (pattern url : Bytes) : Prop :=
  patternMatches strtod (patternSteps pattern) url = true ∧
    patternMatches strtod (tokens pattern) url = true

/-- Whenever a pattern and the pattern without its stray braces do not match
alike, a route with a smaller index matches either way. -/
def StrayBracesAside (routes : List (Bytes × ℕ)) (url : Bytes) : Prop :=
  ∀ x ∈ routes, patternMatches strtod (patternSteps x.1) url = patternMatches strtod (tokens x.1) url ∨
    ∃ y ∈ routes, y.2 < x.2 ∧ MatchesEither strtod y.1 url

variable {strtod}

/-- **When `find` returns the least index.** -/
theorem findsLeast_iff {routes : List (Bytes × ℕ)} {t : RoutesTrie}
    (hreg : registerAll routes = .ok t) (hne : ∀ x ∈ routes, x.2 ≠ 0)
    (hdist : (routes.map Prod.snd).Nodup) (ops : List Op)
    (url : Bytes) (hplain : Merges routes ops → Plain routes url) :
    FindsLeast strtod routes ops t url ↔
      ¬Overflows strtod (Searched routes ops) url ∧ StrayBracesAside strtod routes url := by
  obtain ⟨u, hu, hsearch⟩ := reworked_search hreg ops hplain
  have hnone : u.find strtod url = none ↔ _ := hsearch.find_eq_none_iff
  rcases hfind : u.find strtod url with _ | ⟨r, params⟩
  · -- The process dies.
    refine iff_of_false ?_ fun h => h.1 (hnone.mp hfind)
    rintro ⟨u', r, params, hu', hfind', -⟩
    obtain rfl : u = u' := Option.some.inj (hu.symm.trans hu')
    rw [hfind] at hfind'
    exact absurd hfind' (by simp)
  have hov : ¬Overflows strtod (Searched routes ops) url := fun h => by
    rw [hnone.mpr h] at hfind
    exact absurd hfind (by simp)
  obtain ⟨hfound, hleast⟩ := hsearch.find_index hfind
  have huniq : ∀ x ∈ routes, ∀ y ∈ routes, x.2 = y.2 → x = y := fun x hx y hy =>
    List.inj_on_of_nodup_map hdist hx hy
  simp only [← patternMatches_iff] at hfound hleast
  rw [and_iff_right hov]
  constructor
  · rintro ⟨u', r', params', hu', hfind', hcase⟩ x hx
    obtain rfl : u = u' := Option.some.inj (hu.symm.trans hu')
    obtain ⟨rfl, -⟩ := Prod.mk.inj (Option.some.inj (hfind.symm.trans hfind'))
    by_cases hsame : patternMatches strtod (patternSteps x.1) url =
        patternMatches strtod (tokens x.1) url
    · exact .inl hsame
    right
    rcases hcase with ⟨rfl, hno⟩ | ⟨y, hy, rfl, hmatch, hmin⟩
    · -- Nothing matches either way.
      have hfalse : patternMatches strtod (tokens x.1) url = false := by
        by_contra h
        exact (hleast x hx (hne x hx) (by simpa using h)).1 rfl
      exact absurd ((hno x hx).trans hfalse.symm) hsame
    · obtain ⟨z, hz, hzy, hzmatch⟩ := hfound (hne y hy)
      obtain rfl := huniq z hz y hy hzy
      have hle : z.2 ≤ x.2 := by
        by_cases hx' : patternMatches strtod (patternSteps x.1) url = true
        · exact hmin x hx hx'
        · have hother : patternMatches strtod (tokens x.1) url = true := by
            by_contra h
            exact hsame (by rw [Bool.not_eq_true] at hx' h; rw [hx', h])
          exact (hleast x hx (hne x hx) hother).2
      refine ⟨z, hz, lt_of_le_of_ne hle fun heq => ?_, hmatch, hzmatch⟩
      obtain rfl := huniq z hz x hx heq
      exact hsame (hmatch.trans hzmatch.symm)
  · intro haside
    refine ⟨u, r, params, hu, hfind, ?_⟩
    by_cases hr : r = 0
    · refine .inl ⟨hr, fun x hx => ?_⟩
      have hfalse : ∀ y ∈ routes, patternMatches strtod (tokens y.1) url = false := by
        intro y hy
        by_contra h
        exact (hleast y hy (hne y hy) (by simpa using h)).1 hr
      rcases haside x hx with hsame | ⟨y, hy, -, -, hmatch⟩
      · rw [hsame, hfalse x hx]
      · rw [hfalse y hy] at hmatch
        exact absurd hmatch (by simp)
    · right
      obtain ⟨x, hx, rfl, hmatch⟩ := hfound hr
      refine ⟨x, hx, rfl, ?_, fun y hy hy' => ?_⟩
      · rcases haside x hx with hsame | ⟨y, hy, hlt, -, hy'⟩
        · rw [hsame, hmatch]
        · have := (hleast y hy (hne y hy) hy').2
          omega
      · rcases haside y hy with hsame | ⟨z, hz, hlt, -, hz'⟩
        · exact (hleast y hy (hne y hy) (hsame ▸ hy')).2
        · have := (hleast z hz (hne z hz) hz').2
          omega

theorem findsLeast_iff_sharing : ∃ t, registerAll sharing = .ok t ∧
    (FindsLeast Strtod.whole sharing [.optimize] t (ascii "/5/6") ↔
      ¬Overflows Strtod.whole (Searched sharing [.optimize]) (ascii "/5/6") ∧
        StrayBracesAside Strtod.whole sharing (ascii "/5/6")) :=
  ⟨_, rfl, findsLeast_iff rfl (by decide) (by decide) _ _ fun _ => .inl (by decide +kernel)⟩

/-- A route with 129 parameters. -/
def piled : List (Bytes × ℕ) := [((List.replicate 129 (ascii "/{str}")).flatten, 1)]

/-- A URL with 129 pieces. -/
def piledUrl : Bytes := (List.replicate 129 (ascii "/a")).flatten

/-- One route whose values do not fit is the end of the process. -/
theorem overflows_single {route url r : Bytes} {n : ℕ} {vs : List (Value D)}
    (h : matchPattern strtod (tokens route) url = some (vs, r))
    (hfit : RoutingParams.fits vs = false) : Overflows strtod (Piece [(route, n)]) url := by
  refine ⟨[], tokens route, [], url, vs, r, .inr ⟨(route, n), by simp, List.prefix_rfl⟩, rfl, h,
    hfit, fun c x y q p heq hpiece _ hxy => ?_⟩
  -- No other path parts from the route.
  rcases hpiece with hnil | ⟨z, hz, hpre⟩
  · exact absurd hnil (by simp)
  · obtain rfl := List.mem_singleton.mp hz
    rw [List.nil_append] at heq
    rw [heq, List.prefix_append_right_inj] at hpre
    obtain ⟨rfl, -⟩ := List.cons_prefix_cons.mp hpre
    exact absurd hxy (lt_irrefl _)

theorem registerAll_single (route : Bytes) (n : ℕ) :
    registerAll [(route, n)] = .ok (empty.add route n).2 := by
  have hadd : (empty.add route n).1 = .ok () := by
    rw [add_eq_ok_iff empty_stores.wf]
    rcases hlook : empty.lookup (tokens route) with _ | m
    · rfl
    · by_contra hm
      simpa using (empty_stores.indices _ _ hm).mp hlook
  rcases hres : empty.add route n with ⟨res, t⟩
  rw [hres] at hadd
  subst hadd
  simp [registerAll, hres, pure, Except.pure, bind, Except.bind]

/-- The route matches, but the process dies growing the container. -/
theorem not_findsLeast : ∃ t, registerAll piled = .ok t ∧ (∀ x ∈ piled, x.2 ≠ 0) ∧
    (piled.map Prod.snd).Nodup ∧
    (∀ x ∈ piled, patternMatches Strtod.whole (patternSteps x.1) piledUrl = true) ∧
    ¬FindsLeast Strtod.whole piled [] t piledUrl := by
  have hreg := registerAll_single (List.replicate 129 (ascii "/{str}")).flatten 1
  refine ⟨_, hreg, by decide, by decide, by decide +kernel, ?_⟩
  rintro ⟨u, r, params, hu, hfind, -⟩
  obtain rfl : _ = u := Option.some.inj hu
  have hvalues : ((matchPattern Strtod.whole (tokens (List.replicate 129 (ascii "/{str}")).flatten)
      piledUrl).any fun x => !RoutingParams.fits x.1) = true := by decide +kernel
  obtain ⟨⟨vs, rest⟩, hmatch, hfit⟩ := (Option.any_eq_true _ _).mp hvalues
  have hnone := (registered_searches hreg piledUrl).find_eq_none_iff.mpr
    (overflows_single hmatch (by simpa using hfit))
  rw [hnone] at hfind
  exact absurd hfind (by simp)

end Least

/-! ### The same answer -/

theorem Precedes.asymm {p q : List Token} (h : Precedes p q) : ¬Precedes q p := by
  have hearlier : ∀ {p q : List Token}, Precedes p q →
      Earlier Before (spelled p : Path Token Unit) (spelled q) := by
    rintro p q ⟨c, x, y, p', q', rfl, rfl, hxy⟩
    exact earlier_iff.mpr ⟨spelled c, (x, none), (y, none), spelled p', spelled q',
      by simp [spelled], by simp [spelled], hxy⟩
  exact fun h' => (hearlier h).asymm (hearlier h')

section Alike

variable {D : Type} (strtod : Strtod D)

/-- The containers hold the same values. -/
structure SameValues (p p' : RoutingParams D) : Prop where
  ints : p.intParams.items = p'.intParams.items
  uints : p.uintParams.items = p'.uintParams.items
  doubles : p.doubleParams.items = p'.doubleParams.items
  strs : p.stringParams.items = p'.stringParams.items

/-- `find` returns the same index and the same values from both tries. -/
def SameAnswer (t u : RoutesTrie) (url : Bytes) : Prop :=
  ∃ r p p', t.find strtod url = some (r, p) ∧ u.find strtod url = some (r, p') ∧ SameValues p p'

/-- After `optimize` and any further operations `find` answers as before, and the
links are those of a tree. -/
def AnswersAlike (t : RoutesTrie) (url : Bytes) : Prop :=
  ∀ ops, ∃ u, reworked (.optimize :: ops) t = some u ∧ SameAnswer strtod t u url ∧ u.Linked

/-- The pattern that `find` picks: the first one with the least index among those
that match. -/
def Picked (routes : List (Bytes × ℕ)) (url : Bytes) (p : List Token) : Prop :=
  ∃ x ∈ routes, tokens x.1 = p ∧ x.2 ≠ 0 ∧ Matches strtod p url ∧
    ∀ y ∈ routes, y.2 ≠ 0 → Matches strtod (tokens y.1) url →
      x.2 < y.2 ∨ (x.2 = y.2 ∧ (p = tokens y.1 ∨ Precedes p (tokens y.1)))

/-- The pattern picked loses its values to pieces that `optimize` keeps, if to
any. -/
def KeepsLosses (routes : List (Bytes × ℕ)) (url : Bytes) : Prop :=
  ∀ p, Picked strtod routes url p → ∀ c, Shares strtod (Piece routes) p url c →
    paramCount c = 0 ∨ ∃ c', Shares strtod (KeptPiece routes) p url c' ∧ paramCount c ≤ paramCount c'

variable {strtod}

theorem tryEdge_zero {search : ℕ → Bytes → RoutingParams D → Option (RouterParams D × RoutingParams D)}
    {rest : Bytes} {s s' : RouterParams D × RoutingParams D} {e : Edge}
    (hs : s.1.1 = 0 → s.1.2 = .empty) (h : tryEdge strtod search rest s e = some s') :
    s'.1.1 = 0 → s'.1.2 = .empty := by
  have hupdate : ∀ ret : RouterParams D, (updateFound s.1 ret).1 = 0 →
      (updateFound s.1 ret).2 = .empty := by
    intro ret
    rw [updateFound]
    split_ifs with hret
    · exact fun h => absurd h hret.1
    · exact hs
  rw [tryEdge] at h
  rcases htake : e.take strtod rest with _ | ⟨_ | v, rest'⟩
  · simp only [htake, Option.some.injEq] at h
    exact h ▸ hs
  · simp only [htake, Option.bind_eq_bind, Option.bind_eq_some_iff, Option.some.injEq] at h
    obtain ⟨⟨ret, params⟩, -, rfl⟩ := h
    exact hupdate ret
  · simp only [htake, Option.bind_eq_bind, Option.bind_eq_some_iff, Option.some.injEq] at h
    obtain ⟨params, -, ⟨ret, params'⟩, -, rfl⟩ := h
    exact hupdate ret

/-- Under the index 0 `find` returns no values. -/
theorem find_zero {t : RoutesTrie} {url : Bytes} {params : RoutingParams D}
    (h : t.find strtod url = some (0, params)) : params = .empty := by
  obtain ⟨⟨ret, rest⟩, hfind, hret⟩ := Option.map_eq_some_iff.mp h
  cases url with
  | nil =>
    rw [findFrom, Option.some_inj, Prod.mk.injEq] at hfind
    rw [← hfind.1] at hret
    exact (Prod.mk.inj hret).2.symm
  | cons c url =>
    have hfold : ∀ (es : List Edge) (s s' : RouterParams D × RoutingParams D),
        (s.1.1 = 0 → s.1.2 = .empty) →
        es.foldlM (tryEdge strtod (t.findFrom strtod (url.length + 1)) (c :: url)) s = some s' →
        s'.1.1 = 0 → s'.1.2 = .empty := by
      intro es
      induction es with
      | nil =>
        intro s s' hs h
        rw [List.foldlM_nil, Option.pure_def, Option.some_inj] at h
        exact h ▸ hs
      | cons e es ih =>
        intro s s' hs h
        rw [List.foldlM_cons, Option.bind_eq_bind, Option.bind_eq_some_iff] at h
        obtain ⟨s₁, h₁, h⟩ := h
        exact ih s₁ s' (tryEdge_zero hs h₁) h
    rw [findFrom] at hfind
    · have hzero := hfold _ _ _ (fun _ => rfl) hfind
      simp only at hret hzero
      subst hret
      exact hzero rfl
    · simp

section Pair

variable {routes : List (Bytes × ℕ)} {t u : RoutesTrie} {url : Bytes} {r : ℕ}
  {params params' : RoutingParams D} {q q' : List Token} {k k' vs vs' : List (Value D)}

/-- What `find` found is the pattern picked. -/
theorem Searches.picked {paths : List Token → Prop} (h : Searches routes paths url u)
    (hfind : u.find strtod url = some (r, params)) (hr : r ≠ 0)
    (hfound : Found strtod u url r params q k vs) : Picked strtod routes url q := by
  obtain ⟨x, hx, rfl, rfl⟩ := (h.indices q r hr).mp hfound.index
  refine ⟨x, hx, rfl, hr, ⟨vs, hfound.matched⟩, fun y hy hy₀ hmatch => ?_⟩
  have hle := ((h.find_index hfind).2 y hy hy₀ hmatch).2
  rcases hle.lt_or_eq with hlt | heq
  · exact .inl hlt
  · exact .inr ⟨heq, hfound.first _ ((h.indices _ _ hr).mpr ⟨y, hy, rfl, heq.symm⟩) hmatch⟩

theorem Picked.unique {p p' : List Token} (h : Picked strtod routes url p)
    (h' : Picked strtod routes url p') : p = p' := by
  obtain ⟨x, hx, rfl, hx₀, hmatch, hmin⟩ := h
  obtain ⟨y, hy, rfl, hy₀, hmatch', hmin'⟩ := h'
  rcases hmin y hy hy₀ hmatch' with hlt | ⟨-, heq | hbefore⟩
  · rcases hmin' x hx hx₀ hmatch with hlt' | ⟨heq, -⟩ <;> omega
  · exact heq
  · rcases hmin' x hx hx₀ hmatch with hlt' | ⟨-, heq | hafter⟩
    · rcases hmin y hy hy₀ hmatch' with hlt | ⟨heq, -⟩ <;> omega
    · exact heq.symm
    · exact absurd hafter hbefore.asymm

theorem Shares.mono {paths paths' : List Token → Prop} (hsub : ∀ q, paths q → paths' q)
    {p c : List Token} (h : Shares strtod paths p url c) : Shares strtod paths' p url c := by
  obtain ⟨x, y, q, p', heq, hq, hrest⟩ := h
  exact ⟨x, y, q, p', heq, hsub _ hq, hrest⟩

/-- The values left are the same iff the losses are. -/
theorem left_eq_iff (ht : Searches routes (Piece routes) url t)
    (hu : Searches routes (KeptPiece routes) url u) (h : Found strtod t url r params q k vs)
    (h' : Found strtod u url r params' q k' vs) :
    k = k' ↔ ∀ c, Shares strtod (Piece routes) q url c →
      paramCount c = 0 ∨
        ∃ c', Shares strtod (KeptPiece routes) q url c' ∧ paramCount c ≤ paramCount c' := by
  have hle := ht.paths ▸ h.lost_le
  have hlost := ht.paths ▸ h.lost
  have hle' := hu.paths ▸ h'.lost_le
  have hlost' := hu.paths ▸ h'.lost
  constructor
  · rintro rfl c hc
    have hcount := hle c hc
    rcases hlost' with heq | ⟨c', hc', heq⟩
    · exact .inl (by omega)
    · exact .inr ⟨c', hc', by omega⟩
  · intro hall
    have hk : k.length ≤ k'.length := by
      rcases hlost' with heq | ⟨c', hc', heq⟩
      · exact heq ▸ h.suffix.length_le
      · have := hle c' (hc'.mono fun _ => KeptPiece.piece)
        omega
    have hk' : k'.length ≤ k.length := by
      rcases hlost with heq | ⟨c, hc, heq⟩
      · exact heq ▸ h'.suffix.length_le
      · rcases hall c hc with hzero | ⟨c', hc', hcc'⟩
        · have := h'.suffix.length_le
          omega
        · have := hle' c' hc'
          omega
    exact (List.suffix_of_suffix_length_le h.suffix h'.suffix hk).eq_of_length (le_antisymm hk hk')

theorem sameValues_iff (h : params.Holds k) (h' : params'.Holds k') (hk : k <:+ vs)
    (hk' : k' <:+ vs) : SameValues params params' ↔ k = k' := by
  constructor
  · intro hsame
    have hother : params.Holds k' := ⟨hsame.ints.trans h'.ints, hsame.uints.trans h'.uints,
      hsame.doubles.trans h'.doubles, hsame.strs.trans h'.strs⟩
    rcases List.suffix_or_suffix_of_suffix hk hk' with hsuf | hsuf
    · exact h.eq_of_suffix hother hsuf
    · exact (hother.eq_of_suffix h hsuf).symm
  · rintro rfl
    exact ⟨h.ints.trans h'.ints.symm, h.uints.trans h'.uints.symm, h.doubles.trans h'.doubles.symm,
      h.strs.trans h'.strs.symm⟩

/-- One trie against its optimized form, when both searches end. -/
theorem sameAnswer_iff (ht : Searches routes (Piece routes) url t)
    (hu : Searches routes (KeptPiece routes) url u)
    (hno : ¬Overflows strtod (Piece routes) url) (hno' : ¬Overflows strtod (KeptPiece routes) url) :
    SameAnswer strtod t u url ↔ KeepsLosses strtod routes url := by
  rcases hfind : t.find strtod url with _ | ⟨r, params⟩
  · exact absurd (ht.find_eq_none_iff.mp hfind) hno
  rcases hfind' : u.find strtod url with _ | ⟨r', params'⟩
  · exact absurd (hu.find_eq_none_iff.mp hfind') hno'
  have hidx := ht.find_index hfind
  have hidx' := hu.find_index hfind'
  have hr : r = r' := by
    by_cases h₀ : r = 0
    · by_contra hne
      obtain ⟨x, hx, hxr, hmatch⟩ := hidx'.1 (fun h => hne (h₀.trans h.symm))
      exact (hidx.2 x hx (fun h => hne (by omega)) hmatch).1 h₀
    · obtain ⟨x, hx, rfl, hmatch⟩ := hidx.1 h₀
      obtain ⟨h₀', hle⟩ := hidx'.2 x hx h₀ hmatch
      obtain ⟨y, hy, rfl, hmatch'⟩ := hidx'.1 h₀'
      exact le_antisymm (hidx.2 y hy h₀' hmatch').2 hle
  subst hr
  have hsame : SameAnswer strtod t u url ↔ SameValues params params' := by
    constructor
    · rintro ⟨r₁, p, p', hp, hp', h⟩
      obtain ⟨-, rfl⟩ := Prod.mk.inj (Option.some.inj (hfind.symm.trans hp))
      obtain ⟨-, rfl⟩ := Prod.mk.inj (Option.some.inj (hfind'.symm.trans hp'))
      exact h
    · exact fun h => ⟨r, params, params', hfind, hfind', h⟩
  rw [hsame]
  by_cases h₀ : r = 0
  · -- Nothing matches.
    subst h₀
    rw [find_zero hfind, find_zero hfind']
    refine iff_of_true ⟨rfl, rfl, rfl, rfl⟩ ?_
    rintro p ⟨x, hx, rfl, hx₀, hmatch, -⟩
    exact absurd rfl (hidx.2 x hx hx₀ hmatch).1
  · obtain ⟨q, k, vs, hfound⟩ := (find_found ht.shaped hfind).1 h₀
    obtain ⟨q', k', vs', hfound'⟩ := (find_found hu.shaped hfind').1 h₀
    have hpick := ht.picked hfind h₀ hfound
    obtain rfl := hpick.unique (hu.picked hfind' h₀ hfound')
    obtain ⟨rfl, -⟩ := Prod.mk.inj (Option.some.inj (hfound.matched.symm.trans hfound'.matched))
    rw [sameValues_iff hfound.holds hfound'.holds hfound.suffix hfound'.suffix,
      left_eq_iff ht hu hfound hfound']
    constructor
    · intro h p hp
      obtain rfl := hp.unique hpick
      exact h
    · exact fun h => h q hpick

end Pair

/-- **When `find` answers the same before and after `optimize`.** -/
theorem answersAlike_iff {routes : List (Bytes × ℕ)} {t : RoutesTrie}
    (hreg : registerAll routes = .ok t) (url : Bytes) (hplain : Plain routes url) :
    AnswersAlike strtod t url ↔ ¬Overflows strtod (Piece routes) url ∧
      ¬Overflows strtod (KeptPiece routes) url ∧ KeepsLosses strtod routes url := by
  have ht := registered_searches hreg url
  constructor
  · intro h
    obtain ⟨u, hu, hopt⟩ := optimize_registered hreg []
    have hsearch := hopt.searches hplain
    obtain ⟨u', hu', hanswer, -⟩ := h []
    obtain rfl := Option.some.inj (hu.symm.trans hu')
    have hsame := hanswer
    obtain ⟨r, p, p', hp, hp', -⟩ := hanswer
    have hno : ¬Overflows strtod (Piece routes) url := fun hov => by
      simp [ht.find_eq_none_iff.mpr hov] at hp
    have hno' : ¬Overflows strtod (KeptPiece routes) url := fun hov => by
      simp [hsearch.find_eq_none_iff.mpr hov] at hp'
    exact ⟨hno, hno', (sameAnswer_iff ht hsearch hno hno').mp hsame⟩
  · rintro ⟨hno, hno', hkeep⟩ ops
    obtain ⟨u, hu, hopt⟩ := optimize_registered hreg ops
    exact ⟨u, hu, (sameAnswer_iff ht (hopt.searches hplain) hno hno').mpr hkeep, hopt.optimized.linked⟩

/-- Two routes that share a parameter and end in text. -/
def merging : List (Bytes × ℕ) := [(ascii "/{int}/{str}", 1), (ascii "/{int}/{int}ab", 2)]

theorem answersAlike_iff_merging : ∃ t, registerAll merging = .ok t ∧
    (AnswersAlike Strtod.whole t (ascii "/5/6a") ↔
      ¬Overflows Strtod.whole (Piece merging) (ascii "/5/6a") ∧
        ¬Overflows Strtod.whole (KeptPiece merging) (ascii "/5/6a") ∧
        KeepsLosses Strtod.whole merging (ascii "/5/6a")) :=
  ⟨_, rfl, answersAlike_iff rfl _ (.inl (by decide +kernel))⟩

/-- Before `optimize` the URL ends in the middle of the text of `/{int}/{int}ab`,
and the integer is moved out there; afterwards it does not. -/
theorem not_answersAlike : ∃ t, registerAll merging = .ok t ∧ Plain merging (ascii "/5/6a") ∧
    ¬AnswersAlike Strtod.whole t (ascii "/5/6a") := by
  refine ⟨_, rfl, .inl (by decide +kernel), fun h => ?_⟩
  obtain ⟨u, hu, ⟨r, p, p', hp, hp', hsame⟩, -⟩ := h []
  obtain rfl : _ = u := Option.some.inj hu
  obtain ⟨-, rfl⟩ := Prod.mk.inj (Option.some.inj hp)
  obtain ⟨-, rfl⟩ := Prod.mk.inj (Option.some.inj hp')
  exact absurd hsame.ints (by decide +kernel)

end Alike

end RoutesTrie

end Suil
