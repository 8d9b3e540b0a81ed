/-
What `find` returns.

`find` searches all the paths of the trie at once.  The results below speak
about the paths alone, not about the search.

* `find_eq_none_iff` — the process dies iff some container would hold more
  than 128 values along a path (`Overflows`);
* `find_eq_some` — otherwise `find` returns the least index of the paths that
  match the URL, with a final piece of the values of that path, all of them iff
  no path before it ends at the end of the URL after sharing a parameter with
  it (`Clobbers`);
* `Stores` — a trie and the routes added to it; `registerAll_stores`;
* `findsValues_iff` — for which routes and URLs `find` returns the values of the
  route it found.
-/
import Suil.TrieStops

open Backtrack

namespace Suil

namespace RoutesTrie

section Paths

variable {D : Type} (strtod : Strtod D)

/-- A path matches the whole URL. -/
def Matches (q : List Token) (url : Bytes) : Prop :=
  ∃ vs, matchPattern strtod q url = some (vs, [])

/-- Another path, before `p` in the order of the search, ends at the end of the
URL and parts from `p` after a parameter. -/
def Clobbers (paths : List Token → Prop) (p : List Token) (url : Bytes) : Prop :=
  ∃ c x y q p', p = c ++ y :: p' ∧ paths (c ++ x :: q) ∧ Matches strtod (c ++ x :: q) url ∧
    Before x y ∧ ∃ k, Token.param k ∈ c

/-- `c` is a piece that `p` shares with a path before it in the order of the
search, which ends at the end of the URL. -/
def Shares (paths : List Token → Prop) (p : List Token) (url : Bytes) (c : List Token) : Prop :=
  ∃ x y q p', p = c ++ y :: p' ∧ paths (c ++ x :: q) ∧ Matches strtod (c ++ x :: q) url ∧ Before x y

/-- `find` searches `p` before `q`. -/
def Precedes (p q : List Token) : Prop :=
  ∃ c x y p' q', p = c ++ x :: p' ∧ q = c ++ y :: q' ∧ Before x y

/-- Some path takes more than 128 values of one type for its part `b`, and the
paths before it that end at the end of the URL part from it before `b`. -/
def Overflows (paths : List Token → Prop) (url : Bytes) : Prop :=
  ∃ a b va r vb r', paths (a ++ b) ∧ matchPattern strtod a url = some (va, r) ∧
    matchPattern strtod b r = some (vb, r') ∧ RoutingParams.fits vb = false ∧
    ∀ c x y q p, a ++ b = c ++ y :: p → paths (c ++ x :: q) → Matches strtod (c ++ x :: q) url →
      Before x y → c <+: a

/-- What `find` returns under a non-zero index `r`: the values `k` that are left
of the values `vs` of the path `q`, the first one with the index `r` that
matches the URL. -/
structure Found (t : RoutesTrie) (url : Bytes) (r : ℕ) (params : RoutingParams D) (q : List Token)
    (k vs : List (Value D)) : Prop where
  index : t.IndexAt q r
  matched : matchPattern strtod q url = some (vs, [])
  holds : params.Holds k
  suffix : k <:+ vs
  lost_le : ∀ c, Shares strtod (fun q => ∃ a, t.IndexAt q a) q url c →
    paramCount c + k.length ≤ vs.length
  lost : k.length = vs.length ∨ ∃ c, Shares strtod (fun q => ∃ a, t.IndexAt q a) q url c ∧
    paramCount c + k.length = vs.length
  first : ∀ q', t.IndexAt q' r → Matches strtod q' url → q = q' ∨ Precedes q q'

variable {strtod}

theorem matchPattern_eq_some {q : List Token} {rest r : Bytes} {vs : List (Value D)} :
    matchPattern strtod q rest = some (vs, r) ↔
      ∃ s, trace strtod q rest = some (s, r) ∧ values s = vs := by
  rw [matchPattern_eq_trace, Option.map_eq_some_iff]
  constructor
  · rintro ⟨⟨s, r'⟩, hs, heq⟩
    obtain ⟨rfl, rfl⟩ := Prod.mk.inj heq
    exact ⟨s, hs, rfl⟩
  · rintro ⟨s, hs, rfl⟩
    exact ⟨(s, r), hs, rfl⟩

theorem matches_iff {q : List Token} {url : Bytes} :
    Matches strtod q url ↔ ∃ s, trace strtod q url = some (s, []) := by
  simp only [Matches, matchPattern_eq_some]
  constructor
  · rintro ⟨vs, s, hs, -⟩
    exact ⟨s, hs⟩
  · rintro ⟨s, hs⟩
    exact ⟨_, s, hs, rfl⟩

/-- Paths that part at a step are traced alike up to there. -/
theorem trace_parting {c q p : List Token} {x y : Token} {url rq rp : Bytes}
    {sq sp : Path Token (Value D)} (hq : trace strtod (c ++ x :: q) url = some (sq, rq))
    (hp : trace strtod (c ++ y :: p) url = some (sp, rp)) :
    ∃ sc r, trace strtod c url = some (sc, r) ∧
      ∃ v q' w p', sq = sc ++ (x, v) :: q' ∧ sp = sc ++ (y, w) :: p' := by
  obtain ⟨sc, r, sq', hc, hq', rfl⟩ := trace_append_eq_some.mp hq
  obtain ⟨sc', r', sp', hc', hp', rfl⟩ := trace_append_eq_some.mp hp
  rw [hc, Option.some_inj, Prod.mk.injEq] at hc'
  obtain ⟨rfl, rfl⟩ := hc'
  simp only [trace, Option.bind_eq_some_iff, Option.map_eq_some_iff, Prod.mk.injEq] at hq' hp'
  obtain ⟨v, -, q', -, rfl, -⟩ := hq'
  obtain ⟨w, -, p', -, rfl, -⟩ := hp'
  exact ⟨sc, r, hc, v.1, q'.1, w.1, p'.1, rfl, rfl⟩

end Paths

section Find

variable {D : Type} {strtod : Strtod D}

/-- The search of a whole `find`. -/
abbrev search (strtod : Strtod D) (t : RoutesTrie) (url : Bytes) : Search Token (Value D) ℕ :=
  t.searchTree strtod (url.length + 1) 0 url

/-- The same search with the fragments spelled out. -/
abbrev spelledSearch (strtod : Strtod D) (t : RoutesTrie) (url : Bytes) :
    Search Token (Value D) ℕ :=
  t.spelledTree strtod (url.length + 1) 0 url

theorem run_spelledSearch (t : RoutesTrie) (url : Bytes) :
    run RoutingParams.fits (t.spelledSearch strtod url) [] =
      run RoutingParams.fits (t.search strtod url) [] :=
  run_spelledTree t _ _ _ rfl

theorem find_agrees (strtod : Strtod D) {t : RoutesTrie} {url : Bytes} (ht : t.Shaped url) :
    Agrees (0, []) (run RoutingParams.fits (t.spelledSearch strtod url) [])
      (t.findFrom strtod (url.length + 1) 0 url .empty) := by
  rw [run_spelledSearch]
  exact findFrom_run ht.toBranching.fragments (Nat.lt_succ_self _) RoutingParams.holds_empty

theorem mem_stops_search {t : RoutesTrie} {url : Bytes} (ht : t.Shaped url)
    {s : Path Token (Value D)} {a : ℕ} :
    (s, a) ∈ stops (t.spelledSearch strtod url) ↔
      trace strtod (s.map Prod.fst) url = some (s, []) ∧ t.IndexAt (s.map Prod.fst) a :=
  mem_stops_spelledTree ht (Nat.lt_succ_self _)

/-- A path of the trie that matches the whole URL is a stop. -/
theorem stop_of_matches {t : RoutesTrie} {url : Bytes} (ht : t.Shaped url) {q : List Token} {a : ℕ}
    {s : Path Token (Value D)} (hq : t.IndexAt q a) (hs : trace strtod q url = some (s, [])) :
    (s, a) ∈ stops (t.spelledSearch strtod url) := by
  refine (mem_stops_search ht).mpr ⟨?_, ?_⟩
  · rwa [trace_labels hs]
  · rwa [trace_labels hs]

/-- **When the process dies.** -/
theorem Shaped.find_eq_none_iff (strtod : Strtod D) {t : RoutesTrie} {url : Bytes} (ht : t.Shaped url) :
    t.find strtod url = none ↔ Overflows strtod (fun q => ∃ a, t.IndexAt q a) url := by
  have hagree := find_agrees strtod ht
  have hrun : t.find strtod url = none ↔
      ¬∀ x ∈ entered (t.spelledSearch strtod url) [], RoutingParams.fits x.2 = true := by
    rw [find, Option.map_eq_none_iff]
    rw [run_eq] at hagree
    split_ifs at hagree with hall
    · obtain ⟨ret, p, hout, -⟩ := hagree
      simpa [hout] using hall
    · have hout : t.findFrom strtod (url.length + 1) 0 url .empty = none := hagree
      simpa only [hout, true_iff] using hall
  rw [hrun, overflow_iff (spelledTree_sorted strtod _ _ ht) fun l k => RoutingParams.fits_suffix]
  constructor
  · rintro ⟨a, b, hpath, hfit, hmax⟩
    -- The letters of a last, unfinished fragment carry no values.
    obtain ⟨p₀, w, heq, ⟨r', htr⟩, j, hin⟩ := entered_of_mem_paths ht (Nat.lt_succ_self _) hpath
    rcases List.append_eq_append_iff.mp heq with ⟨b₀, rfl, rfl⟩ | ⟨c, -, hw⟩
    swap
    · have hnil := congrArg values hw
      rw [values_spelled, values_append] at hnil
      rw [(List.append_eq_nil_iff.mp hnil.symm).2] at hfit
      simp [RoutingParams.fits] at hfit
    rw [values_append, values_spelled, List.append_nil] at hfit
    obtain ⟨r, ha, hb⟩ := trace_of_append htr
    refine ⟨a.map Prod.fst, b₀.map Prod.fst, values a, r, values b₀, r', ?_,
      matchPattern_eq_some.mpr ⟨a, ha, rfl⟩, matchPattern_eq_some.mpr ⟨b₀, hb, rfl⟩, hfit, ?_⟩
    · rw [← List.map_append]
      exact ⟨_, j, hin, rfl⟩
    · rintro c x y q p heq' ⟨n, hq⟩ hmatch hlt
      obtain ⟨sq, hsq⟩ := matches_iff.mp hmatch
      rw [List.map_append, heq'] at htr
      obtain ⟨sc, rc, hc, v, q', w', p', rfl, hab⟩ := trace_parting hsq htr
      have hstop := stop_of_matches ht hq hsq
      have hearlier : Earlier Before (sc ++ (x, v) :: q') (a ++ b₀) :=
        earlier_iff.mpr ⟨sc, _, _, q', p', rfl, hab, hlt⟩
      have hpre := hmax _ hstop (by simpa using hearlier.append_right (spelled w)) sc
        (List.prefix_append _ _) (by
          rw [← List.append_assoc, hab, List.append_assoc]
          exact List.prefix_append _ _)
      rw [← trace_labels hc]
      exact hpre.map _
  · rintro ⟨a, b, va, r, vb, r', ⟨n, j, hin, -⟩, ha, hb, hfit, hmax⟩
    obtain ⟨sa, hsa, rfl⟩ := matchPattern_eq_some.mp ha
    obtain ⟨sb, hsb, rfl⟩ := matchPattern_eq_some.mp hb
    have hlab : (sa ++ sb).map Prod.fst = a ++ b := by
      rw [List.map_append, trace_labels hsa, trace_labels hsb]
    refine ⟨sa, sb, mem_paths_of_entered ht (Nat.lt_succ_self _) ?_ ⟨⟨r', ?_⟩, j, ?_⟩, hfit, ?_⟩
    · intro hnil
      obtain ⟨-, rfl⟩ := List.append_eq_nil_iff.mp hnil
      simp [RoutingParams.fits] at hfit
    · rw [hlab]
      exact trace_append_eq_some.mpr ⟨sa, r, sb, hsa, hsb, rfl⟩
    · rwa [hlab]
    · rintro ⟨s, n⟩ hstop hlt c' hcs hcp
      obtain ⟨c, x, y, q, p, rfl, hab, hxy⟩ := earlier_iff.mp hlt
      obtain ⟨htr, hlook⟩ := (mem_stops_search ht).mp hstop
      simp only [List.map_append, List.map_cons] at htr hlook
      have hc : c.map Prod.fst <+: a := by
        refine hmax _ x.1 y.1 (q.map Prod.fst) (p.map Prod.fst) ?_ ⟨n, hlook⟩
          (matches_iff.mpr ⟨_, htr⟩) hxy
        rw [← hlab, hab]
        simp
      have hca : c <+: sa := by
        refine List.prefix_of_prefix_length_le (hab ▸ List.prefix_append c _)
          (List.prefix_append sa sb) ?_
        simpa [← trace_labels hsa] using hc.length_le
      exact (prefix_of_parting hxy hcs (hab ▸ hcp)).trans hca

/-- A stop that the search reaches before another one, told by their paths. -/
theorem shares_of_earlier {t : RoutesTrie} {url : Bytes} (ht : t.Shaped url)
    {s p : Path Token (Value D)} {n : ℕ} (hstop : (s, n) ∈ stops (t.spelledSearch strtod url))
    (hlt : Earlier Before s p) {c' : Path Token (Value D)} (hcs : c' <+: s) (hcp : c' <+: p) :
    ∃ c, c' <+: c ∧ c <+: s ∧ c <+: p ∧
      Shares strtod (fun q => ∃ a, t.IndexAt q a) (p.map Prod.fst) url (c.map Prod.fst) := by
  obtain ⟨c, x, y, q, p', rfl, rfl, hxy⟩ := earlier_iff.mp hlt
  obtain ⟨htr, hlook⟩ := (mem_stops_search ht).mp hstop
  rw [List.map_append, List.map_cons] at htr hlook
  refine ⟨c, prefix_of_parting hxy hcs hcp, List.prefix_append _ _, List.prefix_append _ _,
    x.1, y.1, q.map Prod.fst, p'.map Prod.fst, by simp, ⟨n, hlook⟩, matches_iff.mpr ⟨_, htr⟩, hxy⟩

theorem earlier_of_shares {t : RoutesTrie} {url : Bytes} (ht : t.Shaped url)
    {p : Path Token (Value D)} {r : Bytes} (hp : trace strtod (p.map Prod.fst) url = some (p, r))
    {c : List Token}
    (h : Shares strtod (fun q => ∃ a, t.IndexAt q a) (p.map Prod.fst) url c) :
    ∃ s n sc, (s, n) ∈ stops (t.spelledSearch strtod url) ∧ Earlier Before s p ∧ sc <+: s ∧
      sc <+: p ∧ (values sc).length = paramCount c := by
  obtain ⟨x, y, q, p', heq, ⟨n, hin⟩, hmatch, hlt⟩ := h
  obtain ⟨sq, hsq⟩ := matches_iff.mp hmatch
  rw [heq] at hp
  obtain ⟨sc, rc, hc, v, q', w, p'', rfl, rfl⟩ := trace_parting hsq hp
  exact ⟨_, n, sc, stop_of_matches ht hin hsq, earlier_iff.mpr ⟨sc, _, _, q', p'', rfl, rfl, hlt⟩,
    List.prefix_append _ _, List.prefix_append _ _, trace_values_length hc⟩

/-- **What `find` returns.** -/
theorem find_found {t : RoutesTrie} {url : Bytes} (ht : t.Shaped url) {r : ℕ}
    {params : RoutingParams D} (h : t.find strtod url = some (r, params)) :
    (r ≠ 0 → ∃ q k vs, Found strtod t url r params q k vs) ∧
      ∀ q n, t.IndexAt q n → n ≠ 0 → Matches strtod q url → r ≠ 0 ∧ r ≤ n := by
  have hagree := find_agrees strtod ht
  rw [run_eq] at hagree
  split_ifs at hagree with hall
  swap
  · have hout : t.findFrom strtod (url.length + 1) 0 url .empty = none := hagree
    simp [find, hout] at h
  obtain ⟨ret, p, hout, -, hans⟩ := hagree
  have hret : ret = (r, params) := by simpa [find, hout] using h
  subst hret
  obtain ⟨hidx, hholds⟩ := hans
  simp only at hidx hholds
  -- Every path with an index that matches the URL has a result.
  have hresult : ∀ q n, t.IndexAt q n → Matches strtod q url →
      ∃ s k, trace strtod q url = some (s, []) ∧ (s, k, n) ∈ results (t.spelledSearch strtod url) [] := by
    intro q n hq hmatch
    obtain ⟨s, hs⟩ := matches_iff.mp hmatch
    obtain ⟨k, hres⟩ := mem_stops_iff.mp (stop_of_matches ht hq hs)
    exact ⟨s, k, hs, hres⟩
  rcases best_spec ((results (t.spelledSearch strtod url) []).map fun x => x.2) (0, []) with
    ⟨hbest, hzero⟩ | ⟨l₁, ⟨k, a⟩, l₂, hsplit, hne, hbest, -, h₁, h₂⟩
  · rw [hbest] at hidx
    refine ⟨fun hr => absurd hidx hr, fun q n hq hn hmatch => ?_⟩
    obtain ⟨s, k, -, hres⟩ := hresult q n hq hmatch
    have := hzero (k, n) (List.mem_map_of_mem (f := fun x => x.2) hres)
    simp [hn] at this
  · rw [hbest] at hidx hholds
    simp only at hidx hholds hne h₁ h₂
    subst hidx
    obtain ⟨R₁, R', hR, rfl, hR'⟩ := List.map_eq_append_iff.mp hsplit
    obtain ⟨⟨s, k', a'⟩, R₂, rfl, heq, rfl⟩ := List.map_eq_cons_iff.mp hR'
    obtain ⟨rfl, rfl⟩ := Prod.mk.inj heq
    have hsorted := spelledTree_sorted strtod (url.length + 1) 0 ht
    have hres : (s, k', a') ∈ results (t.spelledSearch strtod url) [] := by
      rw [hR]
      simp
    obtain ⟨htr, hlook⟩ := (mem_stops_search ht).mp (mem_stops_iff.mpr ⟨_, hres⟩)
    obtain ⟨hlost, hlast⟩ := handed_length hsorted hres
    constructor
    · intro hr
      refine ⟨s.map Prod.fst, k', values s, hlook, matchPattern_eq_some.mpr ⟨s, htr, rfl⟩,
        hholds hr, handed_isSuffix hsorted hres, ?_, ?_, ?_⟩
      · intro c hc
        obtain ⟨q, n, sc, hstop, hlt, hcq, hcp, hcount⟩ := earlier_of_shares ht htr hc
        rw [← hcount]
        exact hlost _ hstop hlt sc hcq hcp
      · refine hlast.imp_right ?_
        rintro ⟨⟨q, n⟩, hstop, hlt, c', hcq, hcp, hlen⟩
        obtain ⟨c, hcc, hcq', hcp', hshare⟩ := shares_of_earlier ht hstop hlt hcq hcp
        have hle := hlost _ hstop hlt c hcq' hcp'
        have hmono := (values_isPrefix hcc).length_le
        have hcount : (values c).length = paramCount (c.map Prod.fst) := by
          obtain ⟨c₂, rfl⟩ := hcp'
          obtain ⟨r', hc, -⟩ := trace_of_append htr
          exact trace_values_length hc
        exact ⟨_, hshare, by omega⟩
      · intro q hq hmatch
        obtain ⟨sq, kq, hsq, hresq⟩ := hresult q a' hq hmatch
        have hpair : (results (t.spelledSearch strtod url) []).Pairwise
            fun x y => Earlier Before x.1 y.1 := by
          have := stops_pairwise hsorted
          rw [← results_stops _ [], List.pairwise_map] at this
          exact this
        rw [hR] at hresq hpair
        rcases List.mem_append.mp hresq with hmem | hmem
        · -- The results before have larger indices.
          have := h₁ (kq, a') (List.mem_map_of_mem (f := fun x => x.2) hmem)
          simp [hne] at this
        · rcases List.mem_cons.mp hmem with heq | hmem
          · obtain ⟨rfl, -⟩ := Prod.mk.inj heq
            exact .inl (trace_labels hsq)
          · right
            have hearlier := (List.pairwise_cons.mp (List.pairwise_append.mp hpair).2.1).1 _ hmem
            obtain ⟨c, x, y, q', p', hs, hsq', hxy⟩ := earlier_iff.mp hearlier
            simp only at hs hsq'
            refine ⟨c.map Prod.fst, x.1, y.1, q'.map Prod.fst, p'.map Prod.fst, ?_, ?_, hxy⟩
            · rw [hs]
              simp
            · rw [← trace_labels hsq, hsq']
              simp
    · intro q n hq hn hmatch
      obtain ⟨sq, kq, -, hresq⟩ := hresult q n hq hmatch
      refine ⟨hne, ?_⟩
      rw [hR] at hresq
      rcases List.mem_append.mp hresq with hmem | hmem
      · have := h₁ (kq, n) (List.mem_map_of_mem (f := fun x => x.2) hmem)
        simp only at this
        omega
      · rcases List.mem_cons.mp hmem with heq | hmem
        · simp only [Prod.mk.injEq] at heq
          omega
        · have := h₂ (kq, n) (List.mem_map_of_mem (f := fun x => x.2) hmem)
          simp only at this
          omega

/-- All the values are kept iff none is shared. -/
theorem Found.kept_iff {t : RoutesTrie} {url : Bytes} {r : ℕ} {params : RoutingParams D}
    {q : List Token} {k vs : List (Value D)} (h : Found strtod t url r params q k vs) :
    k = vs ↔ ¬Clobbers strtod (fun q => ∃ a, t.IndexAt q a) q url := by
  have hlen : k = vs ↔ k.length = vs.length := ⟨fun h => by rw [h], h.suffix.eq_of_length⟩
  rw [hlen]
  constructor
  · rintro heq ⟨c, x, y, q', p', hcy, hin, hmatch, hlt, kind, hkind⟩
    have := h.lost_le c ⟨x, y, q', p', hcy, hin, hmatch, hlt⟩
    exact paramCount_eq_zero_iff.mp (by omega) kind hkind
  · intro hclob
    rcases h.lost with heq | ⟨c, hshare, heq⟩
    · exact heq
    · have hzero : paramCount c = 0 := by
        rw [paramCount_eq_zero_iff]
        intro kind hkind
        obtain ⟨x, y, q', p', hcy, hin, hmatch, hlt⟩ := hshare
        exact hclob ⟨c, x, y, q', p', hcy, hin, hmatch, hlt, kind, hkind⟩
      omega

/-! ### Single characters -/

theorem indexAt_paths {t : RoutesTrie} (ht : t.WellFormed) :
    (fun q => ∃ a, t.IndexAt q a) = fun q => t.lookup q ≠ none := by
  funext q
  simp only [indexAt_iff_lookup ht, Option.ne_none_iff_exists']

theorem find_eq_none_iff (strtod : Strtod D) {t : RoutesTrie} (ht : t.WellFormed) (url : Bytes) :
    t.find strtod url = none ↔ Overflows strtod (fun q => t.lookup q ≠ none) url := by
  rw [(ht.shaped url).find_eq_none_iff, indexAt_paths ht]

theorem find_eq_some {t : RoutesTrie} (ht : t.WellFormed) {url : Bytes} {r : ℕ}
    {params : RoutingParams D} (h : t.find strtod url = some (r, params)) :
    (r ≠ 0 → ∃ q k vs, t.lookup q = some r ∧ matchPattern strtod q url = some (vs, []) ∧
      params.Holds k ∧ k <:+ vs ∧
      (k = vs ↔ ¬Clobbers strtod (fun q => t.lookup q ≠ none) q url)) ∧
    ∀ q n, t.lookup q = some n → n ≠ 0 → Matches strtod q url → r ≠ 0 ∧ r ≤ n := by
  obtain ⟨hfound, hleast⟩ := find_found (ht.shaped url) h
  constructor
  · intro hr
    obtain ⟨q, k, vs, hq⟩ := hfound hr
    have hkept := hq.kept_iff
    rw [indexAt_paths ht] at hkept
    exact ⟨q, k, vs, (indexAt_iff_lookup ht).mp hq.index, hq.matched, hq.holds, hq.suffix, hkept⟩
  · exact fun q n hq => hleast q n ((indexAt_iff_lookup ht).mpr hq)

end Find

/-! ### Registered routes -/

/-- A path of a trie that routes with the given steps were threaded through. -/
def OnPath (ps : List (List Token)) (q : List Token) : Prop := q = [] ∨ ∃ p ∈ ps, q <+: p

/-- A trie through which the routes `ps` were threaded, and whose indices are
those of `ends`. -/
structure Stores (t : RoutesTrie) (ps : List (List Token)) (ends : List (List Token × ℕ)) :
    Prop where
  wf : t.WellFormed
  paths : ∀ q, t.lookup q ≠ none ↔ OnPath ps q
  indices : ∀ q n, n ≠ 0 → (t.lookup q = some n ↔ (q, n) ∈ ends)

theorem empty_stores : Stores empty [] [] := by
  have hlook : ∀ q, empty.lookup q = if q = [] then some 0 else none := by
    intro q
    cases q with
    | nil => rfl
    | cons tok q =>
      rw [lookup, walk_cons]
      have : empty.node 0 = Node.fresh := rfl
      simp [this]
  refine ⟨empty_wellFormed, fun q => ?_, fun q n hn => ?_⟩
  · rw [hlook]
    simp [OnPath]
  · rw [hlook]
    simp [hn.symm]

theorem Stores.add {t : RoutesTrie} {ps : List (List Token)} {ends : List (List Token × ℕ)}
    (h : t.Stores ps ends) (url : Bytes) (n : ℕ) :
    (t.add url n).2.Stores (tokens url :: ps)
      (if (t.add url n).1 = .ok () then (tokens url, n) :: ends else ends) := by
  have hlook := lookup_add h.wf url n
  refine ⟨add_wellFormed h.wf url n, fun q => ?_, fun q m hm => ?_⟩
  · rw [hlook, thread]
    have hstep : OnPath (tokens url :: ps) q ↔ q <+: tokens url ∨ OnPath ps q := by
      simp only [OnPath, List.mem_cons, exists_eq_or_imp]
      tauto
    rw [hstep, ← h.paths q]
    split_ifs with h₁ h₂
    · simp [h₁.2]
    · simp [h₂]
    · simp [h₂]
  · rw [lookup_add_eq_some_iff h.wf url n q hm, h.indices q m hm]
    split_ifs with hadd
    · simp [hadd]
    · simp [hadd]

/-- Register routes under their indices, one after the other. -/
def registerAll (routes : List (Bytes × ℕ)) : Except AddError RoutesTrie :=
  routes.foldlM (fun t x => match t.add x.1 x.2 with
    | (.ok (), t') => .ok t'
    | (.error e, _) => .error e) empty

/-- The last route is added to the trie of those before it. -/
theorem registerAll_concat {routes : List (Bytes × ℕ)} {x : Bytes × ℕ} {t : RoutesTrie}
    (h : registerAll (routes ++ [x]) = .ok t) :
    ∃ t₀, registerAll routes = .ok t₀ ∧ t₀.add x.1 x.2 = (.ok (), t) := by
  rw [registerAll, List.foldlM_append] at h
  rcases hr : registerAll routes with e | t₀
  · rw [registerAll] at hr
    simp [hr, bind, Except.bind] at h
  · rw [registerAll] at hr
    rw [hr] at h
    rcases hadd : t₀.add x.1 x.2 with ⟨_ | ⟨⟩, t'⟩
    · simp [bind, Except.bind, hadd] at h
    · obtain rfl : t' = t := by simpa [bind, Except.bind, hadd, pure, Except.pure] using h
      exact ⟨t₀, rfl, hadd⟩

theorem registerAll_stores {routes : List (Bytes × ℕ)} {t : RoutesTrie}
    (h : registerAll routes = .ok t) :
    t.Stores (routes.reverse.map fun x => tokens x.1)
      (routes.reverse.map fun x => (tokens x.1, x.2)) := by
  induction routes using List.reverseRecOn generalizing t with
  | nil =>
    obtain rfl : empty = t := by simpa [registerAll, pure, Except.pure] using h
    exact empty_stores
  | append_singleton routes x ih =>
    obtain ⟨t₀, hr, hadd⟩ := registerAll_concat h
    have hstep := (ih hr).add x.1 x.2
    rw [hadd, if_pos rfl] at hstep
    simpa using hstep

section Registered

variable {D : Type} (strtod : Strtod D)

/-- Whatever `find` returns under a non-zero index are the values of the route
registered under that index. -/
def FindsValues (routes : List (Bytes × ℕ)) (t : RoutesTrie) (url : Bytes) : Prop :=
  ∀ r params, t.find strtod url = some (r, params) → r ≠ 0 →
    ∃ route vs, (route, r) ∈ routes ∧ matchPattern strtod (tokens route) url = some (vs, []) ∧
      params.Holds vs

/-- A first piece of a registered route. -/
def Piece (routes : List (Bytes × ℕ)) (q : List Token) : Prop :=
  q = [] ∨ ∃ x ∈ routes, q <+: tokens x.1

/-- The route with the least index among those that match the URL loses values
to a piece of a route that the search tries before it. -/
def Clobbered (routes : List (Bytes × ℕ)) (url : Bytes) : Prop :=
  ∃ x ∈ routes, Matches strtod (tokens x.1) url ∧
    (∀ y ∈ routes, Matches strtod (tokens y.1) url → x.2 ≤ y.2) ∧
    Clobbers strtod (Piece routes) (tokens x.1) url

variable {strtod}

theorem piece_eq {routes : List (Bytes × ℕ)} {t : RoutesTrie} (h : registerAll routes = .ok t) :
    (fun q => t.lookup q ≠ none) = Piece routes := by
  funext q
  rw [(registerAll_stores h).paths q, OnPath, Piece]
  simp

/-- **Which routes and URLs keep their values.** -/
theorem findsValues_iff {routes : List (Bytes × ℕ)} {t : RoutesTrie}
    (hreg : registerAll routes = .ok t) (hne : ∀ x ∈ routes, x.2 ≠ 0)
    (hdist : (routes.map Prod.snd).Nodup) (url : Bytes) :
    FindsValues strtod routes t url ↔
      Overflows strtod (Piece routes) url ∨ ¬Clobbered strtod routes url := by
  have hst := registerAll_stores hreg
  have hnone := find_eq_none_iff strtod hst.wf url
  rw [piece_eq hreg] at hnone
  have hindex : ∀ q n, n ≠ 0 → (t.lookup q = some n ↔ ∃ x ∈ routes, tokens x.1 = q ∧ x.2 = n) := by
    intro q n hn
    rw [hst.indices q n hn]
    simp [Prod.ext_iff]
  by_cases hov : Overflows strtod (Piece routes) url
  · simp only [hov, true_or, iff_true]
    intro r params hfind
    rw [hnone.mpr hov] at hfind
    exact absurd hfind (by simp)
  · simp only [hov, false_or]
    rcases hfind : t.find strtod url with _ | ⟨r, params⟩
    · exact absurd (hnone.mp hfind) hov
    obtain ⟨hfound, hleast⟩ := find_eq_some hst.wf hfind
    rw [piece_eq hreg] at hfound
    by_cases hr : r = 0
    · -- Nothing matches.
      subst hr
      refine iff_of_true (fun r' params' h' hr' => ?_) ?_
      · rw [hfind] at h'
        exact absurd (congrArg Prod.fst (Option.some.inj h')) (Ne.symm hr')
      · rintro ⟨x, hx, hmatch, -⟩
        exact (hleast _ _ ((hindex _ _ (hne x hx)).mpr ⟨x, hx, rfl, rfl⟩) (hne x hx) hmatch).1 rfl
    · obtain ⟨q, k, vs, hq, hvs, hholds, hsuf, hkeep⟩ := hfound hr
      obtain ⟨x, hx, rfl, rfl⟩ := (hindex q r hr).mp hq
      have huniq : ∀ y ∈ routes, y.2 = x.2 → y = x := fun y hy =>
        List.inj_on_of_nodup_map hdist hy hx
      have hprop : FindsValues strtod routes t url ↔ k = vs := by
        constructor
        · intro h
          obtain ⟨route, vs', hroute, hvs', hholds'⟩ := h _ _ hfind hr
          obtain rfl : route = x.1 := congrArg Prod.fst (huniq _ hroute rfl)
          obtain rfl : vs = vs' := by simpa [hvs] using hvs'
          exact hholds.eq_of_suffix hholds' hsuf
        · rintro rfl r' params' h' hr'
          obtain ⟨rfl, rfl⟩ := Prod.mk.inj (Option.some.inj (hfind.symm.trans h'))
          exact ⟨x.1, k, hx, hvs, hholds⟩
      rw [hprop, hkeep, not_iff_not]
      constructor
      · intro hclob
        refine ⟨x, hx, ⟨vs, hvs⟩, fun y hy hmatch => ?_, hclob⟩
        exact (hleast _ _ ((hindex _ _ (hne y hy)).mpr ⟨y, hy, rfl, rfl⟩) (hne y hy) hmatch).2
      · rintro ⟨y, hy, hmatch, hmin, hclob⟩
        have hle := (hleast _ _ ((hindex _ _ (hne y hy)).mpr ⟨y, hy, rfl, rfl⟩) (hne y hy) hmatch).2
        obtain rfl := huniq y hy (le_antisymm (hmin x hx ⟨vs, hvs⟩) hle)
        exact hclob

/-- Two routes that share a parameter. -/
def sharing : List (Bytes × ℕ) := [(ascii "/{int}/{str}", 1), (ascii "/{int}/{int}", 2)]

theorem findsValues_iff_sharing : ∃ t, registerAll sharing = .ok t ∧
    (FindsValues Strtod.whole sharing t (ascii "/5/6") ↔
      Overflows Strtod.whole (Piece sharing) (ascii "/5/6") ∨
        ¬Clobbered Strtod.whole sharing (ascii "/5/6")) :=
  ⟨_, rfl, findsValues_iff rfl (by decide) (by decide) _⟩

/-- The route found is `/{int}/{str}`, but `/{int}/{int}` has moved the integer
out before. -/
theorem not_findsValues : ∃ t, registerAll sharing = .ok t ∧ (∀ x ∈ sharing, x.2 ≠ 0) ∧
    (sharing.map Prod.snd).Nodup ∧ ¬FindsValues Strtod.whole sharing t (ascii "/5/6") := by
  refine ⟨_, rfl, by decide, by decide, fun h => ?_⟩
  obtain ⟨route, vs, hroute, hvs, hholds⟩ := h 1 _ rfl (by decide)
  obtain rfl : route = ascii "/{int}/{str}" := by simpa [sharing] using hroute
  obtain rfl : vs = [.int 5, .str (ascii "6")] := by
    have hmatch : matchPattern Strtod.whole (tokens (ascii "/{int}/{str}")) (ascii "/5/6") =
        some ([.int 5, .str (ascii "6")], []) := by rfl
    exact (Prod.mk.inj (Option.some.inj (hvs.symm.trans hmatch))).1
  exact absurd hholds.ints (by decide)

end Registered

end RoutesTrie

end Suil
