/-
The router (`Router`).

A router keeps its rules in a table whose first two slots hold no rule: index 0
is the trie's "not found" and index 1 stands for a redirect to the same path
with a slash.  `internalAddRule` appends a rule and adds its pattern to the
trie; a pattern that ends in a slash is added once more without it, under
index 1.  `before` looks a request up and reads the rule found, `handle`
answers it.

* `Router.Inv` — which indices the trie may hold, kept by `internalAddRule`;
* `before_eq_crash_iff` — `before` dies iff `find` does or the URL matches a
  pattern added under index 1;
* `answersSafely_iff` — when a router answers as it is meant to.
-/
import Suil.RouteMatching

namespace Suil

/-- `HttpError`, by its status code. -/
structure HttpError where
  code : ℕ
deriving DecidableEq, Repr

def httpOk : ℕ := 200
def httpMovedPermanently : ℕ := 301
def httpNotFound : ℕ := 404
def httpInternalError : ℕ := 500

/-- `Response`: what the router sets of it. -/
structure Response where
  status : ℕ := httpOk
  headers : List (Bytes × Bytes) := []
  completed : Bool := false
deriving DecidableEq, Repr

/-- `header(field, value)`: a field that is there already keeps its value. -/
def Response.header (resp : Response) (field value : Bytes) : Response :=
  if (resp.headers.lookup field).isSome then resp
  else { resp with headers := resp.headers ++ [(field, value)] }

/-- `end(status)` -/
def Response.finish (resp : Response) (status : ℕ) : Response :=
  { resp with status := status, completed := true }

/-- What the router reads of a `Request`: the URL, the `Host` header and the
number of the method. -/
structure Request where
  url : Bytes
  host : Option Bytes := none
  method : ℕ := 1

/-- What a route handler may throw. -/
inductive Thrown where
  | http (e : HttpError)
  | other
deriving DecidableEq, Repr

/-- `BaseRule`: the attribute `Enabled`, the mask of methods, the id and the
handler. -/
structure BaseRule (D : Type) where
  enabled : Bool := true
  methods : ℕ := 1 <<< 1
  id : ℕ := 0
  handler : Request → Response → RoutingParams D → Call Thrown Response

/-- `RequestParams` -/
structure RequestParams (D : Type) where
  index : ℕ
  decoded : RoutingParams D
  enabled : Bool
  methods : ℕ
  routeId : ℕ

/-- `Router`; a null pointer in the table is `none`. -/
structure Router (D : Type) where
  apiBase : Bytes
  rules : List (Option (BaseRule D))
  trie : RoutesTrie

namespace Router

variable {D : Type} (strtod : Strtod D)

def RuleSpecialRedirectSlash : ℕ := 1

/-- The constructor. -/
def create (base : Bytes) : Router D :=
  { apiBase := if strEq base (ascii "/") then [] else base
    rules := [none, none]
    trie := .empty }

/-- The pattern without its last byte.  For the pattern `/` the count is zero,
which `substr` takes for the whole pattern. -/
def withoutTrailingSlash (rule : Bytes) : Bytes := substr rule 0 (rule.length - 1)

/-- `internalAddRule`: the outcome, and the router it leaves behind. -/
def internalAddRule (router : Router D) (rule : Bytes) (obj : BaseRule D) :
    Except RoutesTrie.AddError Unit × Router D :=
  let router := { router with rules := router.rules ++ [some obj] }
  match router.trie.add rule (router.rules.length - 1) with
  | (.error e, trie) => (.error e, { router with trie := trie })
  | (.ok (), trie) =>
    if back rule = 47 then
      let (res, trie) := trie.add (withoutTrailingSlash rule) RuleSpecialRedirectSlash
      (res, { router with trie := trie })
    else (.ok (), { router with trie := trie })

/-- `SUIL_FILE_SERVER_ROUTE` -/
def fileServerRoute : Bytes := ascii "1b7647618ea63937daae8ebb903e9175"

/-- The URL that `before` looks up.  The first assignment is overwritten. -/
def target (router : Router D) (tmp : Bytes) : Bytes :=
  if router.apiBase = [] ∨ startsWith tmp router.apiBase then
    substr tmp router.apiBase.length 0
  else ascii "/" ++ fileServerRoute

/-- `before` -/
def before (router : Router D) (req : Request) : Call HttpError (RequestParams D) :=
  match router.trie.find strtod (router.target req.url) with
  | none => .error .crash
  | some (first, second) =>
    if first = 0 then .error (.raised ⟨httpNotFound⟩)
    else if router.rules.length ≤ first then .error (.raised ⟨httpInternalError⟩)
    else match router.rules.getD first none with
      | none => .error .crash
      | some rule =>
        if rule.enabled then
          .ok { index := first, decoded := second, enabled := rule.enabled,
                methods := rule.methods, routeId := rule.id }
        else .error (.raised ⟨httpNotFound⟩)

/-- `handle` -/
def handle (router : Router D) (req : Request) (params : RequestParams D) (resp : Response) :
    Call HttpError Response :=
  if params.index = RuleSpecialRedirectSlash then
    let resp : Response := {}
    let resp := match req.host with
      | some host => resp.header (ascii "Location") (ascii "http://" ++ host ++ req.url ++ ascii "/")
      | none => resp.header (ascii "Location") (req.url ++ ascii "/")
    .ok (resp.finish httpMovedPermanently)
  else match router.rules.getD params.index none with
    | none => .error .crash
    | some rule =>
      if rule.methods &&& (1 <<< req.method) = 0 then .error (.raised ⟨httpNotFound⟩)
      else match rule.handler req resp params.decoded with
        | .ok resp => .ok resp
        | .error (.raised (.http e)) => .error (.raised e)
        | .error (.raised .other) => .error (.raised ⟨httpInternalError⟩)
        | .error .crash => .error .crash

/-- A request as the connection passes it on, without middlewares. -/
def answer (router : Router D) (req : Request) : Call HttpError Response := do
  let params ← router.before strtod req
  router.handle req params {}

/-- Add rules one after the other, whatever becomes of each: the outcomes and
the router. -/
def addRules (router : Router D) : List (Bytes × BaseRule D) →
    List (Bytes × Except RoutesTrie.AddError Unit) × Router D
  | [] => ([], router)
  | (rule, obj) :: calls =>
    let (res, router) := router.internalAddRule rule obj
    let (log, router) := router.addRules calls
    ((rule, res) :: log, router)

section Invariant

/-- Which indices a router's trie holds, given the outcomes of its rules so
far: index 1 belongs to the patterns that lost their slash, every other index
to a rule of the table. -/
structure Inv (log : List (Bytes × Except RoutesTrie.AddError Unit)) (router : Router D) :
    Prop where
  wf : router.trie.WellFormed
  slots : ∃ rules : List (BaseRule D), router.rules = none :: none :: rules.map some
  range : ∀ q n, router.trie.lookup q = some n → n ≠ 0 →
    n = RuleSpecialRedirectSlash ∨ (2 ≤ n ∧ n < router.rules.length)
  redirect : ∀ q, router.trie.lookup q = some RuleSpecialRedirectSlash ↔
    ∃ rule, (rule, .ok ()) ∈ log ∧ back rule = 47 ∧ q = tokens rule.dropLast

theorem create_inv (base : Bytes) : Inv [] (create base : Router D) := by
  have hnone : ∀ q n, n ≠ 0 → RoutesTrie.empty.lookup q ≠ some n := by
    intro q n hn h
    exact List.not_mem_nil ((RoutesTrie.empty_stores.indices q n hn).mp h)
  refine ⟨RoutesTrie.empty_wellFormed, ⟨[], rfl⟩, fun q n h hn => absurd h (hnone q n hn), ?_⟩
  intro q
  simp [create, hnone q RuleSpecialRedirectSlash Nat.one_ne_zero]

theorem back_eq_slash {rule : Bytes} (h : back rule = 47) : ∃ r, rule = r ++ [47] := by
  rcases List.eq_nil_or_concat' rule with rfl | ⟨r, c, rfl⟩
  · simp [back] at h
  · exact ⟨r, by rw [show c = 47 by simpa [back] using h]⟩

theorem withoutTrailingSlash_eq {r : Bytes} (h : r ≠ []) :
    withoutTrailingSlash (r ++ [47]) = r := by
  have hpos := List.length_pos_iff.mpr h
  have hlen : (r ++ [47]).length - 1 = r.length := by simp
  rw [withoutTrailingSlash, hlen, substr]
  simp [h]

/-- The rule and its pattern, before the pattern without the slash. -/
theorem Inv.addPattern {log : List (Bytes × Except RoutesTrie.AddError Unit)} {router : Router D}
    (h : Inv log router) (rule : Bytes) (obj : BaseRule D) :
    Inv log { router with
      rules := router.rules ++ [some obj]
      trie := (router.trie.add rule router.rules.length).2 } := by
  obtain ⟨rules, hrules⟩ := h.slots
  have hlen : 2 ≤ router.rules.length := by simp [hrules]
  have hadd := RoutesTrie.lookup_add_eq_some_iff h.wf rule router.rules.length
  refine ⟨RoutesTrie.add_wellFormed h.wf _ _, ⟨rules ++ [obj], by simp [hrules]⟩, ?_, ?_⟩
  · intro q n hq hn
    simp only [List.length_append, List.length_singleton]
    rcases (hadd q hn).mp hq with ⟨-, -, rfl⟩ | hq
    · omega
    · have := h.range q n hq hn
      omega
  · intro q
    rw [← h.redirect q]
    show (router.trie.add rule router.rules.length).2.lookup q = _ ↔ _
    rw [hadd q (m := RuleSpecialRedirectSlash) Nat.one_ne_zero, or_iff_right]
    rintro ⟨-, -, h1⟩
    rw [← h1] at hlen
    exact absurd hlen (by decide)

/-- A failed rule, or one that does not end in a slash, adds no redirect. -/
theorem Inv.log {log : List (Bytes × Except RoutesTrie.AddError Unit)} {router : Router D}
    (h : Inv log router) {rule : Bytes} {res : Except RoutesTrie.AddError Unit}
    (hres : res = .ok () → back rule ≠ 47) : Inv (log ++ [(rule, res)]) router := by
  refine ⟨h.wf, h.slots, h.range, fun q => (h.redirect q).trans ?_⟩
  constructor
  · rintro ⟨r, hr, hrest⟩
    exact ⟨r, List.mem_append_left _ hr, hrest⟩
  · rintro ⟨r, hr, hback, hq⟩
    rcases List.mem_append.mp hr with hr | hr
    · exact ⟨r, hr, hback, hq⟩
    · obtain ⟨rfl, heq⟩ := Prod.mk.inj (List.mem_singleton.mp hr)
      exact absurd hback (hres heq.symm)

/-- One rule. -/
theorem Inv.internalAddRule {log : List (Bytes × Except RoutesTrie.AddError Unit)}
    {router : Router D} (h : Inv log router) (rule : Bytes) (obj : BaseRule D) :
    Inv (log ++ [(rule, (router.internalAddRule rule obj).1)])
      (router.internalAddRule rule obj).2 := by
  have hpat := h.addPattern rule obj
  have hindex : (router.rules ++ [some obj]).length - 1 = router.rules.length := by simp
  rw [Router.internalAddRule]
  simp only [hindex]
  rcases hadd : router.trie.add rule router.rules.length with ⟨_ | ⟨⟩, t⟩
  · rw [hadd] at hpat
    exact hpat.log fun hok => absurd hok (by simp)
  · rw [hadd] at hpat
    by_cases hback : back rule = 47
    swap
    · simp only [if_neg hback]
      exact hpat.log fun _ => hback
    simp only [if_pos hback]
    have hlook := RoutesTrie.lookup_add_eq_some_iff (t := t) hpat.wf (withoutTrailingSlash rule)
      RuleSpecialRedirectSlash
    have hok := RoutesTrie.add_eq_ok_iff (t := t) hpat.wf (withoutTrailingSlash rule)
      RuleSpecialRedirectSlash
    have hwf := RoutesTrie.add_wellFormed (t := t) hpat.wf (withoutTrailingSlash rule)
      RuleSpecialRedirectSlash
    refine ⟨hwf, hpat.slots, ?_, ?_⟩
    · intro q n hq hn
      rcases (hlook q hn).mp hq with ⟨-, -, rfl⟩ | hq
      · exact .inl rfl
      · exact hpat.range q n hq hn
    · intro q
      show (t.add _ _).2.lookup q = _ ↔ _
      have hold : t.lookup q = some RuleSpecialRedirectSlash ↔ _ := hpat.redirect q
      rw [hlook q (m := RuleSpecialRedirectSlash) Nat.one_ne_zero, hold]
      -- The pattern `/` keeps its slash and is registered already.
      have hstripped : (t.add (withoutTrailingSlash rule) RuleSpecialRedirectSlash).1 = .ok () →
          withoutTrailingSlash rule = rule.dropLast := by
        intro hres
        obtain ⟨r, rfl⟩ := back_eq_slash hback
        by_cases hr : r = []
        · subst hr
          have hself : withoutTrailingSlash ([] ++ [47]) = [] ++ [47] := by decide
          have hreg : t.lookup (tokens ([] ++ [47])) = some router.rules.length := by
            have := RoutesTrie.lookup_add h.wf ([] ++ [47]) router.rules.length
              (tokens ([] ++ [47]))
            rw [hadd] at this
            simpa using this
          rw [hok, hself, hreg] at hres
          have := h.slots
          obtain ⟨rules, hrules⟩ := this
          simp [hrules] at hres
        · rw [withoutTrailingSlash_eq hr, List.dropLast_concat]
      constructor
      · rintro (⟨hres, rfl, -⟩ | ⟨r, hr, hrest⟩)
        · refine ⟨rule, ?_, hback, by rw [hstripped hres]⟩
          rw [hres]
          simp
        · exact ⟨r, List.mem_append_left _ hr, hrest⟩
      · rintro ⟨r, hr, hb, rfl⟩
        rcases List.mem_append.mp hr with hr | hr
        · exact .inr ⟨r, hr, hb, rfl⟩
        · obtain ⟨rfl, heq⟩ := Prod.mk.inj (List.mem_singleton.mp hr)
          exact .inl ⟨heq.symm, by rw [hstripped heq.symm], rfl⟩

/-- Any number of rules. -/
theorem Inv.addRules {log : List (Bytes × Except RoutesTrie.AddError Unit)} {router : Router D}
    (h : Inv log router) (calls : List (Bytes × BaseRule D)) :
    Inv (log ++ (router.addRules calls).1) (router.addRules calls).2 := by
  induction calls generalizing log router with
  | nil => simpa [Router.addRules] using h
  | cons c calls ih =>
    have hnext := ih (h.internalAddRule c.1 c.2)
    rw [List.append_assoc] at hnext
    exact hnext

end Invariant

section Answers

variable {strtod}

/-- What `before` does when `find` returns a rule of the table. -/
theorem before_of_rule {router : Router D} {req : Request} {n : ℕ} {params : RoutingParams D}
    {rule : BaseRule D} (hfind : router.trie.find strtod (router.target req.url) = some (n, params))
    (hn : n ≠ 0) (hrule : router.rules[n]? = some (some rule)) :
    router.before strtod req = if rule.enabled then
      .ok { index := n, decoded := params, enabled := rule.enabled, methods := rule.methods,
            routeId := rule.id }
    else .error (.raised ⟨httpNotFound⟩) := by
  obtain ⟨hlt, -⟩ := List.getElem?_eq_some_iff.mp hrule
  have hget : router.rules.getD n none = some rule := by
    rw [List.getD_eq_getElem?_getD, hrule]
    rfl
  rw [before, hfind]
  simp only
  rw [if_neg hn, if_neg (by omega), hget]

/-- The rule of an index the trie holds. -/
theorem Inv.rule {log : List (Bytes × Except RoutesTrie.AddError Unit)} {router : Router D}
    (h : Inv log router) {n : ℕ} (h₂ : 2 ≤ n) (hlt : n < router.rules.length) :
    ∃ rule, router.rules[n]? = some (some rule) := by
  obtain ⟨rules, hrules⟩ := h.slots
  obtain ⟨m, rfl⟩ : ∃ m, n = m + 2 := ⟨n - 2, by omega⟩
  have hm : m < rules.length := by simpa [hrules] using hlt
  exact ⟨rules[m], by simp [hrules, hm]⟩

/-- Index 1 is the least index there is, so a URL that matches a pattern under
it is always found there, where the table has no rule. -/
theorem before_eq_crash_iff (strtod : Strtod D) {log : List (Bytes × Except RoutesTrie.AddError Unit)}
    {router : Router D} (h : Inv log router) (req : Request) :
    router.before strtod req = .error .crash ↔
      RoutesTrie.Overflows strtod (fun q => router.trie.lookup q ≠ none) (router.target req.url) ∨
      ∃ q, router.trie.lookup q = some RuleSpecialRedirectSlash ∧
        RoutesTrie.Matches strtod q (router.target req.url) := by
  have hnone := RoutesTrie.find_eq_none_iff strtod h.wf (router.target req.url)
  rcases hfind : router.trie.find strtod (router.target req.url) with _ | ⟨n, params⟩
  · rw [hfind] at hnone
    have hcrash : router.before strtod req = .error .crash := by simp [before, hfind]
    exact iff_of_true hcrash (.inl (hnone.mp rfl))
  · rw [hfind] at hnone
    have hov := mt hnone.mpr (by simp)
    rw [or_iff_right hov]
    obtain ⟨hfound, hleast⟩ := RoutesTrie.find_eq_some h.wf hfind
    by_cases hn : n = 0
    · have hraised : router.before strtod req = .error (.raised ⟨httpNotFound⟩) := by
        simp [before, hfind, hn]
      rw [hraised]
      refine iff_of_false (by simp) ?_
      rintro ⟨q, hq, hmatch⟩
      exact (hleast q _ hq Nat.one_ne_zero hmatch).1 hn
    obtain ⟨q, -, vs, hq, hvs, -⟩ := hfound hn
    rcases h.range q n hq hn with rfl | ⟨h₂, hlt⟩
    · refine iff_of_true ?_ ⟨q, hq, vs, hvs⟩
      obtain ⟨rules, hrules⟩ := h.slots
      simp [before, hfind, RuleSpecialRedirectSlash, hrules]
    · obtain ⟨rule, hrule⟩ := h.rule h₂ hlt
      rw [before_of_rule hfind hn hrule]
      refine iff_of_false ?_ ?_
      · cases rule.enabled <;> simp
      · rintro ⟨q', hq', hmatch⟩
        have : n ≤ 1 := (hleast q' _ hq' Nat.one_ne_zero hmatch).2
        omega

/-- A call of `before` that does not die selects a rule of the table or throws. -/
theorem before_of_not_crash {log : List (Bytes × Except RoutesTrie.AddError Unit)}
    {router : Router D} (h : Inv log router) {req : Request}
    (hne : router.before strtod req ≠ .error .crash) :
    (∃ e, router.before strtod req = .error (.raised e)) ∨
      ∃ params rule, router.before strtod req = .ok params ∧
        router.rules[params.index]? = some (some rule) := by
  rcases hbefore : router.before strtod req with (e | _) | params
  · exact .inl ⟨e, rfl⟩
  · exact absurd hbefore hne
  · right
    rcases hfind : router.trie.find strtod (router.target req.url) with _ | ⟨n, decoded⟩
    · simp [before, hfind] at hbefore
    have hn : n ≠ 0 := by
      rintro rfl
      simp [before, hfind] at hbefore
    obtain ⟨q, -, vs, hq, hvs, -⟩ := (RoutesTrie.find_eq_some h.wf hfind).1 hn
    rcases h.range q n hq hn with rfl | ⟨h₂, hlt⟩
    · exact absurd ((before_eq_crash_iff strtod h req).mpr (.inr ⟨q, hq, vs, hvs⟩)) hne
    · obtain ⟨rule, hrule⟩ := h.rule h₂ hlt
      rw [before_of_rule hfind hn hrule] at hbefore
      cases hen : rule.enabled
      · simp [hen] at hbefore
      · rw [hen, if_pos rfl, Except.ok.injEq] at hbefore
        subst hbefore
        exact ⟨_, rule, rfl, hrule⟩

/-- What the router is meant to do with a request: `before` throws or selects a
rule of the table, and a request for the path of a registered rule without its
slash is redirected to the path with the slash. -/
def AnswersSafely (strtod : Strtod D) (log : List (Bytes × Except RoutesTrie.AddError Unit))
    (router : Router D) (req : Request) : Prop :=
  ((∃ e, router.before strtod req = .error (.raised e)) ∨
    ∃ params rule, router.before strtod req = .ok params ∧
      router.rules[params.index]? = some (some rule)) ∧
  ∀ rule, (rule, .ok ()) ∈ log → back rule = 47 →
    RoutesTrie.Matches strtod (tokens rule.dropLast) (router.target req.url) →
    ∃ resp location, router.answer strtod req = .ok resp ∧ resp.status = httpMovedPermanently ∧
      (ascii "Location", location) ∈ resp.headers ∧ req.url ++ ascii "/" <:+ location

/-- **When a router answers safely**: as long as the request matches no
registered rule that lost its slash (and fits the parameter containers). -/
theorem answersSafely_iff (base : Bytes) (calls : List (Bytes × BaseRule D)) (req : Request) :
    AnswersSafely strtod ((create base).addRules calls).1 ((create base).addRules calls).2 req ↔
      ¬RoutesTrie.Overflows strtod
          (fun q => ((create base).addRules calls).2.trie.lookup q ≠ none)
          (((create base).addRules calls).2.target req.url) ∧
      ¬∃ rule, (rule, .ok ()) ∈ ((create base).addRules calls).1 ∧ back rule = 47 ∧
        RoutesTrie.Matches strtod (tokens rule.dropLast)
          (((create base).addRules calls).2.target req.url) := by
  have hinv := (create_inv (D := D) base).addRules calls
  rw [List.nil_append] at hinv
  generalize ((create base).addRules calls).1 = log at hinv ⊢
  generalize ((create base).addRules calls).2 = router at hinv ⊢
  have hredirect : (∃ q, router.trie.lookup q = some RuleSpecialRedirectSlash ∧
      RoutesTrie.Matches strtod q (router.target req.url)) ↔
      ∃ rule, (rule, .ok ()) ∈ log ∧ back rule = 47 ∧
        RoutesTrie.Matches strtod (tokens rule.dropLast) (router.target req.url) := by
    constructor
    · rintro ⟨q, hq, hmatch⟩
      obtain ⟨rule, hmem, hback, rfl⟩ := (hinv.redirect q).mp hq
      exact ⟨rule, hmem, hback, hmatch⟩
    · rintro ⟨rule, hmem, hback, hmatch⟩
      exact ⟨_, (hinv.redirect _).mpr ⟨rule, hmem, hback, rfl⟩, hmatch⟩
  rw [← not_or, ← hredirect, ← before_eq_crash_iff strtod hinv]
  constructor
  · rintro ⟨hbefore, -⟩ hcrash
    rw [hcrash] at hbefore
    rcases hbefore with ⟨e, he⟩ | ⟨params, rule, hok, -⟩
    · simp at he
    · simp at hok
  · intro hne
    refine ⟨before_of_not_crash hinv hne, fun rule hmem hback hmatch => ?_⟩
    have hcrash := (before_eq_crash_iff strtod hinv req).mpr
      (.inr (hredirect.mpr ⟨rule, hmem, hback, hmatch⟩))
    exact absurd hcrash hne

/-- A router with the one rule `/users/`. -/
def users : List (Bytes × BaseRule ℕ) := [(ascii "/users/", { handler := fun _ resp _ => .ok resp })]

/-- The request `/users`: `before` reads the rule of index 1, a null pointer. -/
theorem not_answersSafely :
    ((create []).addRules users).1 = [(ascii "/users/", .ok ())] ∧
      ¬AnswersSafely Strtod.whole ((create []).addRules users).1 ((create []).addRules users).2
        { url := ascii "/users" } := by
  refine ⟨rfl, fun h => ?_⟩
  have hcrash : ((create []).addRules users).2.before Strtod.whole { url := ascii "/users" } =
      .error .crash := rfl
  rcases h.1 with ⟨e, he⟩ | ⟨params, rule, hok, -⟩
  · simp [hcrash] at he
  · simp [hcrash] at hok

end Answers

end Router

end Suil
