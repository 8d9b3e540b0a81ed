/-
The middlewares of a connection (`Connection::handleRequest`).

A request passes the `before` handlers of the middlewares in order, the route
handler, and the `after` handlers in reverse order.  `middlewareCallHelper`
stops at the first `before` that completes the response and unwinds through
the `after` handlers of the middlewares reached; `handleRequest` then calls the
`after` handlers of all of them, once more.

* `chain_log` — the calls `middlewareCallHelper` makes;
* `handleRequest_log` — the calls of a whole request;
* `orderly_iff` — a request is handled in the order it is meant to iff no
  `before` completes the response.
-/
import Suil.Router

namespace Suil

/-- The request with its response; `ρ` holds the rest of the state that
handlers share, contexts included. -/
structure Exchange (ρ : Type) where
  req : ρ
  resp : Response

/-- A middleware: what its handlers do, unless they throw. -/
structure Middleware (ε ρ : Type) where
  before : Exchange ρ → Except ε (Exchange ρ)
  after : Exchange ρ → Except ε (Exchange ρ)

/-- A call made while handling a request, by the position of the middleware. -/
inductive Event where
  | before (n : ℕ)
  | handler
  | after (n : ℕ)
deriving DecidableEq, Repr

namespace Event

def before? : Event → Option ℕ
  | .before n => some n
  | _ => none

def after? : Event → Option ℕ
  | .after n => some n
  | _ => none

end Event

namespace Middleware

variable {ε ρ : Type}

/-- The state of a request and the calls made so far. -/
abbrev Run (ρ : Type) := Exchange ρ × List Event

def beforeHandlerCall (mw : Middleware ε ρ) (n : ℕ) (s : Run ρ) : Except ε (Run ρ) := do
  let x ← mw.before s.1
  return (x, s.2 ++ [.before n])

def afterHandlerCall (mw : Middleware ε ρ) (n : ℕ) (s : Run ρ) : Except ε (Run ρ) := do
  let x ← mw.after s.1
  return (x, s.2 ++ [.after n])

/-- `middlewareCallHelper<N, ...>`: whether the response was completed, and the
state. -/
def middlewareCallHelper : ℕ → List (Middleware ε ρ) → Run ρ → Except ε (Bool × Run ρ)
  | _, [], s => return (false, s)
  | n, mw :: mws, s => do
    let s ← mw.beforeHandlerCall n s
    if s.1.resp.completed then
      let s ← mw.afterHandlerCall n s
      return (true, s)
    else
      let (done, s) ← middlewareCallHelper (n + 1) mws s
      if done then
        let s ← mw.afterHandlerCall n s
        return (true, s)
      else return (false, s)

/-- `afterHandlersCallHelper<N, ...>` on the first `N + 1` middlewares, the last
of them first: here the list of them, reversed. -/
def afterHandlersCallHelper : List (Middleware ε ρ) → Run ρ → Except ε (Run ρ)
  | [], s => return s
  | mw :: mws, s => do
    let s ← mw.afterHandlerCall mws.length s
    afterHandlersCallHelper mws s

/-- `handleRequest`; `routerBefore` and `handle` are the router's. -/
def handleRequest (routerBefore : ρ → Except ε ρ) (handle : Exchange ρ → Except ε (Exchange ρ))
    (mws : List (Middleware ε ρ)) (req : ρ) : Except ε (Run ρ) := do
  let req ← routerBefore req
  let (_, s) ← middlewareCallHelper 0 mws ({ req := req, resp := {} }, [])
  let s ← if s.1.resp.completed then pure s else do
    let x ← handle s.1
    pure (x, s.2 ++ [.handler])
  afterHandlersCallHelper mws.reverse s

/-- No `before` of the list completes the response, when they are called one
after the other. -/
def NoneCompletes : List (Middleware ε ρ) → Exchange ρ → Prop
  | [], _ => True
  | mw :: mws, x => ∀ y, mw.before x = .ok y → y.resp.completed = false ∧ NoneCompletes mws y

/-- The `before` calls of the middlewares from `n` on, and the `after` calls
that undo them. -/
def befores (n k : ℕ) : List Event := (List.range' n k).map .before
def afters (n k : ℕ) : List Event := (List.range' n k).reverse.map .after

theorem beforeHandlerCall_eq_ok {mw : Middleware ε ρ} {n : ℕ} {s s' : Run ρ} :
    mw.beforeHandlerCall n s = .ok s' ↔ ∃ x, mw.before s.1 = .ok x ∧ s' = (x, s.2 ++ [.before n]) := by
  rcases h : mw.before s.1 with e | x <;>
    simp [beforeHandlerCall, h, bind, Except.bind, pure, Except.pure, eq_comm]

theorem afterHandlerCall_eq_ok {mw : Middleware ε ρ} {n : ℕ} {s s' : Run ρ} :
    mw.afterHandlerCall n s = .ok s' ↔ ∃ x, mw.after s.1 = .ok x ∧ s' = (x, s.2 ++ [.after n]) := by
  rcases h : mw.after s.1 with e | x <;>
    simp [afterHandlerCall, h, bind, Except.bind, pure, Except.pure, eq_comm]

/-- **The calls of `middlewareCallHelper`**: it gets through all `before`
handlers, or unwinds from the first one that completes the response. -/
theorem chain_log {n : ℕ} {mws : List (Middleware ε ρ)} {s s' : Run ρ} {done : Bool}
    (h : middlewareCallHelper n mws s = .ok (done, s')) :
    (done = false ∧ NoneCompletes mws s.1 ∧ s'.2 = s.2 ++ befores n mws.length ∧
      (s.1.resp.completed = false → s'.1.resp.completed = false)) ∨
    (done = true ∧ ¬NoneCompletes mws s.1 ∧ ∃ k, 0 < k ∧ k ≤ mws.length ∧
      s'.2 = s.2 ++ befores n k ++ afters n k) := by
  induction mws generalizing n s s' done with
  | nil =>
    simp only [middlewareCallHelper, pure, Except.pure, Except.ok.injEq, Prod.mk.injEq] at h
    obtain ⟨rfl, rfl⟩ := h
    exact .inl ⟨rfl, trivial, by simp [befores], id⟩
  | cons mw mws ih =>
    rw [middlewareCallHelper] at h
    rcases hb : mw.beforeHandlerCall n s with e | s₁
    · simp [hb, bind, Except.bind] at h
    obtain ⟨x, hx, rfl⟩ := beforeHandlerCall_eq_ok.mp hb
    simp only [hb, bind, Except.bind] at h
    by_cases hc : x.resp.completed = true
    · -- This `before` completes the response.
      rw [if_pos hc] at h
      rcases ha : mw.afterHandlerCall n (x, s.2 ++ [.before n]) with e | s₂
      · simp [ha] at h
      obtain ⟨y, -, rfl⟩ := afterHandlerCall_eq_ok.mp ha
      simp only [ha, pure, Except.pure, Except.ok.injEq, Prod.mk.injEq] at h
      obtain ⟨rfl, rfl⟩ := h
      refine .inr ⟨rfl, fun hnone => ?_, 1, Nat.one_pos, by simp, by simp [befores, afters]⟩
      rw [(hnone x hx).1] at hc
      exact absurd hc (by simp)
    · rw [if_neg hc] at h
      rw [Bool.not_eq_true] at hc
      rcases hrec : middlewareCallHelper (n + 1) mws (x, s.2 ++ [.before n]) with e | ⟨done', s₂⟩
      · simp [hrec] at h
      simp only [hrec] at h
      rcases ih hrec with ⟨rfl, hnone, hlog, hcomp⟩ | ⟨rfl, hsome, k, hk, hle, hlog⟩
      · simp only [Bool.false_eq_true, if_false, pure, Except.pure, Except.ok.injEq,
          Prod.mk.injEq] at h
        obtain ⟨rfl, rfl⟩ := h
        refine .inl ⟨rfl, fun y hy => ?_, ?_, fun _ => hcomp hc⟩
        · obtain rfl : x = y := Except.ok.inj (hx.symm.trans hy)
          exact ⟨hc, hnone⟩
        · rw [hlog]
          simp [befores, List.range'_succ]
      · rw [if_pos rfl] at h
        rcases ha : mw.afterHandlerCall n s₂ with e | s₃
        · simp [ha] at h
        obtain ⟨y, -, rfl⟩ := afterHandlerCall_eq_ok.mp ha
        simp only [ha, pure, Except.pure, Except.ok.injEq, Prod.mk.injEq] at h
        obtain ⟨rfl, rfl⟩ := h
        refine .inr ⟨rfl, fun hnone => hsome (hnone x hx).2, k + 1, Nat.succ_pos k, by simp; omega, ?_⟩
        rw [hlog]
        simp [befores, afters, List.range'_succ]

theorem afterHandlersCallHelper_log {mws : List (Middleware ε ρ)} {s s' : Run ρ}
    (h : afterHandlersCallHelper mws s = .ok s') : s'.2 = s.2 ++ afters 0 mws.length := by
  induction mws generalizing s with
  | nil =>
    simp only [afterHandlersCallHelper, pure, Except.pure, Except.ok.injEq] at h
    simp [← h, afters]
  | cons mw mws ih =>
    rw [afterHandlersCallHelper] at h
    rcases ha : mw.afterHandlerCall mws.length s with e | s₁
    · simp [ha, bind, Except.bind] at h
    obtain ⟨x, -, rfl⟩ := afterHandlerCall_eq_ok.mp ha
    simp only [ha, bind, Except.bind] at h
    rw [ih h]
    simp [afters, List.range'_concat]

/-- The request as the middlewares first see it. -/
def start (req : ρ) : Exchange ρ := { req := req, resp := {} }

/-- **The calls of a request** that nothing is thrown in. -/
theorem handleRequest_log {routerBefore : ρ → Except ε ρ}
    {handle : Exchange ρ → Except ε (Exchange ρ)} {mws : List (Middleware ε ρ)} {req req' : ρ}
    {s : Run ρ} (hrouter : routerBefore req = .ok req')
    (h : handleRequest routerBefore handle mws req = .ok s) :
    (NoneCompletes mws (start req') ∧
      s.2 = befores 0 mws.length ++ [.handler] ++ afters 0 mws.length) ∨
    (¬NoneCompletes mws (start req') ∧ ∃ k, 0 < k ∧ k ≤ mws.length ∧ ∃ handled : Bool,
      s.2 = befores 0 k ++ afters 0 k ++ (if handled then [.handler] else []) ++
        afters 0 mws.length) := by
  rw [handleRequest, hrouter] at h
  simp only [bind, Except.bind] at h
  rcases hchain : middlewareCallHelper 0 mws (({ req := req', resp := {} } : Exchange ρ), [])
    with e | ⟨done, s₁⟩
  · simp [hchain] at h
  simp only [hchain] at h
  rcases chain_log hchain with ⟨-, hnone, hlog, hcomp⟩ | ⟨-, hsome, k, hk, hle, hlog⟩
  · left
    simp only [hcomp rfl, Bool.false_eq_true, if_false] at h
    rcases hh : handle s₁.1 with e | x
    · simp [hh] at h
    simp only [hh, pure, Except.pure] at h
    refine ⟨hnone, ?_⟩
    rw [afterHandlersCallHelper_log h, hlog]
    simp
  · right
    refine ⟨hsome, k, hk, hle, ?_⟩
    by_cases hc : s₁.1.resp.completed = true
    · simp only [if_pos hc, pure, Except.pure] at h
      refine ⟨false, ?_⟩
      rw [afterHandlersCallHelper_log h, hlog]
      simp
    · simp only [if_neg hc] at h
      rcases hh : handle s₁.1 with e | x
      · simp [hh] at h
      simp only [hh, pure, Except.pure] at h
      refine ⟨true, ?_⟩
      rw [afterHandlersCallHelper_log h, hlog]
      simp

/-- How the calls of a request are meant to go: the route handler runs iff no
`before` completed the response, every `after` is called once if its `before`
was and never otherwise, and in the reverse order. -/
structure Orderly (mws : List (Middleware ε ρ)) (x : Exchange ρ) (log : List Event) : Prop where
  handler : .handler ∈ log ↔ NoneCompletes mws x
  once : ∀ n, log.count (.after n) = if .before n ∈ log then 1 else 0
  reversed : log.filterMap Event.after? = (log.filterMap Event.before?).reverse

theorem filterMap_befores (n k : ℕ) :
    (befores n k).filterMap Event.before? = List.range' n k ∧
      (befores n k).filterMap Event.after? = [] := by
  simp [befores, List.filterMap_map, Function.comp_def, Event.before?, Event.after?]

theorem filterMap_afters (n k : ℕ) :
    (afters n k).filterMap Event.before? = [] ∧
      (afters n k).filterMap Event.after? = (List.range' n k).reverse := by
  simp [afters, List.filterMap_map, Function.comp_def, Event.before?, Event.after?]

/-- The number of `after` calls is that of the numbers they carry. -/
theorem count_after (log : List Event) (n : ℕ) :
    log.count (.after n) = (log.filterMap Event.after?).count n := by
  induction log with
  | nil => rfl
  | cons e log ih => cases e <;> simp [List.count_cons, List.filterMap_cons, Event.after?, ih]

theorem mem_before (log : List Event) (n : ℕ) :
    .before n ∈ log ↔ n ∈ log.filterMap Event.before? := by
  induction log with
  | nil => simp
  | cons e log ih => cases e <;> simp [List.filterMap_cons, Event.before?, ih]

/-- **When a request is handled in order**: iff no `before` completes it. -/
theorem orderly_iff {routerBefore : ρ → Except ε ρ} {handle : Exchange ρ → Except ε (Exchange ρ)}
    {mws : List (Middleware ε ρ)} {req req' : ρ} {s : Run ρ}
    (hrouter : routerBefore req = .ok req')
    (h : handleRequest routerBefore handle mws req = .ok s) :
    Orderly mws (start req') s.2 ↔ NoneCompletes mws (start req') := by
  have hone : ∀ m n : ℕ, ((List.range' 0 m).reverse).count n = if n < m then 1 else 0 := by
    intro m n
    rw [List.count_reverse, (List.nodup_range' : (List.range' 0 m).Nodup).count]
    simp
  rcases handleRequest_log hrouter h with ⟨hnone, hlog⟩ | ⟨hsome, k, hk, hle, handled, hlog⟩
  · have hb : s.2.filterMap Event.before? = List.range' 0 mws.length := by
      rw [hlog]
      simp [List.filterMap_cons, filterMap_befores, filterMap_afters, Event.before?]
    have ha : s.2.filterMap Event.after? = (List.range' 0 mws.length).reverse := by
      rw [hlog]
      simp [List.filterMap_cons, filterMap_befores, filterMap_afters, Event.after?]
    refine iff_of_true ⟨iff_of_true ?_ hnone, fun n => ?_, by rw [ha, hb]⟩ hnone
    · simp [hlog]
    · simp only [count_after, ha, hone, mem_before, hb]
      simp
  · refine iff_of_false (fun hord => ?_) hsome
    -- The first `after` is called while unwinding and once more at the end.
    have hbefore : .before 0 ∈ s.2 := by
      rw [hlog, mem_before]
      simp [filterMap_befores, filterMap_afters, hk]
    have hcount := hord.once 0
    rw [if_pos hbefore, count_after, hlog] at hcount
    simp only [List.filterMap_append, filterMap_befores, filterMap_afters, List.nil_append,
      List.count_append, hone, if_pos hk, if_pos (show 0 < mws.length by omega)] at hcount
    omega

/-- A middleware that answers every request itself. -/
def answering : Middleware Empty Unit where
  before x := .ok { x with resp := x.resp.finish httpOk }
  after x := .ok x

theorem orderly_iff_answering : ∃ s, handleRequest .ok .ok [answering] () = .ok s ∧
    (Orderly [answering] (start ()) s.2 ↔ NoneCompletes [answering] (start ())) :=
  ⟨_, rfl, orderly_iff rfl (show handleRequest .ok .ok [answering] () = .ok _ from rfl)⟩

/-- Its `after` is called twice for its one `before`. -/
theorem not_orderly : ∃ s, handleRequest .ok .ok [answering] () = .ok s ∧
    ¬Orderly [answering] (start ()) s.2 := by
  refine ⟨_, rfl, fun h => ?_⟩
  exact absurd (h.once 0) (by decide)

end Middleware

end Suil
