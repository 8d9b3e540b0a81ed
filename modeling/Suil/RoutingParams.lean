/-
Route parameters (`crow::detail::routing_params`).

A match collects its parameters in four containers, one for each stored type.
A container is a growing array whose capacity and fill are 8-bit counters:
`grow` doubles the capacity, and at 128 the doubled counter is zero, the array
is reallocated to nothing and the process dies clearing it.

* `Holds` — the four containers hold a list of values, each in its own order;
* `push_holds`, `pop_holds` — pushing and popping follow the list;
* `push_eq_none_iff` — a push dies exactly when a container would hold more
  than 128 values.
-/
import Suil.Strings

namespace Suil

/-- `crow::detail::ParamType`, in the order of the enumeration. -/
inductive ParamType where
  | int
  | uint
  | double
  | string
  | path
deriving DecidableEq, Repr

/-- A parameter value, by the container that stores it. -/
inductive Value (D : Type) where
  | int (v : ℤ)
  | uint (v : ℕ)
  | double (v : D)
  | str (v : Bytes)
deriving DecidableEq, Repr

namespace Value

variable {D : Type}

def int? : Value D → Option ℤ
  | .int v => some v
  | _ => none

def uint? : Value D → Option ℕ
  | .uint v => some v
  | _ => none

def double? : Value D → Option D
  | .double v => some v
  | _ => none

def str? : Value D → Option Bytes
  | .str v => some v
  | _ => none

end Value

/-- `params_container`: the live elements `params[0 .. back)` and the capacity
counter `size`, which is zero exactly while the array is a null pointer. -/
structure ParamsContainer (α : Type) where
  items : List α
  size : ℕ
  size_mem : size ∈ [0, 4, 8, 16, 32, 64, 128]
  fits : items.length ≤ size

namespace ParamsContainer

variable {α : Type}

/-- A fresh container, and what is left of one that was moved from. -/
def empty : ParamsContainer α := ⟨[], 0, by simp, by simp⟩

/-- `push`, after `grow`.  The doubled capacity is an 8-bit value. -/
def push (c : ParamsContainer α) (x : α) : Option (ParamsContainer α) :=
  if h0 : c.size = 0 then
    some ⟨c.items ++ [x], 4, by simp, by have := c.fits; simp; omega⟩
  else if hfull : c.items.length = c.size then
    if hwrap : c.size * 2 % 256 = 0 then none
    else some ⟨c.items ++ [x], c.size * 2 % 256, by have := c.size_mem; simp at this ⊢; omega,
      by have := c.size_mem; simp at this ⊢; omega⟩
  else some ⟨c.items ++ [x], c.size, c.size_mem, by have := c.fits; simp; omega⟩

/-- `pop`: nothing happens to an empty container. -/
def pop (c : ParamsContainer α) : ParamsContainer α :=
  ⟨c.items.dropLast, c.size, c.size_mem, by have := c.fits; simp; omega⟩

theorem push_eq_none_iff (c : ParamsContainer α) (x : α) :
    c.push x = none ↔ 128 < (c.items ++ [x]).length := by
  have hmem := c.size_mem
  have hfits := c.fits
  simp only [List.mem_cons, List.not_mem_nil, or_false] at hmem
  rw [push, List.length_append, List.length_singleton]
  split_ifs <;> simp only [false_iff, true_iff] <;> omega

theorem push_items {c c' : ParamsContainer α} {x : α} (h : c.push x = some c') :
    c'.items = c.items ++ [x] := by
  rw [push] at h
  split_ifs at h <;> (rw [Option.some_inj] at h; subst h; rfl)

@[simp] theorem pop_items (c : ParamsContainer α) : c.pop.items = c.items.dropLast := rfl

end ParamsContainer

/-- `routing_params`. -/
structure RoutingParams (D : Type) where
  intParams : ParamsContainer ℤ
  uintParams : ParamsContainer ℕ
  doubleParams : ParamsContainer D
  stringParams : ParamsContainer Bytes

namespace RoutingParams

variable {D : Type}

/-- A fresh parameter set, and what is left of one that was moved from. -/
def empty : RoutingParams D := ⟨.empty, .empty, .empty, .empty⟩

def push (v : Value D) (p : RoutingParams D) : Option (RoutingParams D) :=
  match v with
  | .int v => (p.intParams.push v).map fun c => { p with intParams := c }
  | .uint v => (p.uintParams.push v).map fun c => { p with uintParams := c }
  | .double v => (p.doubleParams.push v).map fun c => { p with doubleParams := c }
  | .str v => (p.stringParams.push v).map fun c => { p with stringParams := c }

/-- `pop(value)` looks at the type of its argument only. -/
def pop (v : Value D) (p : RoutingParams D) : RoutingParams D :=
  match v with
  | .int _ => { p with intParams := p.intParams.pop }
  | .uint _ => { p with uintParams := p.uintParams.pop }
  | .double _ => { p with doubleParams := p.doubleParams.pop }
  | .str _ => { p with stringParams := p.stringParams.pop }

/-- The parameter set holds the values `vs`, those of each type in their order. -/
structure Holds (p : RoutingParams D) (vs : List (Value D)) : Prop where
  ints : p.intParams.items = vs.filterMap Value.int?
  uints : p.uintParams.items = vs.filterMap Value.uint?
  doubles : p.doubleParams.items = vs.filterMap Value.double?
  strs : p.stringParams.items = vs.filterMap Value.str?

/-- At most 128 values of each type. -/
def fits (vs : List (Value D)) : Bool :=
  (vs.filterMap Value.int?).length ≤ 128 && (vs.filterMap Value.uint?).length ≤ 128 &&
    (vs.filterMap Value.double?).length ≤ 128 && (vs.filterMap Value.str?).length ≤ 128

theorem holds_empty : (empty : RoutingParams D).Holds [] := ⟨rfl, rfl, rfl, rfl⟩

theorem fits_suffix {l k : List (Value D)} (h : fits (l ++ k) = true) : fits k = true := by
  simp only [fits, List.filterMap_append, List.length_append, Bool.and_eq_true,
    decide_eq_true_eq] at h ⊢
  omega

/-- A held set never exceeds the containers' capacity. -/
theorem Holds.fits {p : RoutingParams D} {vs : List (Value D)} (h : p.Holds vs) :
    RoutingParams.fits vs = true := by
  have key : ∀ {α : Type} (c : ParamsContainer α), c.items.length ≤ 128 := by
    intro α c
    have hmem := c.size_mem
    have hfits := c.fits
    simp only [List.mem_cons, List.not_mem_nil, or_false] at hmem
    omega
  simp only [RoutingParams.fits, Bool.and_eq_true, decide_eq_true_eq, ← h.ints, ← h.uints,
    ← h.doubles, ← h.strs]
  exact ⟨⟨⟨key _, key _⟩, key _⟩, key _⟩

theorem push_eq_none_iff {p : RoutingParams D} {vs : List (Value D)} (h : p.Holds vs)
    (v : Value D) : p.push v = none ↔ RoutingParams.fits (vs ++ [v]) = false := by
  have hfit := h.fits
  simp only [RoutingParams.fits, Bool.and_eq_true, decide_eq_true_eq] at hfit
  obtain ⟨⟨⟨hi, hu⟩, hd⟩, hs⟩ := hfit
  cases v
  all_goals
    simp only [push, Option.map_eq_none_iff, ParamsContainer.push_eq_none_iff, h.ints, h.uints,
      h.doubles, h.strs, RoutingParams.fits, List.filterMap_append, List.filterMap_cons,
      List.filterMap_nil, Value.int?, Value.uint?, Value.double?, Value.str?, List.append_nil,
      List.length_append, List.length_singleton, ← Bool.not_eq_true, Bool.and_eq_true,
      decide_eq_true_eq]
    omega

theorem push_holds {p p' : RoutingParams D} {vs : List (Value D)} {v : Value D}
    (h : p.Holds vs) (hp : p.push v = some p') : p'.Holds (vs ++ [v]) := by
  cases v
  all_goals
    obtain ⟨c, hc, rfl⟩ := Option.map_eq_some_iff.mp hp
    have hitems := ParamsContainer.push_items hc
    constructor <;>
      simp [hitems, h.ints, h.uints, h.doubles, h.strs, Value.int?, Value.uint?, Value.double?,
        Value.str?]

/-- Popping undoes the push of a value of the same type, and does nothing to an
empty set. -/
theorem pop_holds {p : RoutingParams D} {vs : List (Value D)} {v : Value D}
    (h : p.Holds (vs ++ [v])) : (p.pop v).Holds vs := by
  cases v
  all_goals
    constructor <;>
      simp [pop, h.ints, h.uints, h.doubles, h.strs, Value.int?, Value.uint?, Value.double?,
        Value.str?]

theorem pop_holds_nil {p : RoutingParams D} (h : p.Holds []) (v : Value D) : (p.pop v).Holds [] := by
  cases v
  all_goals constructor <;> simp [pop, h.ints, h.uints, h.doubles, h.strs]

/-- A set tells a final piece of a list from the whole list. -/
theorem Holds.eq_of_suffix {p : RoutingParams D} {k vs : List (Value D)} (hk : p.Holds k)
    (hvs : p.Holds vs) (h : k <:+ vs) : k = vs := by
  obtain ⟨l, rfl⟩ := h
  have key : ∀ {α : Type} (f : Value D → Option α), k.filterMap f = (l ++ k).filterMap f →
      l.filterMap f = [] := by
    intro α f hf
    rwa [List.filterMap_append, List.self_eq_append_left] at hf
  have hi := key Value.int? (hk.ints.symm.trans hvs.ints)
  have hu := key Value.uint? (hk.uints.symm.trans hvs.uints)
  have hd := key Value.double? (hk.doubles.symm.trans hvs.doubles)
  have hs := key Value.str? (hk.strs.symm.trans hvs.strs)
  cases l with
  | nil => rfl
  | cons v l =>
    -- Every value is stored by one of the four containers.
    cases v with
    | int x => simp [Value.int?] at hi
    | uint x => simp [Value.uint?] at hu
    | double x => simp [Value.double?] at hd
    | str x => simp [Value.str?] at hs

end RoutingParams

end Suil
