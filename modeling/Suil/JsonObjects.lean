/-
The members of JSON objects.

`json::Object::set` puts a member behind the others, also when there is one with its key, and
`json::Object::get` finds the first one.  An enumeration comes to all of them.

* `sets_eq` — the members behind some calls;
* `get_sets` — what a key has behind them: what it had before, or was given first;
* `sets_iff` — when the calls make a map of the object.
-/
import Suil.Json
import Suil.Lib.Tables

open Tables

namespace Suil.JsonObjects

open Json (array findMember findMember_eq letter member number object)

structure UnsupportedOperation where
  message : Bytes
deriving DecidableEq

variable {N : Type}

/-- `set` -/
def set (self : Json N) (key : CString) (o : Json N) : Except UnsupportedOperation (Json N) :=
  match self with
  | object ms => .ok (object (ms ++ [(key, o)]))
  | _ => .error ⟨ascii "json::Object::set - object is not a JSON object"⟩

/-- Calls of `set`, one after the other. -/
def sets (self : Json N) : List (CString × Json N) → Except UnsupportedOperation (Json N)
  | [] => .ok self
  | (key, o) :: calls => (set self key o).bind (sets · calls)

/-- `get`; a null pointer when there is no such member. -/
def get (self : Json N) (key : CString) (shouldThrow : Bool) :
    Except UnsupportedOperation (Option (Json N)) :=
  match self with
  | object ms => .ok (findMember ms key)
  | _ =>
    if shouldThrow then
      .error ⟨ascii "json::Object::[" ++ key.bytes ++ ascii "] - object is not a JSON object"⟩
    else .ok none

/-- `json_foreach`, up to the member at which the callback says that it is enough. -/
def foreach {S : Type} (f : CString → Json N → S → Bool × S) : List (CString × Json N) → S → S
  | [], s => s
  | (key, obj) :: ms, s => if (f key obj s).1 then (f key obj s).2 else foreach f ms (f key obj s).2

/-- `operator|`, of an object. -/
def enumerate {S : Type} (self : Json N) (f : CString → Json N → S → Bool × S) (s : S) :
    Except UnsupportedOperation S :=
  match self with
  | object ms => .ok (foreach f ms s)
  | _ => .error ⟨ascii "json::Object::enumerate - object is not a JSON object"⟩

/-- What the iterators from `begin` to `end` point at; elements have no key. -/
def iterate : Json N → List (Option CString × Json N)
  | array xs => xs.map fun x => (none, x)
  | object ms => ms.map fun m => (some m.1, m.2)
  | _ => []

/-- What an enumeration comes to. -/
def visited (self : Json N) : Except UnsupportedOperation (List (CString × Json N)) :=
  enumerate self (fun key obj seen => (false, seen ++ [(key, obj)])) []

/-- A key has what it was given last, or what it had; the enumerations come to every key once, and
with what it has. -/
def SetsRight (ms calls : List (CString × Json N)) : Prop :=
  ∃ after pairs, sets (object ms) calls = .ok after ∧
    (∀ key, get after key true = .ok (assigned (member ms) calls key)) ∧
    visited after = .ok pairs ∧ iterate after = pairs.map (fun m => (some m.1, m.2)) ∧
    (pairs.map Prod.fst).Nodup ∧ ∀ key v, (key, v) ∈ pairs ↔ get after key true = .ok (some v)

variable {ms calls : List (CString × Json N)}

theorem member_eq_lookup (ms : List (CString × Json N)) (key : CString) :
    member ms key = ms.lookup key := by
  induction ms with
  | nil => rfl
  | cons m ms ih =>
    obtain ⟨k, v⟩ := m
    rw [List.lookup_cons, member, List.find?_cons]
    by_cases hk : k = key
    · rw [hk, beq_self_eq_true, decide_eq_true rfl]
      rfl
    · rw [decide_eq_false hk, beq_eq_false_iff_ne.mpr (Ne.symm hk)]
      exact ih

theorem get_object (ms : List (CString × Json N)) (key : CString) (shouldThrow : Bool) :
    get (object ms) key shouldThrow = .ok (ms.lookup key) := by
  rw [get, findMember_eq, member_eq_lookup]

/-- All members are visited. -/
theorem foreach_collect (ms seen : List (CString × Json N)) :
    foreach (fun key obj seen => (false, seen ++ [(key, obj)])) ms seen = seen ++ ms := by
  induction ms generalizing seen with
  | nil => rw [foreach, List.append_nil]
  | cons m ms ih =>
    rw [foreach, if_neg Bool.false_ne_true, ih, List.append_assoc, List.singleton_append]

theorem visited_object (ms : List (CString × Json N)) : visited (object ms) = .ok ms :=
  congrArg Except.ok (foreach_collect ms [])

/-- **The members behind some calls**: all there were, and all that were set. -/
theorem sets_eq (ms calls : List (CString × Json N)) :
    sets (object ms) calls = .ok (object (ms ++ calls)) := by
  induction calls generalizing ms with
  | nil => rw [sets, List.append_nil]
  | cons c calls ih =>
    rw [sets, set]
    show sets _ calls = _
    rw [ih, List.append_assoc, List.singleton_append]

/-- **What a key has** is what it had, or else what it was given first. -/
theorem get_sets {after : Json N} (h : sets (object ms) calls = .ok after) (key : CString)
    (shouldThrow : Bool) :
    get after key shouldThrow = .ok ((ms.lookup key).or (calls.lookup key)) := by
  rw [sets_eq] at h
  obtain rfl := Except.ok.inj h
  rw [get_object, List.lookup_append]

/-- **When the calls make a map of the object**: no key is set twice, or was there. -/
theorem sets_iff (ms calls : List (CString × Json N)) :
    SetsRight ms calls ↔ ((ms ++ calls).map Prod.fst).Nodup := by
  have hmember : member ms = (ms.lookup ·) := funext (member_eq_lookup ms)
  constructor
  · rintro ⟨after, pairs, hsets, -, hvisited, -, hnodup, -⟩
    rw [sets_eq] at hsets
    obtain rfl := Except.ok.inj hsets
    rw [visited_object] at hvisited
    obtain rfl := Except.ok.inj hvisited
    exact hnodup
  · intro hnodup
    refine ⟨_, _, sets_eq ms calls, fun key => ?_, visited_object _, rfl, hnodup, fun key v => ?_⟩
    · rw [get_object, hmember, lookup_append_eq_assigned hnodup]
    · rw [get_object, Except.ok.injEq]
      exact mem_iff_lookup hnodup

/-- The second value of a key is not found, and the key is visited twice. -/
theorem not_sets :
    ¬ SetsRight ([] : List (CString × Json ℤ)) [(letter, number 1), (letter, number 2)] ∧
      ∃ after, sets (object []) [(letter, number 1), (letter, number 2)] = .ok after ∧
        get after letter true = .ok (some (number (1 : ℤ))) ∧
        visited after = .ok [(letter, number 1), (letter, number 2)] := by
  refine ⟨?_, _, sets_eq _ _, rfl, visited_object _⟩
  rw [sets_iff]
  decide

end Suil.JsonObjects
