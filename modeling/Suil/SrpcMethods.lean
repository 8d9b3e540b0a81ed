/-
The method ids of an RPC server.

A context gives its methods the ids 1, 2, … and its extensions the ids −1, −2, …
in the order of their registration; a name that is there keeps its id.  A client
looks a name up in the metadata of the server.  It takes a name for an extension
when its first four bytes are the three bytes `rpc`, which no name's are.

* `appendMethod_eq` — an id is the place of the name among those of its kind;
* `run_numbers` — of every id that was given;
* `run_assigns_iff` — the runs and names for which server and client agree.
-/
import Suil.Strings
import Suil.StringParts
import Suil.Lib.Numbering
import Suil.Lib.Runs

open Runs Numbering

namespace Suil.Srpc

structure Method where
  id : ℤ
  name : Bytes
deriving DecidableEq

structure Metadata where
  version : Bytes
  methods : List Method
  extensions : List Method
deriving DecidableEq

def rpcMetaRequest : ℤ := 0

def rpcVersion : ℤ := -1

def rpcUseProto : ℤ := -2

def versionName : Bytes := ascii "rpc_Version"

def protoName : Bytes := ascii "rpc_enableProtoSize"

/-- `int` arithmetic that stays in its range. -/
def int (n : ℤ) : Option ℤ := if -2 ^ 31 ≤ n ∧ n < 2 ^ 31 then some n else none

/-- The loop of `appendMethod`: the id under this name, or else the last id. -/
def scan (method : Bytes) : ℤ → List Method → ℤ ⊕ ℤ
  | id, [] => .inr id
  | _, m :: ms => if strEq m.name method then .inl m.id else scan method m.id ms

/-- `Context::appendMethod`. -/
def appendMethod (c : Metadata) (method : Bytes) (isExtension : Bool) : Option (ℤ × Metadata) :=
  if isExtension then
    match scan method 0 c.extensions with
    | .inl id => some (id, c)
    | .inr id => (int (id - 1)).map fun id =>
        (id, { c with extensions := c.extensions ++ [⟨id, method⟩] })
  else
    match scan method 0 c.methods with
    | .inl id => some (id, c)
    | .inr id => (int (id + 1)).map fun id =>
        (id, { c with methods := c.methods ++ [⟨id, method⟩] })

/-- `Client::getMethodId`; `none` is an exception. -/
def getMethodId (c : Metadata) (method : Bytes) : Option ℤ :=
  if method = [] then some rpcMetaRequest
  else
    let entries := if strEq (substr method 0 4) (ascii "rpc") then c.extensions else c.methods
    let id := ((entries.find? fun m => strEq m.name method).map Method.id).getD rpcMetaRequest
    if id = rpcMetaRequest then none else some id

/-- A registration. -/
structure Registration where
  name : Bytes
  isExtension : Bool
deriving DecidableEq

/-- The machine of the registrations. -/
def register (c : Metadata) (r : Registration) : Option (ℤ × Metadata) :=
  appendMethod c r.name r.isExtension

/-- `Context::init`, before the methods of the service are registered. -/
def init (c : Metadata) : Option Metadata := do
  let (_, c) ← appendMethod { c with version := ascii "0.1.0" } versionName true
  let (_, c) ← appendMethod c protoName true
  some c

/-- The names registered as methods or as extensions. -/
def names (isExtension : Bool) (ms : List (Move Metadata Registration ℤ)) : List Bytes :=
  (ms.filter fun m => m.input.isExtension = isExtension).map fun m => m.input.name

/-- What server and client promise after these registrations, the client for this name. -/
structure Assigns (ms : List (Move Metadata Registration ℤ)) (c : Metadata) (n : Bytes) : Prop where
  distinct : ∀ m ∈ ms, ∀ m' ∈ ms, m.input.name ≠ m'.input.name → m.output ≠ m'.output
  positive : ∀ m ∈ ms, m.input.isExtension = false → 0 < m.output
  negative : ∀ m ∈ ms, m.input.isExtension = true → m.output < 0
  version : ∀ m ∈ ms, m.input = ⟨versionName, true⟩ → m.output = rpcVersion
  useProto : ∀ m ∈ ms, m.input = ⟨protoName, true⟩ → m.output = rpcUseProto
  found : (∃ m ∈ ms, m.input.name = n ∧ getMethodId c n = some m.output) ∨
    ((∀ m ∈ ms, m.input.name ≠ n) ∧ getMethodId c n = none)

/-- The registrations and names for which this is so: no two names differ behind a zero byte only,
the two extensions of every server are registered first, in their order, and the name is that of a
method, or that of nothing. -/
structure Distinguished (ms : List (Move Metadata Registration ℤ)) (n : Bytes) : Prop where
  apart : ∀ k, ∀ a ∈ names k ms, ∀ b ∈ names k ms, strEq a b = true → a = b
  version : versionName ∈ names true ms → (names true ms).head? = some versionName
  useProto : protoName ∈ names true ms →
    (names true ms).find? (fun a => some a ≠ (names true ms).head?) = some protoName
  nonempty : n ≠ []
  method : n ∈ names false ms ∨ (n ∉ names true ms ∧ ∀ a ∈ names false ms, strEq a n = false)

variable {ms : List (Move Metadata Registration ℤ)} {c t : Metadata} {a b n : Bytes}
  {k : Bool}

section Equality

theorem strncmpEq_length_iff {a b : Bytes} (h : a.length = b.length) :
    strncmpEq a.length a b = true ↔ a.takeWhile (· != 0) = b.takeWhile (· != 0) := by
  induction a generalizing b with
  | nil =>
    obtain rfl := List.length_eq_zero_iff.mp h.symm
    simp [strncmpEq]
  | cons c a ih =>
    rcases b with _ | ⟨d, b⟩
    · exact absurd h (by simp)
    · simp only [List.length_cons, strncmpEq, List.headD_cons, List.tail_cons, Bool.and_eq_true,
        beq_iff_eq, Bool.or_eq_true, List.takeWhile_cons]
      rw [ih (by simpa using h)]
      by_cases hc : c = 0
      · by_cases hd : d = 0
        · simp [hc, hd]
        · simp [hc, hd, Ne.symm hd]
      · by_cases hd : d = 0
        · simp [hd, hc]
        · simp [hc, hd]

/-- Strings are equal for the program when they have one length and one text up to a zero byte. -/
theorem strEq_iff_length (a b : Bytes) : strEq a b = true ↔
    a.length = b.length ∧ a.takeWhile (· != 0) = b.takeWhile (· != 0) := by
  rw [strEq]
  split_ifs with h
  · simp only [Bool.and_eq_true, decide_eq_true_eq]
    constructor
    · rintro ⟨rfl, rfl⟩
      exact ⟨rfl, rfl⟩
    · rintro ⟨hlen, -⟩
      rcases h with rfl | rfl
      · exact ⟨rfl, List.length_eq_zero_iff.mp hlen.symm⟩
      · exact ⟨List.length_eq_zero_iff.mp hlen, rfl⟩
  · simp only [Bool.and_eq_true, decide_eq_true_eq]
    exact and_congr_right strncmpEq_length_iff

theorem strEq_laws : Laws strEq where
  refl := strEq_self
  symm := by
    intro a b h
    obtain ⟨hlen, htext⟩ := (strEq_iff_length a b).mp h
    exact (strEq_iff_length b a).mpr ⟨hlen.symm, htext.symm⟩
  trans := by
    intro a b c h h'
    obtain ⟨hlen, htext⟩ := (strEq_iff_length a b).mp h
    obtain ⟨hlen', htext'⟩ := (strEq_iff_length b c).mp h'
    exact (strEq_iff_length a c).mpr ⟨hlen.trans hlen', htext.trans htext'⟩

/-- Four bytes are not three. -/
theorem not_rpc (n : Bytes) : strEq (substr n 0 4) (ascii "rpc") = false := by
  have hlen : (ascii "rpc").length = 3 := by decide +kernel
  have hfour : substr n 0 4 = if 4 ≤ n.length then n.take 4 else [] := by simp [substr]
  refine Bool.eq_false_iff.mpr fun h => ?_
  have heq := ((strEq_iff_length _ _).mp h).1
  rw [hlen, hfour] at heq
  split_ifs at heq with hfits
  rw [List.length_take] at heq
  omega

end Equality

section Ids

/-- The id that was given at a place. -/
def idAt (k : Bool) (i : ℕ) : ℤ := if k then -i else i

/-- The entries for these names, when `j` ids are given. -/
def entries (k : Bool) : ℕ → List Bytes → List Method
  | _, [] => []
  | j, n :: ns => ⟨idAt k (j + 1), n⟩ :: entries k (j + 1) ns

theorem entries_append (k : Bool) (j : ℕ) (ns : List Bytes) (n : Bytes) :
    entries k j (ns ++ [n]) = entries k j ns ++ [⟨idAt k (j + ns.length + 1), n⟩] := by
  induction ns generalizing j with
  | nil => rfl
  | cons m ns ih =>
    rw [List.cons_append, entries, entries, ih, List.cons_append, List.length_cons]
    rw [show j + 1 + ns.length + 1 = j + (ns.length + 1) + 1 by omega]

theorem scan_entries (n : Bytes) (k : Bool) (j : ℕ) (ns : List Bytes) :
    scan n (idAt k j) (entries k j ns) =
      if ns.findIdx (strEq · n) < ns.length then .inl (idAt k (j + ns.findIdx (strEq · n) + 1))
      else .inr (idAt k (j + ns.length)) := by
  induction ns generalizing j with
  | nil => rfl
  | cons m ns ih =>
    rw [entries, scan, List.findIdx_cons, List.length_cons]
    rcases hm : strEq m n with _ | _
    · rw [if_neg Bool.false_ne_true, ih, cond_false]
      simp only [Nat.add_lt_add_iff_right]
      split_ifs
      · rw [show j + 1 + ns.findIdx (strEq · n) + 1 = j + (ns.findIdx (strEq · n) + 1) + 1 by omega]
      · rw [show j + 1 + ns.length = j + (ns.length + 1) by omega]
    · rw [if_pos rfl, cond_true, if_pos (Nat.succ_pos _)]

theorem find?_entries (n : Bytes) (k : Bool) (j : ℕ) (ns : List Bytes) :
    ((entries k j ns).find? fun m => strEq m.name n).map Method.id =
      if ns.findIdx (strEq · n) < ns.length then some (idAt k (j + ns.findIdx (strEq · n) + 1))
      else none := by
  induction ns generalizing j with
  | nil => rfl
  | cons m ns ih =>
    rw [entries, List.find?_cons, List.findIdx_cons, List.length_cons]
    rcases hm : strEq m n with _ | _
    · rw [cond_false, ih]
      simp only [Nat.add_lt_add_iff_right]
      rw [show j + 1 + ns.findIdx (strEq · n) + 1 = j + (ns.findIdx (strEq · n) + 1) + 1 by omega]
    · rw [cond_true, if_pos (Nat.succ_pos _)]
      rfl

/-- The methods or the extensions. -/
def Metadata.ofKind (c : Metadata) (k : Bool) : List Method := if k then c.extensions else c.methods

/-- The next id is that of the next place, when it is an `int`. -/
theorem next_idAt {i : ℕ} {id : ℤ} (h : int (if k then idAt k i - 1 else idAt k i + 1) = some id) :
    id = idAt k (i + 1) := by
  rw [int, Option.ite_none_right_eq_some] at h
  rw [← Option.some.inj h.2]
  rcases k with _ | _
  · show (i : ℤ) + 1 = ((i + 1 : ℕ) : ℤ)
    omega
  · show -(i : ℤ) - 1 = -((i + 1 : ℕ) : ℤ)
    omega

/-- What a registration does when the names before it have the ids of their places. -/
theorem appendMethod_eq {as : List Bytes} {id : ℤ} (hc : c.ofKind k = entries k 0 (firsts strEq as))
    (h : appendMethod c n k = some (id, t)) :
    id = idAt k (place strEq (as ++ [n]) n + 1) ∧
      t.ofKind k = entries k 0 (firsts strEq (as ++ [n])) ∧ t.ofKind (!k) = c.ofKind (!k) := by
  have hzero : (0 : ℤ) = idAt k 0 := by rcases k with _ | _ <;> rfl
  have hscan : scan n 0 (c.ofKind k) = if place strEq as n < (firsts strEq as).length
      then .inl (idAt k (place strEq as n + 1)) else .inr (idAt k (firsts strEq as).length) := by
    rw [hc, hzero, scan_entries, Nat.zero_add, Nat.zero_add]
    rfl
  have hany : (firsts strEq as).any (strEq · n) = true ↔
      place strEq as n < (firsts strEq as).length := by
    rw [place, List.findIdx_lt_length, List.any_eq_true]
  by_cases hlt : place strEq as n < (firsts strEq as).length
  · -- the name has its id
    rw [place_concat hlt, firsts_concat, if_pos (hany.mpr hlt)]
    rw [if_pos hlt] at hscan
    suffices some (idAt k (place strEq as n + 1), c) = some (id, t) by
      obtain ⟨rfl, rfl⟩ := Prod.mk.inj (Option.some.inj this)
      exact ⟨rfl, hc, rfl⟩
    rw [← h, appendMethod]
    rcases k with _ | _
    · rw [if_neg Bool.false_ne_true, show c.methods = c.ofKind false from rfl, hscan]
    · rw [if_pos rfl, show c.extensions = c.ofKind true from rfl, hscan]
  · -- the name gets the next id
    rw [if_neg hlt] at hscan
    have hplace : place strEq (as ++ [n]) n = (firsts strEq as).length := by
      have hself : strEq n n = true := strEq_laws.refl n
      have hnone : (firsts strEq as).findIdx (strEq · n) = (firsts strEq as).length :=
        le_antisymm List.findIdx_le_length (not_lt.mp hlt)
      rw [place, firsts_concat, if_neg (mt hany.mp hlt), List.findIdx_append, hnone,
        if_neg (lt_irrefl _), List.findIdx_cons, hself, cond_true, Nat.zero_add]
    rw [hplace, firsts_concat, if_neg (mt hany.mp hlt), entries_append, ← hc, Nat.zero_add]
    rw [appendMethod] at h
    rcases k with _ | _
    · rw [if_neg Bool.false_ne_true, show c.methods = c.ofKind false from rfl, hscan] at h
      obtain ⟨id', hid, heq⟩ := Option.map_eq_some_iff.mp h
      obtain ⟨rfl, rfl⟩ := Prod.mk.inj heq
      rw [next_idAt (k := false) hid]
      exact ⟨rfl, rfl, rfl⟩
    · rw [if_pos rfl, show c.extensions = c.ofKind true from rfl, hscan] at h
      obtain ⟨id', hid, heq⟩ := Option.map_eq_some_iff.mp h
      obtain ⟨rfl, rfl⟩ := Prod.mk.inj heq
      rw [next_idAt (k := true) hid]
      exact ⟨rfl, rfl, rfl⟩

theorem idAt_inj {k k' : Bool} {i j : ℕ} :
    idAt k (i + 1) = idAt k' (j + 1) ↔ k = k' ∧ i = j := by
  rcases k with _ | _ <;> rcases k' with _ | _ <;> simp [idAt] <;> omega

theorem names_concat (k : Bool) (ms : List (Move Metadata Registration ℤ))
    (m : Move Metadata Registration ℤ) : names k (ms ++ [m]) =
      if m.input.isExtension = k then names k ms ++ [m.input.name] else names k ms := by
  rw [names, List.filter_append, List.map_append]
  by_cases hk : m.input.isExtension = k
  · simp [names, hk]
  · simp [names, hk]

theorem mem_names {k : Bool} : n ∈ names k ms ↔ ∃ m ∈ ms, m.input = ⟨n, k⟩ := by
  simp only [names, List.mem_map, List.mem_filter, decide_eq_true_eq]
  constructor
  · rintro ⟨m, ⟨hm, rfl⟩, rfl⟩
    exact ⟨m, hm, rfl⟩
  · rintro ⟨m, hm, heq⟩
    exact ⟨m, ⟨hm, by rw [heq]⟩, by rw [heq]⟩

theorem mem_names_self {m : Move Metadata Registration ℤ} (hm : m ∈ ms) :
    m.input.name ∈ names m.input.isExtension ms := mem_names.mpr ⟨m, hm, rfl⟩

/-- The ids given so far, and the entries for them, are the places of the names. -/
structure Numbered (ms : List (Move Metadata Registration ℤ)) (c : Metadata) : Prop where
  table : ∀ k, c.ofKind k = entries k 0 (firsts strEq (names k ms))
  output : ∀ m ∈ ms, m.output =
    idAt m.input.isExtension (place strEq (names m.input.isExtension ms) m.input.name + 1)

theorem Numbered.concat (h : Numbered ms c) {r : Registration} {id : ℤ}
    (hstep : register c r = some (id, t)) : Numbered (ms ++ [⟨c, r, id, t⟩]) t := by
  obtain ⟨hid, htable, hother⟩ := appendMethod_eq (h.table r.isExtension) hstep
  constructor
  · intro k
    rw [names_concat]
    split_ifs with hk
    · rw [← show r.isExtension = k from hk]
      exact htable
    · rw [← h.table k]
      have hnot : k = !r.isExtension := Bool.eq_not.mpr fun heq => hk heq.symm
      rw [hnot]
      exact hother
  · intro m hm
    rw [names_concat]
    rcases List.mem_append.mp hm with hm | hm
    · -- an id that was given before stays the place of its name
      rw [h.output m hm]
      split_ifs with hk
      · rw [place_concat (place_lt strEq_laws (mem_names_self hm))]
      · rfl
    · obtain rfl := List.mem_singleton.mp hm
      rw [if_pos rfl]
      exact hid

/-- The ids of a run are the places of the names. -/
theorem run_numbers {v : Bytes} (h : Run register ⟨v, [], []⟩ ms t) : Numbered ms t := by
  refine h.rule (G := fun _ _ => True) (J := Numbered) ⟨?_, ?_⟩ ?_ fun _ _ => trivial
  · intro k
    rcases k with _ | _ <;> rfl
  · exact fun m hm => absurd hm List.not_mem_nil
  · exact fun ms u i o w hu _ hstep => hu.concat hstep

end Ids

section Clauses

theorem idAt_pos (i : ℕ) : 0 < idAt false (i + 1) := by
  simp only [idAt, Bool.false_eq_true, if_false]
  omega

theorem idAt_neg (i : ℕ) : idAt true (i + 1) < 0 := by
  simp only [idAt, if_true]
  omega

theorem Numbered.distinct_iff (h : Numbered ms c) :
    (∀ m ∈ ms, ∀ m' ∈ ms, m.input.name ≠ m'.input.name → m.output ≠ m'.output) ↔
      ∀ k, ∀ a ∈ names k ms, ∀ b ∈ names k ms, strEq a b = true → a = b := by
  constructor
  · intro hdist k a ha b hb hab
    obtain ⟨m, hm, hma⟩ := mem_names.mp ha
    obtain ⟨m', hm', hmb⟩ := mem_names.mp hb
    by_contra hne
    -- related names would share an id
    refine hdist m hm m' hm' (by rw [hma, hmb]; exact hne) ?_
    rw [h.output m hm, h.output m' hm', hma, hmb]
    exact idAt_inj.mpr ⟨rfl, (place_inj strEq_laws ha hb).mpr hab⟩
  · intro hapart m hm m' hm' hne heq
    rw [h.output m hm, h.output m' hm'] at heq
    obtain ⟨hk, hplace⟩ := idAt_inj.mp heq
    have hm'k := mem_names_self hm'
    rw [← hk] at hplace hm'k
    exact hne (hapart _ _ (mem_names_self hm) _ hm'k
      ((place_inj strEq_laws (mem_names_self hm) hm'k).mp hplace))

/-- An extension has an id by its place. -/
theorem Numbered.extension_iff (h : Numbered ms c) (n : Bytes) (i : ℕ) :
    (∀ m ∈ ms, m.input = ⟨n, true⟩ → m.output = idAt true (i + 1)) ↔
      (n ∈ names true ms → place strEq (names true ms) n = i) := by
  constructor
  · intro hout hn
    obtain ⟨m, hm, hmn⟩ := mem_names.mp hn
    have hid := hout m hm hmn
    rw [h.output m hm, hmn] at hid
    exact (idAt_inj.mp hid).2
  · intro hplace m hm hmn
    rw [h.output m hm, hmn, hplace (mem_names.mpr ⟨m, hm, hmn⟩)]

theorem versionName_free : (0 : UInt8) ∉ versionName ∧ versionName ≠ [] := by decide +kernel

theorem protoName_free : (0 : UInt8) ∉ protoName ∧ protoName ≠ [] := by decide +kernel

/-- A name without a zero byte is equal only to itself. -/
theorem strEq_left_iff (h : (0 : UInt8) ∉ n ∧ n ≠ []) (a : Bytes) : strEq a n = true ↔ a = n := by
  rw [← strEq_eq_true_iff h.1 h.2]
  exact ⟨strEq_laws.symm, strEq_laws.symm⟩

theorem Numbered.version_iff (h : Numbered ms c) :
    (∀ m ∈ ms, m.input = ⟨versionName, true⟩ → m.output = rpcVersion) ↔
      (versionName ∈ names true ms → (names true ms).head? = some versionName) := by
  rw [show rpcVersion = idAt true (0 + 1) from rfl, h.extension_iff]
  refine forall_congr' fun hmem => ?_
  rcases hns : names true ms with _ | ⟨a, as⟩
  · exact absurd (hns ▸ hmem) List.not_mem_nil
  · rw [place_eq_zero_iff, strEq_left_iff versionName_free, List.head?_cons, Option.some.injEq]

theorem Numbered.useProto_iff (h : Numbered ms c)
    (hapart : ∀ a ∈ names true ms, ∀ b ∈ names true ms, strEq a b = true → a = b) :
    (∀ m ∈ ms, m.input = ⟨protoName, true⟩ → m.output = rpcUseProto) ↔
      (protoName ∈ names true ms →
        (names true ms).find? (fun a => some a ≠ (names true ms).head?) = some protoName) := by
  rw [show rpcUseProto = idAt true (1 + 1) from rfl, h.extension_iff]
  refine forall_congr' fun hmem => ?_
  rcases hns : names true ms with _ | ⟨a, as⟩
  · exact absurd (hns ▸ hmem) List.not_mem_nil
  rw [hns] at hapart hmem
  -- as related names are equal, the second place is that of the first other name
  have hother : ∀ b ∈ as, (!strEq a b) = decide (some b ≠ some a) := by
    intro b hb
    have hiff : strEq a b = true ↔ b = a :=
      ⟨fun hab => (hapart a List.mem_cons_self b (List.mem_cons_of_mem _ hb) hab).symm,
        fun hab => hab ▸ strEq_laws.refl a⟩
    by_cases hab : b = a
    · simp [hab, strEq_laws.refl a]
    · simp [hab, Bool.eq_false_iff.mpr fun h => hab (hiff.mp h)]
  rw [place_eq_one_iff, List.head?_cons, List.find?_cons, List.find?_congr hother]
  simp only [ne_eq, not_true_eq_false, decide_false, strEq_left_iff protoName_free]
  constructor
  · rintro ⟨ha, hfind⟩
    have hne : protoName ≠ a := fun heq => by simp [← heq, strEq_laws.refl] at ha
    have has : protoName ∈ as := (List.mem_cons.mp hmem).resolve_left hne
    obtain ⟨b, hb⟩ : ∃ b, as.find? (fun b => decide (some b ≠ some a)) = some b := by
      refine Option.isSome_iff_exists.mp (List.find?_isSome.mpr ⟨protoName, has, ?_⟩)
      simp [hne]
    obtain rfl := hfind b hb
    exact hb
  · intro hfind
    refine ⟨?_, fun b hb => (Option.some.inj (hfind ▸ hb)).symm⟩
    have hne : protoName ≠ a := by simpa using List.find?_some hfind
    have has := List.mem_of_find?_eq_some hfind
    simpa [hne] using hother protoName has

theorem Numbered.getMethodId_eq (h : Numbered ms c) (hn : n ≠ []) : getMethodId c n =
    if ∃ a ∈ names false ms, strEq a n = true then
      some (idAt false (place strEq (names false ms) n + 1))
    else none := by
  have hlt : (firsts strEq (names false ms)).findIdx (strEq · n) <
      (firsts strEq (names false ms)).length ↔ ∃ a ∈ names false ms, strEq a n = true :=
    place_lt_iff strEq_laws n
  have hfind := find?_entries n false 0 (firsts strEq (names false ms))
  rw [← h.table false] at hfind
  simp only [hlt, Nat.zero_add] at hfind
  rw [getMethodId, if_neg hn, not_rpc, if_neg Bool.false_ne_true]
  simp only [show c.methods = c.ofKind false from rfl, hfind]
  by_cases hmem : ∃ a ∈ names false ms, strEq a n = true
  · rw [if_pos hmem, if_pos hmem, Option.getD_some]
    exact if_neg (idAt_pos _).ne'
  · rw [if_neg hmem, if_neg hmem]
    rfl

/-- The client finds the name of a method; it takes no other name but one that differs from that
of a method behind a zero byte. -/
theorem Numbered.found_iff (h : Numbered ms c) :
    ((∃ m ∈ ms, m.input.name = n ∧ getMethodId c n = some m.output) ∨
      ((∀ m ∈ ms, m.input.name ≠ n) ∧ getMethodId c n = none)) ↔
    n ≠ [] ∧ (n ∈ names false ms ∨
      (n ∉ names true ms ∧ ∀ a ∈ names false ms, strEq a n = false)) := by
  have hout : ∀ m ∈ ms, m.output ≠ rpcMetaRequest := by
    intro m hm
    rw [h.output m hm]
    rcases m.input.isExtension with _ | _
    · exact (idAt_pos _).ne'
    · exact (idAt_neg _).ne
  by_cases hn : n = []
  · -- the empty name is the id of the metadata
    have hget : getMethodId c n = some rpcMetaRequest := if_pos hn
    rw [hget]
    constructor
    · rintro (⟨m, hm, -, heq⟩ | ⟨-, heq⟩)
      · exact absurd (Option.some.inj heq).symm (hout m hm)
      · exact absurd heq (Option.some_ne_none _)
    · exact fun hnot => absurd hn hnot.1
  rw [h.getMethodId_eq hn]
  constructor
  · rintro (⟨m, hm, hmn, heq⟩ | ⟨hnone, heq⟩)
    · refine ⟨hn, .inl ?_⟩
      split_ifs at heq
      have hid := (Option.some.inj heq).trans (h.output m hm)
      have hk := (idAt_inj.mp hid).1
      exact mem_names.mpr ⟨m, hm, by rw [← hmn, hk]⟩
    · refine ⟨hn, .inr ⟨?_, fun a ha => ?_⟩⟩
      · intro hmem
        obtain ⟨m, hm, hmn⟩ := mem_names.mp hmem
        exact hnone m hm (by rw [hmn])
      · split_ifs at heq with hany
        exact Bool.eq_false_iff.mpr fun h => hany ⟨a, ha, h⟩
  · rintro ⟨-, hmem | ⟨htrue, hnone⟩⟩
    · obtain ⟨m, hm, hmn⟩ := mem_names.mp hmem
      refine .inl ⟨m, hm, by rw [hmn], ?_⟩
      rw [if_pos ⟨n, hmem, strEq_laws.refl n⟩, h.output m hm, hmn]
    · -- no registration gave this name
      refine .inr ⟨fun m hm hmn => ?_, if_neg ?_⟩
      · rcases hk : m.input.isExtension with _ | _
        · have hfalse := hnone n (mem_names.mpr ⟨m, hm, by rw [← hmn, ← hk]⟩)
          rw [strEq_laws.refl n] at hfalse
          exact absurd hfalse (by decide)
        · exact htrue (mem_names.mpr ⟨m, hm, by rw [← hmn, ← hk]⟩)
      · rintro ⟨a, ha, heq⟩
        rw [hnone a ha] at heq
        exact absurd heq (by decide)

end Clauses

/-- **The ids of a run**: client and server agree for a name after registrations iff these and the
name are as `Distinguished` says. -/
theorem run_assigns_iff (v : Bytes) (ms : List (Move Metadata Registration ℤ)) (c : Metadata)
    (n : Bytes) (h : Run register ⟨v, [], []⟩ ms c) : Assigns ms c n ↔ Distinguished ms n := by
  have hnum := run_numbers h
  constructor
  · rintro ⟨hdist, -, -, hver, hproto, hfound⟩
    have hapart := hnum.distinct_iff.mp hdist
    obtain ⟨hne, hmeth⟩ := hnum.found_iff.mp hfound
    have hproto' := (hnum.useProto_iff (hapart true)).mp hproto
    exact ⟨hapart, hnum.version_iff.mp hver, hproto', hne, hmeth⟩
  · rintro ⟨hapart, hver, hproto, hne, hmeth⟩
    refine ⟨hnum.distinct_iff.mpr hapart, ?_, ?_, hnum.version_iff.mpr hver,
      (hnum.useProto_iff (hapart true)).mpr hproto, hnum.found_iff.mpr ⟨hne, hmeth⟩⟩
    · intro m hm hk
      rw [hnum.output m hm, hk]
      exact idAt_pos _
    · intro m hm hk
      rw [hnum.output m hm, hk]
      exact idAt_neg _

/-- What `init` registers is the start of a run. -/
theorem run_init {c' : Metadata} (h : init c = some c') :
    ∃ ms, Run register { c with version := ascii "0.1.0" } ms c' ∧
      ms.map Move.input = [⟨versionName, true⟩, ⟨protoName, true⟩] := by
  obtain ⟨⟨i, u⟩, hversion, h⟩ := Option.bind_eq_some_iff.mp h
  obtain ⟨⟨j, w⟩, hproto, h⟩ := Option.bind_eq_some_iff.mp h
  obtain rfl := Option.some.inj h
  have hv : register { c with version := ascii "0.1.0" } ⟨versionName, true⟩ = some (i, u) :=
    hversion
  have hp : register u ⟨protoName, true⟩ = some (j, w) := hproto
  exact ⟨_, .snoc (.snoc (.nil _) hv) hp, rfl⟩

/-- The start of a server whose service has one method. -/
def started : List Registration :=
  [⟨versionName, true⟩, ⟨protoName, true⟩, ⟨ascii "get", false⟩]

theorem run_assigns_started :
    Assigns (moves register ⟨[], [], []⟩ started) (final register ⟨[], [], []⟩ started)
      (ascii "get") := by
  refine (run_assigns_iff [] _ _ (ascii "get") (run_final _ _ _)).mpr ⟨?_, ?_, ?_, ?_, ?_⟩
  all_goals decide +kernel

/-- A client does not find the extension that every server has. -/
theorem not_run_assigns :
    ¬ Assigns (moves register ⟨[], [], []⟩ started) (final register ⟨[], [], []⟩ started)
      versionName := by
  intro h
  have hnone : getMethodId (final register ⟨[], [], []⟩ started) versionName = none := by
    decide +kernel
  have hmem : ∃ m ∈ moves register ⟨[], [], []⟩ started, m.input.name = versionName := by
    decide +kernel
  rcases h.found with ⟨m, -, -, hsome⟩ | ⟨hnot, -⟩
  · rw [hnone] at hsome
    exact absurd hsome (Option.some_ne_none _).symm
  · obtain ⟨m, hm, hname⟩ := hmem
    exact hnot m hm hname

end Suil.Srpc
