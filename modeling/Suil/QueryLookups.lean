/-
Lookups in query strings.

`qs_parse` fills a table of 256 pairs, and counts one more than it passed separators: when the
table ends first, one pair more than it has.  A `QueryString` keeps pointers into its copy of the
text, which move along with it.  `get` looks whether there are any; `getAll` takes the address of
the first one.

* `construct_eq` — the pairs that are stored, when the table holds all of them;
* `qsK2v_eq`, `collect_eq` — the pair that comes n-th, and all of them;
* `step_follows` — one operation, of query strings that hold pairs;
* `lookups_iff` — when query strings that are moved around are looked up in as they should be.
-/
import Suil.QueryString
import Suil.Lib.Runs

open Runs

namespace Suil.QueryLookups

open QueryString (cstr maxArguments ofString qsPair qsStrncmp)

/-! ### The constructor -/

/-- The loop that fills the table: the pairs, and `i` behind it.  It is none when an `int` does not
hold the length of a pair. -/
def fill : ℕ → Bytes → Option (List Bytes × ℕ)
  | 0, _ => some ([], 0)
  | n + 1, substr =>
    let pair := substr.takeWhile (· ≠ 38)
    if pair.length < 2 ^ 31 then
      match substr.dropWhile (· ≠ 38) with
      | [] => some ([pair], 0)
      | _ :: rest => (fill n rest).map fun (kv, i) => (pair :: kv, i + 1)
    else none

/-- So many entries of the table; none when there are less. -/
def entries : ℕ → List Bytes → Option (List Bytes)
  | 0, _ => some []
  | _ + 1, [] => none
  | n + 1, kv :: kvs => (entries n kvs).map (kv :: ·)

/-- `qs_parse`: the pairs, decoded, and what is returned. -/
def qsParse (qs : Bytes) : Option (List Bytes × ℕ) :=
  match qs.dropWhile fun c => c ≠ 63 ∧ c ≠ 35 with
  | [] => some ([], 0)
  | _ :: query => do
    let (kv, i) ← fill maxArguments query
    let kv ← entries (i + 1) kv
    some (kv.map qsPair, i + 1)

/-- `QueryString(sv)`: the pairs that it points to. -/
def construct (sv : Bytes) : Option (List Bytes) :=
  if sv = [] then some []
  else do
    let (params, count) ← qsParse (cstr sv)
    entries count params

/-! ### The objects -/

/-- A `QueryString`: its copy of the text, and the pairs in such a copy. -/
structure Object where
  url : Option ℕ
  params : List (ℕ × ℕ)
deriving DecidableEq

/-- The query strings of a program, by number, and the copies, each with its pairs; one that was
freed is none. -/
structure Program where
  blocks : ℕ → Option (List Bytes)
  next : ℕ
  vars : ℕ → Object

def init : Program := ⟨fun _ => none, 0, fun _ => ⟨none, []⟩⟩

/-- The pair behind a pointer. -/
def read (blocks : ℕ → Option (List Bytes)) (p : ℕ × ℕ) : Option Bytes :=
  (blocks p.1).bind (·[p.2]?)

/-- The value of a pair. -/
def value (kv : Bytes) : Bytes := (kv.dropWhile (· ≠ 61)).tail

/-- The name of a pair is a key. -/
def named (key kv : Bytes) : Bool := qsStrncmp key.length key kv

/-- `qs_k2v`: the value, or a null pointer.  Like the calls below it is none when it reads what is
not a pair that is stored. -/
def qsK2v (blocks : ℕ → Option (List Bytes)) (key : Bytes) : List (ℕ × ℕ) → ℕ →
    Option (Option Bytes)
  | [], _ => some none
  | p :: ps, nth =>
    match read blocks p with
    | none => none
    | some kv =>
      if named key kv then
        if nth = 0 then some (some (value kv)) else qsK2v blocks key ps (nth - 1)
      else qsK2v blocks key ps nth

/-- The loop of `getAll`, which may take so many turns. -/
def collect (blocks : ℕ → Option (List Bytes)) (key : Bytes) (params : List (ℕ × ℕ)) :
    ℕ → ℕ → Option (List Bytes)
  | 0, _ => none
  | turns + 1, count =>
    match qsK2v blocks key params count with
    | none => none
    | some none => some []
    | some (some element) => (collect blocks key params turns (count + 1)).map (element :: ·)

inductive Op where
  | construct (i : ℕ) (sv : Bytes)
  | moveConstruct (i j : ℕ)
  | moveAssign (i j : ℕ)
  | clear (i : ℕ)
  | get (i : ℕ) (name : Bytes)
  | getAll (i : ℕ) (name : Bytes)

inductive Answer where
  | done
  | value (v : Bytes)
  | values (vs : List Bytes)
deriving DecidableEq

section

-- Whether a vector that is moved to itself keeps its elements.
variable (kept : Bool)

/-- An operation; there is no destructor that frees a copy. -/
def step (s : Program) : Op → Option (Answer × Program)
  | .construct i sv =>
    if sv = [] then some (.done, { s with vars := Function.update s.vars i ⟨none, []⟩ })
    else
      (construct sv).map fun kv =>
        (.done, ⟨Function.update s.blocks s.next (some kv), s.next + 1,
          Function.update s.vars i ⟨some s.next, (List.range kv.length).map (s.next, ·)⟩⟩)
  | .moveConstruct i j =>
    some (.done, { s with
      vars := Function.update (Function.update s.vars j ⟨none, []⟩) i (s.vars j) })
  | .moveAssign i j =>
    some (.done, { s with
      vars :=
        if i = j then
          Function.update s.vars i ⟨none, if kept then (s.vars i).params else []⟩
        else Function.update (Function.update s.vars i (s.vars j)) j ⟨none, []⟩ })
  | .clear i =>
    let vars := Function.update s.vars i ⟨none, []⟩
    match (s.vars i).url with
    | none => some (.done, { s with vars := vars })
    | some b =>
      if (s.blocks b).isSome then
        some (.done, { s with blocks := Function.update s.blocks b none, vars := vars })
      else none
  | .get i name =>
    if (s.vars i).params = [] then some (.value [], s)
    else
      (qsK2v s.blocks (cstr name) (s.vars i).params 0).map fun v => (.value (v.getD []), s)
  | .getAll i name =>
    if (s.vars i).params = [] then none
    else
      let params := (s.vars i).params
      (collect s.blocks (cstr (name ++ ascii "[]")) params (params.length + 1) 0).map fun all =>
        (.values all, s)

/-! ### What is right -/

/-- The pairs of a query string. -/
def pairs (sv : Bytes) : List Bytes :=
  match (cstr sv).dropWhile fun c => c ≠ 63 ∧ c ≠ 35 with
  | [] => []
  | _ :: query => query.splitOn 38

/-- The pairs that should be stored. -/
def stored (sv : Bytes) : List Bytes := ((pairs sv).take maxArguments).map qsPair

/-- Query strings that hold their pairs. -/
def follow (a : ℕ → List Bytes) : Op → Answer × (ℕ → List Bytes)
  | .construct i sv => (.done, Function.update a i (stored sv))
  | .moveConstruct i j => (.done, Function.update (Function.update a j []) i (a j))
  | .moveAssign i j =>
    (.done,
      if i = j then if kept then a else Function.update a i []
      else Function.update (Function.update a i (a j)) j [])
  | .clear i => (.done, Function.update a i [])
  | .get i name => (.value (((a i).find? (named (cstr name))).elim [] value), a)
  | .getAll i name =>
    (.values (((a i).filter (named (cstr (name ++ ascii "[]")))).map value), a)

/-- The operations stay inside of the pairs that are stored, and answer with their values. -/
def Right (ops : List Op) : Prop :=
  outputs (step kept) init ops = some (answers (follow kept) (fun _ => []) ops)

end

/-- There are no more pairs than the table holds, and an `int` holds the length of each. -/
def Fits (sv : Bytes) : Prop :=
  (pairs sv).length ≤ maxArguments ∧ ∀ pair ∈ pairs sv, pair.length < 2 ^ 31

instance (sv : Bytes) : Decidable (Fits sv) := inferInstanceAs (Decidable (_ ∧ _))

/-- Query strings that fit are made, and all values are asked for when there is a pair. -/
def Allowed (a : ℕ → List Bytes) : Op → Prop
  | .construct _ sv => Fits sv
  | .getAll i _ => a i ≠ []
  | _ => True

variable {s : Program} {key : Bytes}

/-! ### The pairs -/

/-- A query is one pair, or a pair and a separator before the others. -/
theorem split_cases (s : Bytes) :
    (s.dropWhile (· ≠ 38) = [] ∧ s.takeWhile (· ≠ 38) = s ∧ s.splitOn 38 = [s]) ∨
      ∃ rest, s.dropWhile (· ≠ 38) = 38 :: rest ∧
        s.splitOn 38 = s.takeWhile (· ≠ 38) :: rest.splitOn 38 := by
  have hall : s.takeWhile (· ≠ 38) ++ s.dropWhile (· ≠ 38) = s := List.takeWhile_append_dropWhile
  by_cases hmem : 38 ∈ s
  · have hcut := eq_takeWhile_append hmem
    have hsplit := List.splitOn_append_cons_self_of_not_mem (not_mem_takeWhile 38 s)
      (s.dropWhile (· ≠ 38)).tail
    rw [← hcut] at hsplit
    exact .inr ⟨_, List.append_cancel_left (hall.trans hcut), hsplit⟩
  · have htake := takeWhile_of_not_mem hmem
    rw [htake, List.append_right_eq_self] at hall
    exact .inl ⟨hall, htake, List.splitOn_eq_singleton hmem⟩

/-- **The loop that fills the table**, and what it counts. -/
theorem fill_eq (n : ℕ) (s : Bytes) : fill n s =
    if ∀ pair ∈ (s.splitOn 38).take n, pair.length < 2 ^ 31 then
      some ((s.splitOn 38).take n, min n ((s.splitOn 38).length - 1))
    else none := by
  induction n generalizing s with
  | zero =>
    rw [fill, List.take_zero, if_pos fun p hp => absurd hp List.not_mem_nil, Nat.zero_min]
  | succ n ih =>
    rw [fill]
    rcases split_cases s with ⟨hdrop, htake, hsplit⟩ | ⟨rest, hdrop, hsplit⟩
    · rw [hdrop, htake, hsplit]
      simp
    · have hpos := List.length_pos_of_ne_nil (List.splitOn_ne_nil 38 rest)
      rw [hdrop, hsplit]
      dsimp only
      rw [ih rest]
      simp only [List.take_succ_cons, List.forall_mem_cons, List.length_cons, Nat.add_sub_cancel]
      by_cases hshort : (s.takeWhile (· ≠ 38)).length < 2 ^ 31
      · have hcount : min n ((rest.splitOn 38).length - 1) + 1 =
            min (n + 1) (rest.splitOn 38).length := by omega
        rw [if_pos hshort, if_congr (and_iff_right hshort) rfl rfl, ← hcount]
        split_ifs <;> rfl
      · rw [if_neg hshort, if_neg fun h => hshort h.1]

theorem entries_eq (n : ℕ) (kv : List Bytes) :
    entries n kv = if n ≤ kv.length then some (kv.take n) else none := by
  induction n generalizing kv with
  | zero => rfl
  | succ n ih =>
    cases kv with
    | nil => rfl
    | cons p kv =>
      rw [entries, ih, List.length_cons, if_congr Nat.succ_le_succ_iff.symm rfl rfl]
      split_ifs <;> rfl

/-- **What is parsed**: all pairs, when the table holds them. -/
theorem qsParse_eq (qs : Bytes) : qsParse qs =
    match qs.dropWhile fun c => c ≠ 63 ∧ c ≠ 35 with
    | [] => some ([], 0)
    | _ :: query =>
      if (query.splitOn 38).length ≤ maxArguments ∧
          ∀ pair ∈ query.splitOn 38, pair.length < 2 ^ 31 then
        some ((query.splitOn 38).map qsPair, (query.splitOn 38).length)
      else none := by
  rw [qsParse]
  cases qs.dropWhile fun c => c ≠ 63 ∧ c ≠ 35 with
  | nil => rfl
  | cons c query =>
    have hpos := List.length_pos_of_ne_nil (List.splitOn_ne_nil 38 query)
    dsimp only
    rw [fill_eq]
    by_cases hle : (query.splitOn 38).length ≤ maxArguments
    · rw [List.take_of_length_le hle, if_congr (and_iff_right hle) rfl rfl]
      split_ifs
      · have hcount : min maxArguments ((query.splitOn 38).length - 1) + 1 =
            (query.splitOn 38).length := by omega
        rw [Option.bind_eq_bind, Option.bind_some, hcount, entries_eq, if_pos le_rfl,
          List.take_length]
        rfl
      · rfl
    · -- the table is full, and one more is counted
      rw [if_neg (not_and_of_not_left _ hle)]
      split_ifs
      · have hshort : ¬min maxArguments ((query.splitOn 38).length - 1) + 1 ≤
            ((query.splitOn 38).take maxArguments).length := by
          rw [List.length_take]
          omega
        rw [Option.bind_eq_bind, Option.bind_some, entries_eq, if_neg hshort]
        rfl
      · rfl

/-- The server's view of the query: nothing, when the table does not hold the pairs. -/
theorem construct_eq_ofString (sv : Bytes) : construct sv = ofString sv := by
  rcases eq_or_ne sv [] with rfl | hne
  · rfl
  rw [construct, ofString, if_neg hne, if_neg hne, qsParse_eq, QueryString.qsParse]
  cases (cstr sv).dropWhile fun c => c ≠ 63 ∧ c ≠ 35 with
  | nil => rfl
  | cons c query =>
    dsimp only
    split_ifs
    · rw [Option.bind_eq_bind, Option.bind_some, entries_eq, List.length_map, if_pos le_rfl,
        List.take_of_length_le (List.length_map _).le]
    · rfl

theorem fits_nil : Fits [] := ⟨Nat.zero_le _, fun _ hp => absurd hp List.not_mem_nil⟩

/-- **What is stored.** -/
theorem construct_eq (sv : Bytes) : construct sv = if Fits sv then some (stored sv) else none := by
  rcases eq_or_ne sv [] with rfl | hne
  · rw [if_pos fits_nil]
    rfl
  have hiff : Fits sv ↔ (pairs sv).length ≤ maxArguments ∧
      ∀ pair ∈ pairs sv, pair.length < 2 ^ 31 := Iff.rfl
  rw [construct_eq_ofString, ofString, if_neg hne, QueryString.qsParse, stored,
    if_congr hiff rfl rfl, pairs]
  cases (cstr sv).dropWhile fun c => c ≠ 63 ∧ c ≠ 35 with
  | nil =>
    rw [if_pos ⟨Nat.zero_le _, fun _ hp => absurd hp List.not_mem_nil⟩]
    rfl
  | cons c query =>
    dsimp only
    split_ifs with hfits
    · rw [List.take_of_length_le hfits.1]
    · rfl

/-! ### Looking up -/

section

variable {blocks : ℕ → Option (List Bytes)} {ps : List (ℕ × ℕ)} {kvs : List Bytes}

/-- **The pair that comes n-th.** -/
theorem qsK2v_eq (h : List.Forall₂ (fun p kv => read blocks p = some kv) ps kvs) (nth : ℕ) :
    qsK2v blocks key ps nth = some ((kvs.filter (named key))[nth]?.map value) := by
  induction h generalizing nth with
  | nil => rfl
  | @cons p kv ps kvs hp _ ih =>
    rw [qsK2v, hp]
    dsimp only
    by_cases hnamed : named key kv
    · rw [if_pos hnamed, List.filter_cons_of_pos hnamed, ih]
      cases nth <;> rfl
    · rw [if_neg hnamed, List.filter_cons_of_neg hnamed, ih]

/-- **All of them**, when there are enough turns. -/
theorem collect_eq (h : List.Forall₂ (fun p kv => read blocks p = some kv) ps kvs) {turns count : ℕ}
    (hcount : count ≤ (kvs.filter (named key)).length)
    (hturns : (kvs.filter (named key)).length < count + turns) :
    collect blocks key ps turns count =
      some (((kvs.filter (named key)).drop count).map value) := by
  induction turns generalizing count with
  | zero => exact absurd hturns (not_lt.mpr hcount)
  | succ turns ih =>
    rw [collect, qsK2v_eq h]
    rcases hcount.lt_or_eq with hlt | heq
    · rw [List.getElem?_eq_getElem hlt, Option.map_some]
      dsimp only
      rw [ih hlt (by omega), List.drop_eq_getElem_cons hlt]
      rfl
    · rw [List.getElem?_eq_none heq.ge, heq, List.drop_length]
      rfl

end

/-! ### The invariant -/

/-- Every pointer of a query string is to a pair that is stored, and no other query string frees
it. -/
structure Holds (s : Program) (a : ℕ → List Bytes) : Prop where
  params : ∀ i, List.Forall₂ (fun p kv => read s.blocks p = some kv) (s.vars i).params (a i)
  fresh : ∀ b, s.next ≤ b → s.blocks b = none
  live : ∀ i b, (s.vars i).url = some b → (s.blocks b).isSome
  unique : ∀ i j b, (s.vars i).url = some b → (s.vars j).url = some b → i = j
  own : ∀ i j b, (s.vars i).url = some b → ∀ p ∈ (s.vars j).params, p.1 = b → i = j

variable {a : ℕ → List Bytes}

theorem holds_init : Holds init fun _ => [] where
  params _ := .nil
  fresh _ _ := rfl
  live _ _ h := by cases h
  unique _ _ _ h := by cases h
  own _ _ _ h := by cases h

/-- Every query string is empty, or what another one was. -/
theorem Holds.moved (h : Holds s a) {f : ℕ → Option ℕ}
    (hf : ∀ i j k, f i = some k → f j = some k → i = j) :
    Holds { s with vars := (·.elim ⟨none, []⟩ s.vars) ∘ f } ((·.elim [] a) ∘ f) where
  params i := by
    dsimp only [Function.comp_apply]
    cases f i with
    | none => exact .nil
    | some k => exact h.params k
  fresh := h.fresh
  live i b := by
    dsimp only [Function.comp_apply]
    cases f i with
    | none => exact fun hb => by cases hb
    | some k => exact h.live k b
  unique i j b := by
    dsimp only [Function.comp_apply]
    cases hi : f i with
    | none => exact fun hb => by cases hb
    | some k =>
      cases hj : f j with
      | none => exact fun _ hb => by cases hb
      | some l =>
        intro hk hl
        exact hf i j k hi (hj.trans (congrArg some (h.unique k l b hk hl).symm))
  own i j b := by
    dsimp only [Function.comp_apply]
    cases hi : f i with
    | none => exact fun hb => by cases hb
    | some k =>
      cases hj : f j with
      | none => exact fun _ p hp => absurd hp List.not_mem_nil
      | some l =>
        intro hk p hp heq
        exact hf i j k hi (hj.trans (congrArg some (h.own k l b hk p hp heq).symm))

/-- A query string that forgets its copy. -/
theorem Holds.forget (h : Holds s a) (i : ℕ) :
    Holds { s with vars := Function.update s.vars i ⟨none, (s.vars i).params⟩ } a := by
  -- no query string has other pairs, and none has another copy
  have hparams : ∀ k, (Function.update s.vars i ⟨none, (s.vars i).params⟩ k).params =
      (s.vars k).params := fun k => by
    rcases eq_or_ne k i with rfl | hne
    · rw [Function.update_self]
    · rw [Function.update_of_ne hne]
  have hurl : ∀ {k b}, (Function.update s.vars i ⟨none, (s.vars i).params⟩ k).url = some b →
      (s.vars k).url = some b := fun {k b} hb => by
    rcases eq_or_ne k i with rfl | hne
    · rw [Function.update_self] at hb
      cases hb
    · rwa [Function.update_of_ne hne] at hb
  refine ⟨fun k => ?_, h.fresh, fun k b hb => h.live k b (hurl hb),
    fun k l b hk hl => h.unique k l b (hurl hk) (hurl hl), fun k l b hk p hp => ?_⟩
  · rw [hparams]
    exact h.params k
  · rw [hparams] at hp
    exact h.own k l b (hurl hk) p hp

/-- What is pointed to is stored. -/
theorem Holds.isSome (h : Holds s a) {i : ℕ} {p : ℕ × ℕ} (hp : p ∈ (s.vars i).params) :
    (s.blocks p.1).isSome := by
  have hread : ∀ p kv, read s.blocks p = some kv →
      (s.blocks p.1).isSome ∧ read s.blocks p = some kv := fun p kv heq => by
    obtain ⟨block, hblock, -⟩ := Option.bind_eq_some_iff.mp heq
    exact ⟨Option.isSome_iff_exists.mpr ⟨block, hblock⟩, heq⟩
  exact ((List.forall₂_and_left _ _).mp ((h.params i).imp hread)).1 p hp

/-- A copy where nothing is pointed to can be freed or written. -/
theorem reads_update {blocks : ℕ → Option (List Bytes)} {ps : List (ℕ × ℕ)} {kvs : List Bytes}
    {b : ℕ} (h : List.Forall₂ (fun p kv => read blocks p = some kv) ps kvs)
    (hb : ∀ p ∈ ps, p.1 ≠ b) (block : Option (List Bytes)) :
    List.Forall₂ (fun p kv => read (Function.update blocks b block) p = some kv) ps kvs := by
  refine ((List.forall₂_and_left _ _).mpr ⟨hb, h⟩).imp fun p kv hp => ?_
  rw [read, Function.update_of_ne hp.1]
  exact hp.2

/-- A copy that no query string has, or points into, is freed. -/
theorem Holds.free (h : Holds s a) {b : ℕ} (hurl : ∀ k, (s.vars k).url ≠ some b)
    (hparams : ∀ k, ∀ p ∈ (s.vars k).params, p.1 ≠ b) :
    Holds { s with blocks := Function.update s.blocks b none } a where
  params k := reads_update (h.params k) (hparams k) none
  fresh c hc := by
    rcases eq_or_ne c b with rfl | hne
    · exact Function.update_self ..
    · exact (Function.update_of_ne hne ..).trans (h.fresh c hc)
  live k c hc := by
    have hne : c ≠ b := fun heq => hurl k (heq ▸ hc)
    dsimp only
    rw [Function.update_of_ne hne]
    exact h.live k c hc
  unique := h.unique
  own := h.own

/-- The pairs of a new copy. -/
theorem reads_range (blocks : ℕ → Option (List Bytes)) (b : ℕ) (kvs : List Bytes) :
    List.Forall₂ (fun p kv => read (Function.update blocks b (some kvs)) p = some kv)
      ((List.range kvs.length).map (b, ·)) kvs := by
  rw [List.forall₂_map_left_iff, List.forall₂_iff_get]
  refine ⟨List.length_range, fun n hn hn' => ?_⟩
  rw [read, Function.update_self, Option.bind_some, List.get_eq_getElem, List.get_eq_getElem,
    List.getElem_range, List.getElem?_eq_getElem hn']

/-- A new query string, with its copy. -/
theorem Holds.construct (h : Holds s a) (i : ℕ) (kvs : List Bytes) :
    Holds ⟨Function.update s.blocks s.next (some kvs), s.next + 1,
      Function.update s.vars i ⟨some s.next, (List.range kvs.length).map (s.next, ·)⟩⟩
      (Function.update a i kvs) := by
  set vars := Function.update s.vars i ⟨some s.next, (List.range kvs.length).map (s.next, ·)⟩
    with hvars
  have hold : ∀ b, (s.blocks b).isSome → b ≠ s.next := fun b hb heq => by
    rw [heq, h.fresh s.next le_rfl] at hb
    cases hb
  -- what is new is of the new query string only
  have hurl : ∀ {k b}, (vars k).url = some b →
      k = i ∧ b = s.next ∨ (s.vars k).url = some b ∧ b ≠ s.next := fun {k b} hk => by
    rcases eq_or_ne k i with rfl | hne
    · rw [hvars, Function.update_self] at hk
      exact .inl ⟨rfl, (Option.some.inj hk).symm⟩
    · rw [hvars, Function.update_of_ne hne] at hk
      exact .inr ⟨hk, hold b (h.live k b hk)⟩
  have hparam : ∀ {k p}, p ∈ (vars k).params →
      k = i ∧ p.1 = s.next ∨ p ∈ (s.vars k).params ∧ p.1 ≠ s.next := fun {k p} hp => by
    rcases eq_or_ne k i with rfl | hne
    · rw [hvars, Function.update_self] at hp
      obtain ⟨n, -, rfl⟩ := List.mem_map.mp hp
      exact .inl ⟨rfl, rfl⟩
    · rw [hvars, Function.update_of_ne hne] at hp
      exact .inr ⟨hp, hold p.1 (h.isSome hp)⟩
  refine ⟨fun k => ?_, fun b hb => ?_, fun k b hk => ?_, fun k l b hk hl => ?_,
    fun k l b hk p hp heq => ?_⟩
  · dsimp only
    rcases eq_or_ne k i with rfl | hne
    · rw [hvars, Function.update_self, Function.update_self]
      exact reads_range s.blocks s.next kvs
    · rw [hvars, Function.update_of_ne hne, Function.update_of_ne hne]
      exact reads_update (h.params k) (fun p hp => hold p.1 (h.isSome hp)) _
  · have hne : b ≠ s.next := (Nat.lt_of_succ_le hb).ne'
    exact (Function.update_of_ne hne ..).trans (h.fresh b (Nat.le_of_succ_le hb))
  · dsimp only
    rcases hurl hk with ⟨-, rfl⟩ | ⟨hk, hb⟩
    · rw [Function.update_self]
      rfl
    · rw [Function.update_of_ne hb]
      exact h.live k b hk
  · rcases hurl hk with ⟨rfl, rfl⟩ | ⟨hk, hb⟩ <;> rcases hurl hl with ⟨rfl, hb'⟩ | ⟨hl, hb'⟩
    · rfl
    · exact absurd rfl hb'
    · exact absurd hb' hb
    · exact h.unique k l b hk hl
  · rcases hurl hk with ⟨rfl, rfl⟩ | ⟨hk, hb⟩ <;> rcases hparam hp with ⟨rfl, hp'⟩ | ⟨hp, hp'⟩
    · rfl
    · exact absurd heq hp'
    · exact absurd (heq.symm.trans hp') hb
    · exact h.own k l b hk p hp heq

/-! ### Operations -/

/-- One query string is emptied. -/
theorem Holds.emptied (h : Holds s a) (i : ℕ) :
    Holds { s with vars := Function.update s.vars i ⟨none, []⟩ } (Function.update a i []) := by
  have hmoved := h.moved (f := Function.update some i none) fun k l m hk hl => by
    rw [Function.update_apply] at hk hl
    split_ifs at hk hl
    exact Option.some.inj (hk.trans hl.symm)
  rwa [Function.comp_update, Function.comp_update] at hmoved

/-- One query string takes what another one is. -/
theorem Holds.taken (h : Holds s a) (i j : ℕ) :
    Holds { s with vars := Function.update (Function.update s.vars j ⟨none, []⟩) i (s.vars j) }
      (Function.update (Function.update a j []) i (a j)) := by
  have hmoved := h.moved (f := Function.update (Function.update some j none) i (some j))
    fun k l m hk hl => by
      rw [Function.update_apply, Function.update_apply] at hk hl
      split_ifs at hk hl <;> grind
  rwa [Function.comp_update, Function.comp_update, Function.comp_update, Function.comp_update]
    at hmoved

/-- A query string that is cleared frees what is only its own. -/
theorem Holds.cleared (h : Holds s a) {i b : ℕ} (hb : (s.vars i).url = some b) :
    Holds { s with
      blocks := Function.update s.blocks b none
      vars := Function.update s.vars i ⟨none, []⟩ } (Function.update a i []) := by
  refine (h.emptied i).free (fun k hk => ?_) fun k p hp heq => ?_
  · dsimp only at hk
    rcases eq_or_ne k i with rfl | hne
    · rw [Function.update_self] at hk
      cases hk
    · rw [Function.update_of_ne hne] at hk
      exact hne (h.unique k i b hk hb)
  · dsimp only at hp
    rcases eq_or_ne k i with rfl | hne
    · rw [Function.update_self] at hp
      exact absurd hp List.not_mem_nil
    · rw [Function.update_of_ne hne] at hp
      exact hne (h.own i k b hb p hp heq).symm

/-- A query string without pairs has no pointers, and the other way round. -/
theorem Holds.params_eq_nil_iff (h : Holds s a) (i : ℕ) : (s.vars i).params = [] ↔ a i = [] := by
  rw [← List.length_eq_zero_iff, (h.params i).length_eq, List.length_eq_zero_iff]

/-- **One operation.** -/
theorem step_follows (kept : Bool) (h : Holds s a) (op : Op) :
    (Allowed a op → ∃ s', step kept s op = some ((follow kept a op).1, s') ∧
      Holds s' (follow kept a op).2) ∧ (¬Allowed a op → step kept s op = none) := by
  cases op with
  | construct i sv =>
    rw [Allowed, step, construct_eq]
    by_cases hnil : sv = []
    · rw [if_pos hnil, hnil]
      exact ⟨fun _ => ⟨_, rfl, h.emptied i⟩, fun hno => absurd fits_nil hno⟩
    · rw [if_neg hnil]
      refine ⟨fun hfits => ?_, fun hno => ?_⟩
      · rw [if_pos hfits]
        exact ⟨_, rfl, h.construct i (stored sv)⟩
      · rw [if_neg hno]
        rfl
  | moveConstruct i j =>
    exact ⟨fun _ => ⟨_, rfl, h.taken i j⟩, fun hno => absurd trivial hno⟩
  | moveAssign i j =>
    refine ⟨fun _ => ⟨_, rfl, ?_⟩, fun hno => absurd trivial hno⟩
    rw [follow]
    by_cases heq : i = j
    · rw [if_pos heq, if_pos heq]
      cases kept with
      | false => exact h.emptied i
      | true => exact h.forget i
    · rw [if_neg heq, if_neg heq, Function.update_comm heq, Function.update_comm heq]
      exact h.taken i j
  | clear i =>
    refine ⟨fun _ => ?_, fun hno => absurd trivial hno⟩
    rw [step]
    cases hurl : (s.vars i).url with
    | none => exact ⟨_, rfl, h.emptied i⟩
    | some b =>
      dsimp only
      rw [if_pos (h.live i b hurl)]
      exact ⟨_, rfl, h.cleared hurl⟩
  | get i name =>
    refine ⟨fun _ => ⟨s, ?_, h⟩, fun hno => absurd trivial hno⟩
    rw [step, follow]
    by_cases hnil : (s.vars i).params = []
    · rw [if_pos hnil, (h.params_eq_nil_iff i).mp hnil]
      rfl
    · rw [if_neg hnil, qsK2v_eq (h.params i), ← List.head?_eq_getElem?, List.head?_filter]
      cases (a i).find? (named (cstr name)) <;> rfl
  | getAll i name =>
    rw [step, follow]
    by_cases hnil : (s.vars i).params = []
    · rw [if_pos hnil]
      exact ⟨fun hne => absurd ((h.params_eq_nil_iff i).mp hnil) hne, fun _ => rfl⟩
    · have hlen := (h.params i).length_eq
      have hfilter := List.length_filter_le (named (cstr (name ++ ascii "[]"))) (a i)
      rw [if_neg hnil]
      dsimp only
      rw [collect_eq (h.params i) (Nat.zero_le _) (by omega), List.drop_zero]
      exact ⟨fun _ => ⟨s, rfl, h⟩, fun hno => absurd (mt (h.params_eq_nil_iff i).mpr hnil) hno⟩

end Suil.QueryLookups
