/-
The cache of Mustache templates.

An entry keeps a template and the modification time of the file it was read from.  The
time is set before the file is read, so after a file that does not parse the entry has
its time and the template of the file before it.  What moves an entry leaves the time
behind, which a new entry has as zero.

* `reload_new` — what a new entry is loaded with;
* `load_current_iff` — the loads that return what is in the file;
* `run_loads_current_iff` — the runs of which every load does.
-/
import Suil.Json
import Suil.Mustache
import Suil.Lib.Runs

open Runs

namespace Suil.MustacheCache

/-- `Mustache`: the body and what `parse` found in it. -/
structure Parsed where
  body : Bytes := []
  fragments : List (ℕ × ℕ) := []
  actions : List Mustache.Action := []
deriving DecidableEq

/-- `Mustache::fromString`; none when it throws. -/
def fromString (str : Bytes) : Option Parsed :=
  (Mustache.parse (str.getD · 0) str.length).map fun t => ⟨str, t.fragments, t.actions⟩

/-- `Mustache::fromFile`, by what is in the file.  `readall` throws for more than a megabyte. -/
def fromFile (content : Bytes) : Option Parsed :=
  if 1048576 < content.length then none else fromString content

/-- `CacheEntry`; its name and its path are those it is kept under. -/
structure CacheEntry where
  tmpl : Parsed := {}
  lastMod : ℤ := 0
deriving DecidableEq

/-- What a move takes from an entry. -/
def CacheEntry.moved (e : CacheEntry) : CacheEntry := { tmpl := e.tmpl }

/-- `CacheEntry::reload`, for a file with a modification time and a content: the template, or
none when it throws, and the entry after it. -/
def reload (e : CacheEntry) : Option (ℤ × Bytes) → Option Parsed × CacheEntry
  | none => (none, e)
  | some (mod, content) =>
    if mod ≠ e.lastMod then
      match fromFile content with
      | none => (none, { e with lastMod := mod })
      | some tmpl => (some tmpl, ⟨tmpl, mod⟩)
    else (some e.tmpl, e)

/-- The files that are there, with their modification times, and the cache. -/
structure State where
  files : CString → Option ℤ
  cached : CString → Option CacheEntry

inductive Op where
  | change (files : CString → Option ℤ)
  | load (name : CString)

section

-- what the file of a name holds at a modification time
variable (version : CString → ℤ → Bytes)

/-- The file of a name. -/
def State.file (s : State) (name : CString) : Option (ℤ × Bytes) :=
  (s.files name).map fun mod => (mod, version name mod)

/-- `MustacheCache::load`. -/
def load (s : State) (name : CString) : Option Parsed × State :=
  match s.cached name with
  | some e =>
    let (res, e) := reload e (s.file version name)
    (res, { s with cached := Function.update s.cached name (some e) })
  | none =>
    match reload {} (s.file version name) with
    | (none, _) => (none, s)
    | (some _, e) =>
      let (res, e) := reload e.moved (s.file version name)
      (res, { s with cached := Function.update s.cached name (some e) })

/-- A load answers with the template, or with none when it throws. -/
def step (s : State) : Op → Option (Option Parsed × State)
  | .change files => some (none, { s with files := files })
  | .load name => some (load version s name)

def start : State := ⟨fun _ => none, fun _ => none⟩

/-- A load that returns gives the template of what is in the file. -/
def Current (m : Move State Op (Option Parsed)) : Prop :=
  ∀ name, m.input = .load name → ∀ tmpl, m.output = some tmpl →
    ∃ mod content, m.before.file version name = some (mod, content) ∧ fromFile content = some tmpl

/-- The file of a name in the cache, when it has the time that is kept, parses, and the file of
another name is empty or has a time other than zero. -/
def Allowed (s : State) : Op → Prop
  | .change _ => True
  | .load name => ∀ f ∈ s.file version name,
    (∀ e ∈ s.cached name, f.1 = e.lastMod → (fromFile f.2).isSome) ∧
      (s.cached name = none → f.1 = 0 → f.2 = [])

instance (s : State) : DecidablePred (Allowed version s)
  | .change _ => inferInstanceAs (Decidable True)
  | .load name => inferInstanceAs (Decidable (∀ f ∈ s.file version name,
    (∀ e ∈ s.cached name, f.1 = e.lastMod → (fromFile f.2).isSome) ∧
      (s.cached name = none → f.1 = 0 → f.2 = [])))

/-- What the cache holds is the template of its time, if that one parses. -/
def Inv (s : State) : Prop :=
  ∀ name e, s.cached name = some e → ∀ tmpl, fromFile (version name e.lastMod) = some tmpl →
    e.tmpl = tmpl

end

variable {version : CString → ℤ → Bytes} {s : State} {name : CString} {e : CacheEntry}
  {mod : ℤ} {content : Bytes} {tmpl : Parsed}

theorem fromFile_body (h : fromFile content = some tmpl) : tmpl.body = content := by
  rw [fromFile] at h
  split_ifs at h
  obtain ⟨t, -, rfl⟩ := Option.map_eq_some_iff.mp h
  rfl

theorem fromFile_nil : fromFile [] = some {} := rfl

theorem file_eq_some_iff :
    s.file version name = some (mod, content) ↔ s.files name = some mod ∧ content = version name mod := by
  rw [State.file, Option.map_eq_some_iff]
  constructor
  · rintro ⟨mod', hmod, heq⟩
    obtain ⟨rfl, rfl⟩ := Prod.mk.inj heq
    exact ⟨hmod, rfl⟩
  · rintro ⟨hmod, rfl⟩
    exact ⟨mod, hmod, rfl⟩

/-- A file with another time is read again. -/
theorem reload_changed (h : mod ≠ e.lastMod) : reload e (some (mod, content)) =
    (fromFile content, ⟨(fromFile content).getD e.tmpl, mod⟩) := by
  rw [reload, if_pos h]
  rcases fromFile content with _ | tmpl
  · rfl
  · rfl

theorem reload_same : reload e (some (e.lastMod, content)) = (some e.tmpl, e) := by
  rw [reload, if_neg (not_not.mpr rfl)]

/-- **A new entry** is loaded with what is in the file, unless its time is zero. -/
theorem load_new (h : s.cached name = none) : load version s name =
    match s.file version name with
    | none => (none, s)
    | some (mod, content) =>
      if mod = 0 then
        (some {}, { s with cached := Function.update s.cached name (some {}) })
      else
        match fromFile content with
        | none => (none, s)
        | some tmpl =>
          (some tmpl, { s with cached := Function.update s.cached name (some ⟨tmpl, mod⟩) }) := by
  rw [load, h]
  rcases s.file version name with _ | ⟨mod, content⟩
  · rfl
  by_cases hzero : mod = 0
  · subst hzero
    rfl
  · simp only [if_neg hzero]
    rw [reload_changed hzero]
    rcases hfile : fromFile content with _ | tmpl
    · rfl
    · -- the entry has lost its time by the move, and the file is read once more
      show ((reload _ _).1, _) = _
      rw [reload_changed (e := CacheEntry.moved ⟨(some tmpl).getD _, mod⟩) hzero, hfile]
      rfl

theorem load_cached (h : s.cached name = some e) : load version s name =
    ((reload e (s.file version name)).1, { s with
      cached := Function.update s.cached name (some (reload e (s.file version name)).2) }) := by
  rw [load, h]

theorem current_load_iff {res : Option Parsed} {s' : State} :
    Current version ⟨s, .load name, res, s'⟩ ↔ ∀ tmpl, res = some tmpl →
      ∃ mod content, s.file version name = some (mod, content) ∧ fromFile content = some tmpl := by
  constructor
  · exact fun h => h name rfl
  · rintro h _ ⟨rfl⟩
    exact h

theorem Inv.update (h : Inv version s)
    (he : ∀ tmpl, fromFile (version name e.lastMod) = some tmpl → e.tmpl = tmpl) :
    Inv version { s with cached := Function.update s.cached name (some e) } := by
  intro name' e' hcached
  simp only [Function.update_apply] at hcached
  split_ifs at hcached with heq
  · subst heq
    obtain rfl := Option.some.inj hcached
    exact he
  · exact h name' e' hcached

/-- A load of a name that is not in the cache. -/
theorem Inv.load_new_iff (h : Inv version s) (hnew : s.cached name = none) :
    (Current version ⟨s, .load name, (load version s name).1, (load version s name).2⟩ ↔
      Allowed version s (.load name)) ∧
      (Allowed version s (.load name) → Inv version (load version s name).2) := by
  rw [current_load_iff, load_new hnew, Allowed, hnew]
  rcases hfile : s.file version name with _ | ⟨mod, content⟩
  · exact ⟨by simp, fun _ => h⟩
  obtain ⟨-, rfl⟩ := file_eq_some_iff.mp hfile
  simp only [Option.mem_def, Option.some.injEq, forall_eq', reduceCtorEq, false_implies,
    implies_true, true_and, forall_const]
  by_cases hzero : mod = 0
  · -- the file is not read
    subst hzero
    simp only [if_true, Option.some.injEq, forall_const, forall_eq']
    constructor
    · constructor
      · rintro ⟨_, _, ⟨rfl⟩, hread⟩
        exact (fromFile_body hread).symm
      · intro hnil
        exact ⟨0, _, rfl, by rw [hnil, fromFile_nil]⟩
    · intro hnil
      refine h.update fun tmpl htmpl => ?_
      rw [hnil, fromFile_nil] at htmpl
      exact Option.some.inj htmpl
  · simp only [if_neg hzero]
    rcases hread : fromFile (version name mod) with _ | tmpl
    · exact ⟨iff_of_true (by simp) fun h0 => absurd h0 hzero, fun _ => h⟩
    · refine ⟨iff_of_true ?_ fun h0 => absurd h0 hzero, fun _ => h.update fun tmpl' htmpl => ?_⟩
      · rintro _ ⟨rfl⟩
        exact ⟨mod, _, rfl, hread⟩
      · exact Option.some.inj (hread.symm.trans htmpl)

/-- A load of a name that is in the cache. -/
theorem Inv.load_cached_iff (h : Inv version s) (hcached : s.cached name = some e) :
    (Current version ⟨s, .load name, (load version s name).1, (load version s name).2⟩ ↔
      Allowed version s (.load name)) ∧
      (Allowed version s (.load name) → Inv version (load version s name).2) := by
  rw [current_load_iff, load_cached hcached, Allowed, hcached]
  rcases hfile : s.file version name with _ | ⟨mod, content⟩
  · exact ⟨by simp [reload], fun _ => h.update (h name e hcached)⟩
  obtain ⟨-, rfl⟩ := file_eq_some_iff.mp hfile
  simp only [Option.mem_def, Option.some.injEq, forall_eq', reduceCtorEq, false_implies, and_true]
  by_cases hmod : mod = e.lastMod
  · -- the file is not read, and what is kept is its template only if it parsed at that time
    subst hmod
    rw [reload_same]
    simp only [Option.some.injEq, forall_eq', forall_const]
    refine ⟨?_, fun _ => h.update (h name e hcached)⟩
    constructor
    · rintro ⟨_, _, ⟨rfl⟩, hread⟩
      rw [hread]
      rfl
    · intro hparses
      obtain ⟨tmpl, hread⟩ := Option.isSome_iff_exists.mp hparses
      refine ⟨_, _, rfl, ?_⟩
      rw [hread, h name e hcached tmpl hread]
  · -- the time is kept even when the file does not parse
    rw [reload_changed hmod]
    refine ⟨iff_of_true ?_ fun heq => absurd heq hmod, fun _ => h.update fun tmpl htmpl => ?_⟩
    · intro tmpl htmpl
      exact ⟨mod, _, rfl, htmpl⟩
    · show (fromFile (version name mod)).getD e.tmpl = tmpl
      rw [show fromFile (version name mod) = some tmpl from htmpl]
      rfl

/-- **One step**: a load returns what is in the file, or throws, iff it is allowed, and what the
cache holds stays the template of its time. -/
theorem Inv.load_current_iff {op : Op} {s' : State} {res : Option Parsed} (h : Inv version s)
    (hstep : step version s op = some (res, s')) :
    (Current version ⟨s, op, res, s'⟩ ↔ Allowed version s op) ∧
      (Allowed version s op → Inv version s') := by
  cases op with
  | change files =>
    obtain ⟨rfl, rfl⟩ := Prod.mk.inj (Option.some.inj hstep)
    exact ⟨iff_of_true nofun trivial, fun _ => h⟩
  | load name =>
    obtain ⟨rfl, rfl⟩ := Prod.mk.inj (Option.some.inj hstep)
    rcases Option.eq_none_or_eq_some (s.cached name) with hnew | ⟨e, hcached⟩
    · exact h.load_new_iff hnew
    · exact h.load_cached_iff hcached

/-- **The runs of which every load returns what is in the file, or throws**, are those in which no
load of a name comes after one that failed on the file as it still is while an earlier template
is in the cache, and no file has the modification time zero. -/
theorem run_loads_current_iff (version : CString → ℤ → Bytes) {ms : List (Move State Op (Option Parsed))}
    (h : Run (step version) start ms s) :
    (∀ m ∈ ms, Current version m) ↔ ∀ m ∈ ms, Allowed version m.before m.input :=
  h.moves_iff (K := Inv version) nofun fun _ _ _ _ hinv hstep => hinv.load_current_iff hstep

def index : CString := ⟨ascii "index", by decide⟩

/-- A file that parses at two times and does not at another. -/
def indexFile (_ : CString) (mod : ℤ) : Bytes :=
  if mod = 10 then ascii "a" else if mod = 20 then ascii "\x7b\x7bb" else ascii "c"

/-- The file does not parse at first, and is read again whenever it has changed. -/
theorem run_loads_current_four :
    let ops : List Op := [.change fun _ => some 20, .load index, .change fun _ => some 10,
      .load index, .load index, .change fun _ => some 30, .load index]
    (∀ m ∈ moves (step indexFile) start ops, Current indexFile m) ∧
      (moves (step indexFile) start ops).map (fun m => m.output.map Parsed.body) =
        [none, none, none, some (ascii "a"), some (ascii "a"), none, some (ascii "c")] :=
  ⟨(run_loads_current_iff indexFile (run_final _ _ _)).mpr (by decide +kernel), by decide +kernel⟩

/-- The second load after a file that does not parse returns the template before it. -/
theorem not_run_loads_current :
    let ops : List Op := [.change fun _ => some 10, .load index, .change fun _ => some 20,
      .load index, .load index]
    Run (step indexFile) start (moves (step indexFile) start ops)
        (final (step indexFile) start ops) ∧
      (moves (step indexFile) start ops).map (fun m => m.output.map Parsed.body) =
        [none, some (ascii "a"), none, none, some (ascii "a")] ∧
      ¬∀ m ∈ moves (step indexFile) start ops, Current indexFile m := by
  refine ⟨run_final _ _ _, by decide +kernel, fun hcurrent => ?_⟩
  obtain ⟨mod, content, hfile, hread⟩ :=
    hcurrent _ (List.mem_of_getLast? rfl) index rfl ⟨ascii "a", [(0, 1)], []⟩ (by decide +kernel)
  obtain ⟨hmod, rfl⟩ := file_eq_some_iff.mp hfile
  obtain rfl : mod = 20 := (Option.some.inj hmod).symm
  exact absurd hread (by decide +kernel)

end Suil.MustacheCache
