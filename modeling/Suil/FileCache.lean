/-
The file cache of the file server (`FileServer`, `CachedFile`).

The cache is a map from paths to files.  A request loads its file into the map
or finds it there, reads it again when it was modified, and removes it when
that fails; a new file that does not fit evicts others, the least recently used
first.  Every chunk of a response counts in the file's `inFlight` until it is
sent.  A file removed while it is in flight moves to a list of garbage, which a
collector empties.

The map is walked in an order of its own, which a request is given with what the
file system answers it.  A load is one step: reading a regular file does not
wait.

* `markCachedFileForRemoval`, `addCachedFile`, `loadFile` — the cache;
* `addCachedFileChunk`, `derefCachedFileChunk`, `garbageCollector` — the chunks;
* `step` — the file server as a machine; it outputs the files it releases.
-/
import Suil.Lib.Runs
import Suil.Core

namespace Suil.FileServer

abbrev Key := Bytes

/-- `CachedFile`: `data` and `fd` tell whether there are any, and `node` is the node of
the map that the file was put in. -/
structure CachedFile where
  node : ℕ
  isGarbage : Bool := false
  inFlight : ℤ := 0
  data : Bool := false
  fd : Bool := false
  len : ℕ := 0
  useFd : Bool := false
  lastModified : ℤ := 0
  lastAccessed : ℤ := 0
deriving DecidableEq, Repr

/-- `CachedFile::clear`. -/
def CachedFile.clear (cf : CachedFile) : CachedFile :=
  { cf with
    isGarbage := false
    data := false
    fd := false
    len := 0
    useFd := false
    lastModified := 0
    lastAccessed := 0 }

/-- What `clear` releases. -/
def CachedFile.released (cf : CachedFile) : List ℕ := if cf.data || cf.fd then [cf.node] else []

/-- The collector's coroutine: not running, able to run, or waiting on `_gcCond`. -/
inductive Collector where
  | idle
  | ready
  | waiting
deriving DecidableEq, Repr

/-- A chunk that is not sent yet: its destructor holds a pointer into the node of
the map at `key`. -/
structure FileChunk where
  key : Key
  node : ℕ
deriving DecidableEq, Repr

/-- The file server: the map, the garbage, `_totalMemCachedSize`,
`_isCollectingGarbage`, the collector, the chunks that are not sent yet and the
number of nodes made so far. -/
structure State where
  keys : Finset Key := ∅
  files : Key → CachedFile := fun _ => { node := 0 }
  garbage : List CachedFile := []
  total : ℕ := 0
  collecting : Bool := false
  collector : Collector := .idle
  chunks : List FileChunk := []
  nodes : ℕ := 0

/-- Addition and subtraction on `size_t`. -/
def wadd (a b : ℕ) : ℕ := if a + b < 2 ^ 64 then a + b else a + b - 2 ^ 64

def wsub (a b : ℕ) : ℕ := if b ≤ a then a - b else a + 2 ^ 64 - b

/-- What `stat` tells of a file. -/
structure Stat where
  mtime : ℤ
  atime : ℤ
  size : ℕ
  size_lt : size < 2 ^ 63

/-- `struct stat st{}`. -/
def Stat.zero : Stat := ⟨0, 0, 0, by norm_num⟩

/-- What the file system answers in a request: the file the path stands for, relative to
the base directory, its `stat`, and whether opening and reading it succeed. -/
structure Disk where
  resolved : Option Key
  stat : Option Stat
  opens : Bool
  reads : Bool

namespace State

/-- Replace the file under a key. -/
def put (s : State) (k : Key) (cf : CachedFile) : State :=
  { s with files := Function.update s.files k cf }

@[simp] theorem put_keys (s : State) (k : Key) (cf : CachedFile) : (s.put k cf).keys = s.keys := rfl

@[simp] theorem put_total (s : State) (k : Key) (cf : CachedFile) : (s.put k cf).total = s.total :=
  rfl

@[simp] theorem put_chunks (s : State) (k : Key) (cf : CachedFile) :
    (s.put k cf).chunks = s.chunks := rfl

@[simp] theorem put_garbage (s : State) (k : Key) (cf : CachedFile) :
    (s.put k cf).garbage = s.garbage := rfl

@[simp] theorem put_self (s : State) (k : Key) (cf : CachedFile) : (s.put k cf).files k = cf :=
  Function.update_self ..

@[simp] theorem put_put (s : State) (k : Key) (cf cf' : CachedFile) :
    (s.put k cf).put k cf' = s.put k cf' := by
  simp [put]

theorem put_ne (s : State) {j k : Key} (h : j ≠ k) (cf : CachedFile) :
    (s.put k cf).files j = s.files j :=
  Function.update_of_ne h ..

/-- `_gcCond.notify`, lost when nobody waits. -/
def notify (s : State) : State :=
  { s with collector := if s.collector = .waiting then .ready else s.collector }

end State

/-- `markCachedFileForRemoval`: the state afterwards and what it releases. -/
def markCachedFileForRemoval (s : State) (k : Key) : List ℕ × State :=
  let cf := s.files k
  let s := { s with keys := s.keys.erase k }
  let s := if cf.useFd then s else { s with total := wsub s.total cf.len }
  if cf.inFlight = 0 then (cf.released, s)
  else
    let s := { s with garbage := s.garbage ++ [{ cf with isGarbage := true }] }
    if s.collecting then ([], s.notify)
    else ([], { s with collecting := true, collector := .ready })

/-- The removals of a list of files. -/
def markAll (s : State) : List Key → List ℕ × State
  | [] => ([], s)
  | k :: ks =>
    let (released, s) := markCachedFileForRemoval s k
    let (released', s) := markAll s ks
    (released ++ released', s)

/-- `leastRecentlyUsed`. -/
def leastRecentlyUsed (a b : CachedFile) : Bool :=
  a.lastAccessed < b.lastAccessed ∨ a.lastAccessed = b.lastAccessed ∧ a.inFlight < b.inFlight

/-- `emplace` into the ordered set: an equal one stays. -/
def insertLru (files : Key → CachedFile) (k : Key) : List Key → List Key
  | [] => [k]
  | x :: xs =>
    if leastRecentlyUsed (files k) (files x) then k :: x :: xs
    else if leastRecentlyUsed (files x) (files k) then x :: insertLru files k xs
    else x :: xs

/-- `cachedIts`, filled along the map. -/
def cachedIts (files : Key → CachedFile) (order : List Key) : List Key :=
  order.foldl (fun its k => insertLru files k its) []

/-- The files the eviction loop marks for removal, and `newSize` at its end. -/
def victims (maxCacheSize : ℕ) (files : Key → CachedFile) : List Key → ℕ → List Key × ℕ
  | [], newSize => ([], newSize)
  | k :: its, newSize =>
    if maxCacheSize < newSize then
      if (files k).useFd then victims maxCacheSize files its newSize
      else
        let (ks, newSize') := victims maxCacheSize files its (wsub newSize (files k).len)
        (k :: ks, newSize')
    else ([], newSize)

/-- `_cachedFiles.emplace`: a key that is there keeps its file. -/
def emplace (s : State) (k : Key) (cf : CachedFile) : State :=
  if k ∈ s.keys then s
  else { s.put k { cf with node := s.nodes } with keys := insert k s.keys, nodes := s.nodes + 1 }

/-- `addCachedFile`, with the order in which the map is walked. -/
def addCachedFile (maxCacheSize : ℕ) (s : State) (order : List Key) (k : Key) (cf : CachedFile) :
    List ℕ × State :=
  if cf.useFd then ([], emplace s k cf)
  else
    let newSize := wadd s.total cf.len
    if newSize < maxCacheSize then ([], emplace { s with total := newSize } k cf)
    else
      let (ks, newSize) := victims maxCacheSize s.files (cachedIts s.files order) newSize
      let (released, s) := markAll s ks
      (released, emplace { s with total := newSize } k cf)

/-- `reloadCachedFile`, with `readFile`. -/
def reloadCachedFile (s : State) (k : Key) (reads : Bool) : List ℕ × State :=
  if (s.files k).fd && reads then ([], s.put k { s.files k with data := true })
  else markCachedFileForRemoval s k

/-- `loadFile`. -/
def loadFile (maxCacheSize : ℕ) (s : State) (rel : Key) (disk : Disk) (sendFile : Bool)
    (order : List Key) : List ℕ × State :=
  if rel ∉ s.keys then
    match disk.resolved with
    | none => ([], s)
    | some path =>
      let st := disk.stat.getD .zero
      if !disk.opens then ([], s)
      else
        let cf : CachedFile :=
          { node := s.nodes, fd := true, len := st.size, lastModified := st.mtime,
            lastAccessed := st.atime }
        let (released, s) := addCachedFile maxCacheSize s order path cf
        if sendFile then (released, s.put path { s.files path with useFd := true })
        else
          let (released', s) := reloadCachedFile s path disk.reads
          (released ++ released', s)
  else
    match disk.stat with
    | none => markCachedFileForRemoval s rel
    | some st =>
      if (s.files rel).lastModified = st.mtime then
        ([], s.put rel { s.files rel with lastAccessed := st.atime })
      else
        let released := (s.files rel).released
        let s := s.put rel (s.files rel).clear
        if !disk.opens then
          let (released', s) := markCachedFileForRemoval s rel
          (released ++ released', s)
        else
          let s := s.put rel
            { s.files rel with
              fd := true, lastAccessed := st.atime, lastModified := st.mtime, len := st.size }
          if sendFile then (released, s.put rel { s.files rel with useFd := true })
          else
            let (released', s) := reloadCachedFile s rel disk.reads
            (released ++ released', s)

/-- `addCachedFileChunk`. -/
def addCachedFileChunk (s : State) (k : Key) : State :=
  let cf := s.files k
  { s.put k { cf with inFlight := cf.inFlight + 1 } with chunks := ⟨k, cf.node⟩ :: s.chunks }

/-- `derefCachedFileChunk`, through the pointer of the chunk.  When the node is gone from
the map the count in the freed memory changes, which nothing looks at. -/
def derefCachedFileChunk (s : State) (c : FileChunk) : State :=
  if c.key ∈ s.keys ∧ (s.files c.key).node = c.node then
    let cf := { s.files c.key with inFlight := (s.files c.key).inFlight - 1 }
    let s := s.put c.key cf
    if cf.isGarbage ∧ cf.inFlight = 0 then s.notify else s
  else s

/-- `garbageCollector`: one turn of its loop. -/
def garbageCollector (s : State) : List ℕ × State :=
  let released := (s.garbage.filter fun g => g.inFlight = 0).flatMap CachedFile.released
  let garbage := s.garbage.filter fun g => g.inFlight ≠ 0
  (released, { s with
    garbage := garbage
    collecting := true
    collector := if garbage = [] then .idle else .waiting })

/-- What happens next: a request, a chunk of a cached file queued, a chunk sent or dropped,
the collector's turn. -/
inductive Input where
  | request (rel : Key) (disk : Disk) (sendFile : Bool) (order : List Key)
  | serve (key : Key)
  | complete (i : ℕ)
  | collect

/-- The file server as a machine; the output is the files whose data and descriptor are
released. -/
def step (maxCacheSize : ℕ) (s : State) : Input → Option (List ℕ × State)
  | .request rel disk sendFile order =>
    if order.Nodup ∧ order.toFinset = s.keys then
      some (loadFile maxCacheSize s rel disk sendFile order)
    else none
  | .serve k => if k ∈ s.keys then some ([], addCachedFileChunk s k) else none
  | .complete i =>
    match s.chunks[i]? with
    | none => none
    | some c => some ([], derefCachedFileChunk { s with chunks := s.chunks.eraseIdx i } c)
  | .collect => if s.collector = .ready then some (garbageCollector s) else none

def init : State := {}

end Suil.FileServer
