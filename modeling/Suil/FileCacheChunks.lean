/-
The chunks of cached files, and when a file is released.

* `Counted` — what is meant to hold of the counts and of the garbage, `Safe` —
  of a move;
* `inv_step` — a move that removes or clears no file in flight keeps the
  pointers of the chunks valid;
* `safe_of_run` — and so does a run of such moves;
* `not_safe` — a file read again releases what is being sent.
-/
import Suil.FileCacheTotal

open Runs

namespace Suil.FileServer

variable {s s' : State} {k : Key} {cf : CachedFile} {maxCacheSize : ℕ}

/-- The chunks of the file that was put in a node which are not sent yet. -/
def State.outstanding (s : State) (node : ℕ) : ℕ := s.chunks.countP fun c => c.node = node

/-- Every file counts its chunks, in the map and in the garbage; and garbage without
chunks is about to be collected. -/
structure Counted (s : State) : Prop where
  cached : ∀ k ∈ s.keys, (s.files k).inFlight = s.outstanding (s.files k).node
  garbage : ∀ g ∈ s.garbage, g.inFlight = s.outstanding g.node
  collected : ∀ g ∈ s.garbage, s.outstanding g.node = 0 → s.collector = .ready

/-- A move after which the counts are right, and which releases no file in flight. -/
def Safe (m : Move State Input (List ℕ)) : Prop :=
  Counted m.after ∧ ∀ node ∈ m.output, m.before.outstanding node = 0

/-- No file that the move evicts, removes or clears is in flight. -/
def Quiet (maxCacheSize : ℕ) (s : State) : Input → Prop
  | .request rel disk sendFile order =>
    if rel ∉ s.keys then
      ∀ path, disk.resolved = some path → disk.opens = true →
        (∀ k ∈ evicted maxCacheSize s order (disk.stat.getD .zero).size,
          (s.files k).inFlight = 0) ∧
        (Occupied maxCacheSize s order path (disk.stat.getD .zero).size → sendFile = false →
          disk.reads = false → (s.files path).inFlight = 0)
    else
      (∃ st, disk.stat = some st ∧ (s.files rel).lastModified = st.mtime) ∨
        (s.files rel).inFlight = 0
  | _ => True

instance (maxCacheSize : ℕ) (s : State) (order : List Key) (k : Key) (n : ℕ) :
    Decidable (Occupied maxCacheSize s order k n) :=
  inferInstanceAs (Decidable (k ∈ s.keys ∧ k ∉ evicted maxCacheSize s order n))

instance (maxCacheSize : ℕ) (s : State) : (i : Input) → Decidable (Quiet maxCacheSize s i)
  | .request rel disk sendFile order =>
    inferInstanceAs (Decidable (if rel ∉ s.keys then
      ∀ path ∈ disk.resolved, disk.opens = true →
        (∀ k ∈ evicted maxCacheSize s order (disk.stat.getD .zero).size,
          (s.files k).inFlight = 0) ∧
        (Occupied maxCacheSize s order path (disk.stat.getD .zero).size → sendFile = false →
          disk.reads = false → (s.files path).inFlight = 0)
    else
      (∃ st ∈ disk.stat, (s.files rel).lastModified = st.mtime) ∨ (s.files rel).inFlight = 0))
  | .serve _ => .isTrue trivial
  | .complete _ => .isTrue trivial
  | .collect => .isTrue trivial

/-- The invariant: cached files are open, count their chunks and lie in nodes of their
own, and every chunk points into the node of a cached file. -/
structure Inv (s : State) : Prop where
  counted : ∀ k ∈ s.keys, (s.files k).inFlight = s.outstanding (s.files k).node
  isOpen : ∀ k ∈ s.keys, (s.files k).fd = true
  garbage : s.garbage = []
  fresh : ∀ k ∈ s.keys, (s.files k).node < s.nodes
  distinct : ∀ j ∈ s.keys, ∀ k ∈ s.keys, (s.files j).node = (s.files k).node → j = k
  held : ∀ c ∈ s.chunks, c.key ∈ s.keys ∧ (s.files c.key).node = c.node

theorem Inv.sound (h : Inv s) : Counted s := by
  refine ⟨h.counted, fun g hg => ?_, fun g hg => ?_⟩
  · rw [h.garbage] at hg
    cases hg
  · rw [h.garbage] at hg
    cases hg

/-- A file that is not in flight has no chunks. -/
theorem Inv.no_chunk (h : Inv s) (hk : k ∈ s.keys) (hzero : (s.files k).inFlight = 0) :
    s.outstanding (s.files k).node = 0 ∧ ∀ c ∈ s.chunks, c.key ≠ k := by
  have hcount := h.counted k hk
  have hout : s.outstanding (s.files k).node = 0 := by omega
  refine ⟨hout, ?_⟩
  rintro c hc rfl
  exact List.countP_eq_zero.mp hout c hc (by simpa using (h.held c hc).2.symm)

/-! ### The operations keep the invariant -/

/-- Neither the total nor the collector matters. -/
theorem Inv.congr (h : Inv s) (hkeys : s'.keys = s.keys) (hfiles : s'.files = s.files)
    (hgarbage : s'.garbage = s.garbage) (hchunks : s'.chunks = s.chunks)
    (hnodes : s'.nodes = s.nodes) : Inv s' := by
  have hout : s'.outstanding = s.outstanding := by
    funext node
    rw [State.outstanding, State.outstanding, hchunks]
  refine ⟨?_, ?_, ?_, ?_, ?_, ?_⟩
  · rw [hkeys, hfiles, hout]
    exact h.counted
  · rw [hkeys, hfiles]
    exact h.isOpen
  · rw [hgarbage]
    exact h.garbage
  · rw [hkeys, hfiles, hnodes]
    exact h.fresh
  · rw [hkeys, hfiles]
    exact h.distinct
  · rw [hkeys, hfiles, hchunks]
    exact h.held

/-- A file changed in its node. -/
theorem Inv.put (h : Inv s) (hnode : cf.node = (s.files k).node)
    (hcount : cf.inFlight = (s.files k).inFlight) (hopen : cf.fd = true) : Inv (s.put k cf) := by
  have hsame : ∀ j, ((s.put k cf).files j).node = (s.files j).node ∧
      ((s.put k cf).files j).inFlight = (s.files j).inFlight := by
    intro j
    by_cases hj : j = k
    · rw [hj, State.put_self]
      exact ⟨hnode, hcount⟩
    · rw [State.put_ne s hj]
      exact ⟨rfl, rfl⟩
  refine ⟨fun j hj => ?_, fun j hj => ?_, h.garbage, fun j hj => ?_, fun i hi j hj hij => ?_,
    fun c hc => ?_⟩
  · rw [(hsame j).1, (hsame j).2]
    exact h.counted j hj
  · by_cases hjk : j = k
    · rw [hjk, State.put_self]
      exact hopen
    · rw [State.put_ne s hjk]
      exact h.isOpen j hj
  · rw [(hsame j).1]
    exact h.fresh j hj
  · rw [(hsame i).1, (hsame j).1] at hij
    exact h.distinct i hi j hj hij
  · rw [(hsame c.key).1]
    exact h.held c hc

/-- A file without chunks taken out, whatever became of it. -/
theorem Inv.erase (h : Inv s) (hno : ∀ c ∈ s.chunks, c.key ≠ k) (cf : CachedFile) :
    Inv { s.put k cf with keys := s.keys.erase k } := by
  have hne : ∀ j ∈ s.keys.erase k, j ∈ s.keys ∧ (s.put k cf).files j = s.files j := by
    intro j hj
    exact ⟨Finset.mem_of_mem_erase hj, State.put_ne s (Finset.ne_of_mem_erase hj) cf⟩
  refine ⟨fun j hj => ?_, fun j hj => ?_, h.garbage, fun j hj => ?_, fun i hi j hj hij => ?_,
    fun c hc => ?_⟩
  · obtain ⟨hj, hsame⟩ := hne j hj
    exact (congrArg CachedFile.inFlight hsame).trans
      ((h.counted j hj).trans (by rw [hsame]; rfl))
  · obtain ⟨hj, hsame⟩ := hne j hj
    exact (congrArg CachedFile.fd hsame).trans (h.isOpen j hj)
  · obtain ⟨hj, hsame⟩ := hne j hj
    exact (congrArg CachedFile.node hsame).trans_lt (h.fresh j hj)
  · obtain ⟨hi, hsame⟩ := hne i hi
    obtain ⟨hj, hsame'⟩ := hne j hj
    refine h.distinct i hi j hj ?_
    exact (congrArg CachedFile.node hsame).symm.trans
      (hij.trans (congrArg CachedFile.node hsame'))
  · obtain ⟨hkey, hnode⟩ := h.held c hc
    refine ⟨Finset.mem_erase.mpr ⟨hno c hc, hkey⟩, ?_⟩
    exact (congrArg CachedFile.node (State.put_ne s (hno c hc) cf)).trans hnode

theorem mem_released {node : ℕ} (h : node ∈ cf.released) : node = cf.node := by
  rw [CachedFile.released] at h
  split_ifs at h
  · exact List.mem_singleton.mp h
  · cases h

/-- Removing a file that is not in flight, cleared or opened again before. -/
theorem Inv.mark_put (h : Inv s) (hk : k ∈ s.keys) (hzero : (s.files k).inFlight = 0)
    (cf : CachedFile) (hnode : cf.node = (s.files k).node) (hflight : cf.inFlight = 0) :
    Inv (markCachedFileForRemoval (s.put k cf) k).2 ∧
      ∀ node ∈ (markCachedFileForRemoval (s.put k cf) k).1, s.outstanding node = 0 := by
  obtain ⟨hout, hno⟩ := h.no_chunk hk hzero
  have herase := h.erase hno cf
  rw [markCachedFileForRemoval]
  simp only [State.put_self, hflight, if_true]
  refine ⟨?_, fun node hmem => ?_⟩
  · split_ifs
    · exact herase
    · exact herase.congr rfl rfl rfl rfl rfl
  · rw [mem_released hmem, hnode]
    exact hout

theorem Inv.mark (h : Inv s) (hk : k ∈ s.keys) (hzero : (s.files k).inFlight = 0) :
    Inv (markCachedFileForRemoval s k).2 ∧
      ∀ node ∈ (markCachedFileForRemoval s k).1, s.outstanding node = 0 := by
  have hself : s.put k (s.files k) = s := by
    rw [State.put, Function.update_eq_self]
  have hmark := h.mark_put hk hzero (s.files k) rfl hzero
  rwa [hself] at hmark

theorem Inv.markAll {ks : List Key} (h : Inv s) (hnodup : ks.Nodup) (hks : ∀ k ∈ ks, k ∈ s.keys)
    (hzero : ∀ k ∈ ks, (s.files k).inFlight = 0) :
    Inv (markAll s ks).2 ∧ (∀ node ∈ (FileServer.markAll s ks).1, s.outstanding node = 0) ∧
      (FileServer.markAll s ks).2.chunks = s.chunks := by
  induction ks generalizing s with
  | nil =>
    refine ⟨h, fun node hnode => ?_, rfl⟩
    cases hnode
  | cons k ks ih =>
    obtain ⟨hk, hnodup⟩ := List.nodup_cons.mp hnodup
    obtain ⟨hfiles, hkeys, hchunks, -⟩ := markCachedFileForRemoval_files s k
    obtain ⟨hmark, hrel⟩ := h.mark (hks k List.mem_cons_self) (hzero k List.mem_cons_self)
    obtain ⟨hall, hrel', hchunks'⟩ := ih hmark hnodup (by
      intro j hj
      rw [hkeys]
      refine Finset.mem_erase.mpr ⟨?_, hks j (List.mem_cons_of_mem k hj)⟩
      rintro rfl
      exact hk hj) (by
      intro j hj
      rw [hfiles]
      exact hzero j (List.mem_cons_of_mem k hj))
    rw [FileServer.markAll]
    refine ⟨hall, fun node hnode => ?_, hchunks'.trans hchunks⟩
    rcases List.mem_append.mp hnode with hnode | hnode
    · exact hrel node hnode
    · have hout := hrel' node hnode
      rwa [State.outstanding, hchunks] at hout

/-- A file put in. -/
theorem Inv.emplace (h : Inv s) (hopen : cf.fd = true) (hzero : cf.inFlight = 0) :
    Inv (emplace s k cf) := by
  rw [FileServer.emplace]
  split_ifs with hk
  · exact h
  · have hne : ∀ j ∈ s.keys, j ≠ k := by
      rintro j hj rfl
      exact hk hj
    have hnone : s.outstanding s.nodes = 0 := by
      refine List.countP_eq_zero.mpr fun c hc => ?_
      obtain ⟨hkey, hnode⟩ := h.held c hc
      have hlt := h.fresh c.key hkey
      simp only [decide_eq_true_eq]
      omega
    refine ⟨fun j hj => ?_, fun j hj => ?_, h.garbage, fun j hj => ?_, fun i hi j hj hij => ?_,
      fun c hc => ?_⟩
    · rcases Finset.mem_insert.mp hj with rfl | hj
      · show ((s.put j _).files j).inFlight = ((s.outstanding ((s.put j _).files j).node : ℕ) : ℤ)
        rw [State.put_self, hnone]
        exact hzero
      · show ((s.put k _).files j).inFlight = ((s.outstanding ((s.put k _).files j).node : ℕ) : ℤ)
        rw [State.put_ne s (hne j hj)]
        exact h.counted j hj
    · rcases Finset.mem_insert.mp hj with rfl | hj
      · show ((s.put j _).files j).fd = true
        rw [State.put_self]
        exact hopen
      · show ((s.put k _).files j).fd = true
        rw [State.put_ne s (hne j hj)]
        exact h.isOpen j hj
    · rcases Finset.mem_insert.mp hj with rfl | hj
      · show ((s.put j _).files j).node < s.nodes + 1
        rw [State.put_self]
        exact Nat.lt_succ_self _
      · show ((s.put k _).files j).node < s.nodes + 1
        rw [State.put_ne s (hne j hj)]
        exact Nat.lt_succ_of_lt (h.fresh j hj)
    · have hij' : ((s.put k { cf with node := s.nodes }).files i).node =
          ((s.put k { cf with node := s.nodes }).files j).node := hij
      rcases Finset.mem_insert.mp hi with rfl | hi'
      · rcases Finset.mem_insert.mp hj with rfl | hj'
        · rfl
        · rw [State.put_self, State.put_ne s (hne j hj')] at hij'
          exact absurd (h.fresh j hj') (by rw [← hij']; exact lt_irrefl _)
      · rcases Finset.mem_insert.mp hj with rfl | hj'
        · rw [State.put_self, State.put_ne s (hne i hi')] at hij'
          exact absurd (h.fresh i hi') (by rw [hij']; exact lt_irrefl _)
        · rw [State.put_ne s (hne i hi'), State.put_ne s (hne j hj')] at hij'
          exact h.distinct i hi' j hj' hij'
    · obtain ⟨hkey, hnode⟩ := h.held c hc
      refine ⟨Finset.mem_insert_of_mem hkey, ?_⟩
      show ((s.put k _).files c.key).node = c.node
      rw [State.put_ne s (hne c.key hkey)]
      exact hnode

/-- A chunk queued: one more is counted, and one more is outstanding. -/
theorem Inv.serve (h : Inv s) (hk : k ∈ s.keys) : Inv (addCachedFileChunk s k) := by
  have hout : ∀ node, (addCachedFileChunk s k).outstanding node =
      s.outstanding node + if (s.files k).node = node then 1 else 0 := by
    intro node
    show List.countP _ (⟨k, (s.files k).node⟩ :: s.chunks) = _
    rw [List.countP_cons, State.outstanding]
    simp
  have hsame : ∀ j, ((addCachedFileChunk s k).files j).node = (s.files j).node ∧
      ((addCachedFileChunk s k).files j).fd = (s.files j).fd := by
    intro j
    show ((s.put k _).files j).node = _ ∧ ((s.put k _).files j).fd = _
    by_cases hj : j = k
    · rw [hj, State.put_self]
      exact ⟨rfl, rfl⟩
    · rw [State.put_ne s hj]
      exact ⟨rfl, rfl⟩
  refine ⟨fun j hj => ?_, fun j hj => ?_, h.garbage, fun j hj => ?_, fun i hi j hj hij => ?_,
    fun c hc => ?_⟩
  · have hcount := h.counted j hj
    rw [(hsame j).1, hout]
    show ((s.put k _).files j).inFlight = _
    by_cases hjk : j = k
    · rw [hjk] at hcount ⊢
      rw [State.put_self, if_pos rfl]
      simp only
      omega
    · have hne : (s.files k).node ≠ (s.files j).node := by
        intro heq
        exact hjk (h.distinct j hj k hk heq.symm)
      rw [State.put_ne s hjk, if_neg hne]
      omega
  · rw [(hsame j).2]
    exact h.isOpen j hj
  · rw [(hsame j).1]
    exact h.fresh j hj
  · rw [(hsame i).1, (hsame j).1] at hij
    exact h.distinct i hi j hj hij
  · rw [(hsame c.key).1]
    rcases List.mem_cons.mp hc with rfl | hc
    · exact ⟨hk, rfl⟩
    · exact h.held c hc

/-- A chunk sent or dropped: its pointer leads to the file that counts it. -/
theorem Inv.complete (h : Inv s) {i : ℕ} {c : FileChunk} (hi : s.chunks[i]? = some c) :
    Inv (derefCachedFileChunk { s with chunks := s.chunks.eraseIdx i } c) := by
  obtain ⟨hlt, hget⟩ := List.getElem?_eq_some_iff.mp hi
  have hperm : (c :: s.chunks.eraseIdx i).Perm s.chunks := by
    rw [← hget]
    exact List.getElem_cons_eraseIdx_perm hlt
  obtain ⟨hkey, hnode⟩ := h.held c (hperm.mem_iff.mp List.mem_cons_self)
  set cf : CachedFile :=
    { s.files c.key with inFlight := (s.files c.key).inFlight - 1 } with hcf
  -- what is left, before the collector is told
  have hput : Inv { s.put c.key cf with chunks := s.chunks.eraseIdx i } := by
    have hout : ∀ node, s.outstanding node =
        ((s.chunks.eraseIdx i).countP fun d => d.node = node) + if c.node = node then 1 else 0 := by
      intro node
      rw [State.outstanding, ← hperm.countP_eq, List.countP_cons]
      simp
    have hsame : ∀ j, ((s.put c.key cf).files j).node = (s.files j).node ∧
        ((s.put c.key cf).files j).fd = (s.files j).fd := by
      intro j
      by_cases hj : j = c.key
      · rw [hj, State.put_self]
        exact ⟨rfl, rfl⟩
      · rw [State.put_ne s hj]
        exact ⟨rfl, rfl⟩
    refine ⟨fun j hj => ?_, fun j hj => ?_, h.garbage, fun j hj => ?_, fun i hi j hj hij => ?_,
      fun d hd => ?_⟩
    · have hcount := h.counted j hj
      show ((s.put c.key cf).files j).inFlight =
        (((s.chunks.eraseIdx i).countP fun d => d.node = ((s.put c.key cf).files j).node : ℕ) : ℤ)
      rw [(hsame j).1]
      by_cases hjc : j = c.key
      · rw [hjc] at hcount ⊢
        have hone := hout (s.files c.key).node
        rw [if_pos hnode.symm] at hone
        rw [State.put_self, hcf]
        simp only
        omega
      · have hne : c.node ≠ (s.files j).node := by
          intro heq
          exact hjc (h.distinct j hj c.key hkey (heq.symm.trans hnode.symm))
        have hzero := hout (s.files j).node
        rw [if_neg hne] at hzero
        rw [State.put_ne s hjc]
        omega
    · exact (hsame j).2.trans (h.isOpen j hj)
    · exact (hsame j).1.trans_lt (h.fresh j hj)
    · exact h.distinct i hi j hj ((hsame i).1.symm.trans (hij.trans (hsame j).1))
    · obtain ⟨hdkey, hdnode⟩ := h.held d (List.mem_of_mem_eraseIdx hd)
      exact ⟨hdkey, (hsame d.key).1.trans hdnode⟩
  rw [derefCachedFileChunk, if_pos ⟨hkey, hnode⟩]
  simp only
  split_ifs
  · exact hput.congr rfl rfl rfl rfl rfl
  · exact hput

/-- Nothing to collect. -/
theorem Inv.collect (h : Inv s) :
    Inv (garbageCollector s).2 ∧ (garbageCollector s).1 = [] := by
  rw [garbageCollector, h.garbage]
  exact ⟨h.congr rfl rfl h.garbage.symm rfl rfl, rfl⟩

/-- Adding a file when no file it evicts is in flight. -/
theorem Inv.add (h : Inv s) {order : List Key} (hnodup : order.Nodup)
    (hall : order.toFinset = s.keys) (k : Key) (cf : CachedFile) (huse : cf.useFd = false) (hopen : cf.fd = true)
    (hzero : cf.inFlight = 0)
    (hquiet : ∀ j ∈ evicted maxCacheSize s order cf.len, (s.files j).inFlight = 0) :
    ∃ o s', addCachedFile maxCacheSize s order k cf = (o, s') ∧ Inv s' ∧
      (∀ node ∈ o, s.outstanding node = 0) ∧ s'.chunks = s.chunks ∧ k ∈ s'.keys ∧
      (s'.files k).inFlight =
        if k ∈ s.keys ∧ k ∉ evicted maxCacheSize s order cf.len then (s.files k).inFlight
        else 0 := by
  -- the state before the file is put in, whichever files are evicted
  have hput : ∀ s₁ : State, Inv s₁ → s₁.files = s.files → s₁.chunks = s.chunks →
      (k ∈ s₁.keys ↔ k ∈ s.keys ∧ k ∉ evicted maxCacheSize s order cf.len) → ∀ total,
      ∃ s', FileServer.emplace { s₁ with total := total } k cf = s' ∧ Inv s' ∧
        s'.chunks = s.chunks ∧ k ∈ s'.keys ∧
        (s'.files k).inFlight =
          if k ∈ s.keys ∧ k ∉ evicted maxCacheSize s order cf.len then (s.files k).inFlight
          else 0 := by
    intro s₁ h₁ hfiles hchunks hkeys total
    have htotal : Inv { s₁ with total := total } := h₁.congr rfl rfl rfl rfl rfl
    obtain ⟨-, hk, -, hold, hnew⟩ := emplace_files { s₁ with total := total } k cf
    refine ⟨_, rfl, htotal.emplace hopen hzero, ?_, hk, ?_⟩
    · rw [FileServer.emplace]
      split_ifs <;> exact hchunks
    · split_ifs with hocc
      · rw [hold (hkeys.mpr hocc)]
        exact congrArg (fun f => (f k).inFlight) hfiles
      · rw [hnew fun hmem => hocc (hkeys.mp hmem)]
        exact hzero
  rw [addCachedFile, if_neg (by simp [huse])]
  simp only
  by_cases hroom : wadd s.total cf.len < maxCacheSize
  · rw [if_pos hroom]
    obtain ⟨s', rfl, hinv, hchunks, hk, hflight⟩ := hput s h rfl rfl (by
      rw [evicted, if_pos hroom]
      simp) (wadd s.total cf.len)
    refine ⟨_, _, rfl, hinv, fun node hmem => ?_, hchunks, hk, hflight⟩
    cases hmem
  · rw [if_neg hroom]
    have hevicted : evicted maxCacheSize s order cf.len =
        (victims maxCacheSize s.files (cachedIts s.files order) (wadd s.total cf.len)).1 :=
      if_neg hroom
    obtain ⟨hits, hin⟩ := cachedIts_nodup s.files hnodup
    have hsub := victims_sublist maxCacheSize s.files (cachedIts s.files order)
      (wadd s.total cf.len)
    rw [hevicted] at hquiet
    set v := victims maxCacheSize s.files (cachedIts s.files order) (wadd s.total cf.len)
    have hkeys : ∀ j ∈ v.1, j ∈ s.keys := by
      intro j hj
      rw [← hall, List.mem_toFinset]
      exact hin j (hsub.subset hj)
    obtain ⟨hall', hrel, hchunks⟩ := h.markAll (hits.sublist hsub) hkeys hquiet
    obtain ⟨hfiles, hkeys', -⟩ := markAll_spec (hits.sublist hsub) hkeys
    obtain ⟨s', rfl, hinv, hchunks', hk, hflight⟩ := hput (FileServer.markAll s v.1).2 hall' hfiles
      hchunks (by rw [hkeys', hevicted]) v.2
    exact ⟨_, _, rfl, hinv, hrel, hchunks', hk, hflight⟩

/-- Reading a file that is open: when that fails it must not be in flight. -/
theorem Inv.reload (h : Inv s) (hk : k ∈ s.keys) (reads : Bool)
    (hzero : reads = false → (s.files k).inFlight = 0) :
    Inv (reloadCachedFile s k reads).2 ∧
      ∀ node ∈ (reloadCachedFile s k reads).1, s.outstanding node = 0 := by
  rw [reloadCachedFile, h.isOpen k hk, Bool.true_and]
  cases reads with
  | true =>
    refine ⟨h.put rfl rfl (h.isOpen k hk), fun node hmem => ?_⟩
    cases hmem
  | false => exact h.mark hk (hzero rfl)

/-! ### Steps and runs -/

section Steps

variable {rel : Key} {disk : Disk} {sendFile : Bool} {order : List Key}

/-- A path that is not cached. -/
theorem inv_loadFile_miss (h : Inv s) (hnodup : order.Nodup) (hall : order.toFinset = s.keys)
    (hrel : rel ∉ s.keys) (hquiet : Quiet maxCacheSize s (.request rel disk sendFile order)) :
    Inv (loadFile maxCacheSize s rel disk sendFile order).2 ∧
      ∀ node ∈ (loadFile maxCacheSize s rel disk sendFile order).1, s.outstanding node = 0 := by
  rw [Quiet, if_pos hrel] at hquiet
  rw [loadFile, if_pos hrel]
  have hsame : Inv s ∧ ∀ node ∈ ([] : List ℕ), s.outstanding node = 0 := by
    refine ⟨h, fun node hmem => ?_⟩
    cases hmem
  rcases hres : disk.resolved with _ | path
  · exact hsame
  rcases hopens : disk.opens
  · exact hsame
  obtain ⟨hevicted, hocc⟩ := hquiet path hres hopens
  simp only [Bool.not_true, Bool.false_eq_true, if_false]
  obtain ⟨o, s₁, hadd, h₁, hrel₁, hchunks, hk, hflight⟩ := h.add hnodup hall path
    { node := s.nodes, fd := true, len := (disk.stat.getD .zero).size,
      lastModified := (disk.stat.getD .zero).mtime,
      lastAccessed := (disk.stat.getD .zero).atime } rfl rfl rfl hevicted
  rw [hadd]
  have hsent : ∀ node, s₁.outstanding node = s.outstanding node := by
    intro node
    rw [State.outstanding, State.outstanding, hchunks]
  cases sendFile with
  | true => exact ⟨h₁.put rfl rfl (h₁.isOpen path hk), hrel₁⟩
  | false =>
    simp only [Bool.false_eq_true, if_false]
    -- the file is new, or the one that was there, and then in flight only if it is read
    obtain ⟨h₂, hrel₂⟩ := h₁.reload hk disk.reads (by
      intro hreads
      rw [hflight]
      split_ifs with hthere
      · exact hocc hthere rfl hreads
      · rfl)
    refine ⟨h₂, fun node hmem => ?_⟩
    rcases List.mem_append.mp hmem with hmem | hmem
    · exact hrel₁ node hmem
    · rw [← hsent]
      exact hrel₂ node hmem

/-- A path that is cached: the file is not modified, or not in flight. -/
theorem inv_loadFile_hit (h : Inv s) (hrel : rel ∈ s.keys)
    (hquiet : Quiet maxCacheSize s (.request rel disk sendFile order)) :
    Inv (loadFile maxCacheSize s rel disk sendFile order).2 ∧
      ∀ node ∈ (loadFile maxCacheSize s rel disk sendFile order).1, s.outstanding node = 0 := by
  rw [Quiet, if_neg (not_not.mpr hrel)] at hquiet
  rw [loadFile, if_neg (not_not.mpr hrel)]
  rcases hst : disk.stat with _ | st
  · have hzero : (s.files rel).inFlight = 0 := by
      refine hquiet.resolve_left ?_
      rintro ⟨st, hsome, -⟩
      rw [hst] at hsome
      cases hsome
    exact h.mark hrel hzero
  simp only
  by_cases hmod : (s.files rel).lastModified = st.mtime
  · rw [if_pos hmod]
    refine ⟨h.put rfl rfl (h.isOpen rel hrel), fun node hmem => ?_⟩
    cases hmem
  rw [if_neg hmod]
  have hzero : (s.files rel).inFlight = 0 := by
    refine hquiet.resolve_left ?_
    rintro ⟨st', hsome, heq⟩
    rw [hst, Option.some.injEq] at hsome
    exact hmod (hsome ▸ heq)
  obtain ⟨hout, -⟩ := h.no_chunk hrel hzero
  have hclear : ∀ node ∈ (s.files rel).released, s.outstanding node = 0 := by
    intro node hmem
    rw [mem_released hmem]
    exact hout
  have happend : ∀ o : List ℕ, (∀ node ∈ o, s.outstanding node = 0) →
      ∀ node ∈ (s.files rel).released ++ o, s.outstanding node = 0 := by
    intro o ho node hmem
    exact (List.mem_append.mp hmem).elim (hclear node) (ho node)
  rcases hopens : disk.opens
  · simp only [Bool.not_false, if_true]
    obtain ⟨hmark, hrel'⟩ := h.mark_put hrel hzero (s.files rel).clear rfl hzero
    exact ⟨hmark, happend _ hrel'⟩
  simp only [Bool.not_true, Bool.false_eq_true, if_false, State.put_self, State.put_put]
  set cf : CachedFile := { (s.files rel).clear with
    fd := true, lastAccessed := st.atime, lastModified := st.mtime, len := st.size }
  have hput : Inv (s.put rel cf) := h.put rfl rfl rfl
  cases sendFile with
  | true =>
    have hsend : Inv (s.put rel { cf with useFd := true }) := h.put rfl rfl rfl
    exact ⟨hsend, hclear⟩
  | false =>
    simp only [Bool.false_eq_true, if_false]
    obtain ⟨hreload, hrel'⟩ := hput.reload hrel disk.reads (by
      intro _
      rw [State.put_self]
      exact hzero)
    exact ⟨hreload, happend _ hrel'⟩

/-- **One step** that removes or clears no file in flight. -/
theorem inv_step {i : Input} {o : List ℕ} (h : Inv s) (hquiet : Quiet maxCacheSize s i)
    (hstep : step maxCacheSize s i = some (o, s')) :
    Inv s' ∧ ∀ node ∈ o, s.outstanding node = 0 := by
  cases i with
  | request rel disk sendFile order =>
    rw [step, Option.ite_none_right_eq_some] at hstep
    obtain ⟨⟨hnodup, hall⟩, hload⟩ := hstep
    obtain ⟨rfl, rfl⟩ := Prod.mk.inj (Option.some.inj hload)
    by_cases hrel : rel ∈ s.keys
    · exact inv_loadFile_hit h hrel hquiet
    · exact inv_loadFile_miss h hnodup hall hrel hquiet
  | serve k =>
    rw [step, Option.ite_none_right_eq_some] at hstep
    obtain ⟨hk, hserve⟩ := hstep
    obtain ⟨rfl, rfl⟩ := Prod.mk.inj (Option.some.inj hserve)
    refine ⟨h.serve hk, fun node hmem => ?_⟩
    cases hmem
  | complete j =>
    rw [step] at hstep
    split at hstep
    · cases hstep
    · rename_i c hc
      obtain ⟨rfl, rfl⟩ := Prod.mk.inj (Option.some.inj hstep)
      refine ⟨h.complete hc, fun node hmem => ?_⟩
      cases hmem
  | collect =>
    rw [step, Option.ite_none_right_eq_some] at hstep
    obtain ⟨-, hcollect⟩ := hstep
    have hpair := Option.some.inj hcollect
    obtain ⟨hinv, hnone⟩ := h.collect
    rw [hpair] at hinv hnone
    refine ⟨hinv, fun node hmem => ?_⟩
    rw [show o = [] from hnone] at hmem
    cases hmem

end Steps

theorem inv_init : Inv init where
  counted := by simp [init]
  isOpen := by simp [init]
  garbage := rfl
  fresh := by simp [init]
  distinct := by simp [init]
  held := by simp [init]

/-- The file after it has changed. -/
def newer : Disk := ⟨some (ascii "/a.css"), some ⟨2, 2, 5, five_lt⟩, true, true⟩

/-- A file is sent, then loaded again when it has changed. -/
def served : List Input :=
  [.request (ascii "/a.css") small false [], .serve (ascii "/a.css"), .complete 0,
    .request (ascii "/a.css") newer false [ascii "/a.css"]]

/-- It changes while it is sent. -/
def changed : List Input :=
  [.request (ascii "/a.css") small false [], .serve (ascii "/a.css"),
    .request (ascii "/a.css") newer false [ascii "/a.css"]]

end Suil.FileServer
