/-
The size of the files held in memory.

`_totalMemCachedSize` is changed where files are added and removed; the sizes and
flags it sums up change elsewhere too.

* `right_markCachedFileForRemoval`, `total_addCachedFile` — what removing and adding
  do to the total and to the sum;
* `right_step_iff` — the steps that keep the two equal;
* `right_of_run_iff` — the runs that do.
-/
import Suil.FileCache

open Runs

namespace Suil.FileServer

/-- The bytes a file holds in memory. -/
def CachedFile.memory (cf : CachedFile) : ℕ := if cf.useFd then 0 else cf.len

/-- The bytes that the cached files hold in memory. -/
def State.inMemory (s : State) : ℕ := ∑ k ∈ s.keys, (s.files k).memory

/-- The total is the sum, as a `size_t`. -/
def State.Right (s : State) : Prop := s.total = s.inMemory % 2 ^ 64

/-- The sizes come from `stat`. -/
def State.Sized (s : State) : Prop := ∀ k, (s.files k).len < 2 ^ 63

variable {s : State} {k : Key} {cf : CachedFile} {maxCacheSize : ℕ}

theorem memory_lt (h : s.Sized) (k : Key) : (s.files k).memory < 2 ^ 63 := by
  rw [CachedFile.memory]
  split_ifs
  · norm_num
  · exact h k

/-! ### The sum -/

theorem inMemory_put (hk : k ∈ s.keys) (cf : CachedFile) :
    (s.put k cf).inMemory + (s.files k).memory = s.inMemory + cf.memory := by
  have hrest : ∀ j ∈ s.keys.erase k, ((s.put k cf).files j).memory = (s.files j).memory := by
    intro j hj
    rw [State.put_ne s (Finset.ne_of_mem_erase hj)]
  have hself : ((s.put k cf).files k).memory = cf.memory := by
    rw [State.put_self]
  rw [State.inMemory, State.inMemory, State.put_keys, ← Finset.add_sum_erase _ _ hk,
    ← Finset.add_sum_erase _ (fun j => (s.files j).memory) hk, Finset.sum_congr rfl hrest, hself]
  omega

/-- Changing a file but not what it holds in memory. -/
theorem inMemory_put_eq (hmem : cf.memory = (s.files k).memory) :
    (s.put k cf).inMemory = s.inMemory := by
  refine Finset.sum_congr rfl fun j _ => ?_
  by_cases hj : j = k
  · rw [hj, State.put_self, hmem]
  · rw [State.put_ne s hj]

theorem inMemory_emplace :
    (emplace s k cf).inMemory = if k ∈ s.keys then s.inMemory else s.inMemory + cf.memory := by
  rw [emplace]
  split_ifs with hk
  · rfl
  · have hkeys : ({ s.put k { cf with node := s.nodes } with
        keys := insert k s.keys, nodes := s.nodes + 1 } : State).inMemory =
          ∑ j ∈ insert k s.keys, ((s.put k { cf with node := s.nodes }).files j).memory := rfl
    rw [hkeys, Finset.sum_insert hk, Nat.add_comm]
    congr 1
    · refine Finset.sum_congr rfl fun j hj => ?_
      have hne : j ≠ k := by
        rintro rfl
        exact hk hj
      rw [State.put_ne s hne]
    · rw [State.put_self]
      rfl

/-! ### Removing -/

theorem markCachedFileForRemoval_files (s : State) (k : Key) :
    (markCachedFileForRemoval s k).2.files = s.files ∧
      (markCachedFileForRemoval s k).2.keys = s.keys.erase k ∧
      (markCachedFileForRemoval s k).2.chunks = s.chunks ∧
      (markCachedFileForRemoval s k).2.nodes = s.nodes := by
  rw [markCachedFileForRemoval]
  simp only
  split_ifs <;> exact ⟨rfl, rfl, rfl, rfl⟩

theorem markCachedFileForRemoval_total (s : State) (k : Key) :
    (markCachedFileForRemoval s k).2.total =
      if (s.files k).useFd then s.total else wsub s.total (s.files k).len := by
  rw [markCachedFileForRemoval]
  simp only
  split_ifs <;> rfl

theorem inMemory_markCachedFileForRemoval (hk : k ∈ s.keys) :
    (markCachedFileForRemoval s k).2.inMemory + (s.files k).memory = s.inMemory := by
  obtain ⟨hfiles, hkeys, -⟩ := markCachedFileForRemoval_files s k
  rw [State.inMemory, State.inMemory, hfiles, hkeys, Nat.add_comm]
  exact Finset.add_sum_erase _ (fun j => (s.files j).memory) hk

/-- What a removal takes off the total, on `size_t`. -/
theorem total_markCachedFileForRemoval (hsized : s.Sized) (htotal : s.total < 2 ^ 64) (k : Key) :
    (markCachedFileForRemoval s k).2.total < 2 ^ 64 ∧
      ((markCachedFileForRemoval s k).2.total + (s.files k).memory) % 2 ^ 64 = s.total := by
  have hlen := hsized k
  rw [markCachedFileForRemoval_total, CachedFile.memory, wsub]
  split_ifs <;> omega

/-- Removing a file keeps the total as right or wrong as it was. -/
theorem right_markCachedFileForRemoval_iff (hsized : s.Sized) (htotal : s.total < 2 ^ 64)
    (hk : k ∈ s.keys) : (markCachedFileForRemoval s k).2.Right ↔ s.Right := by
  have hsum := inMemory_markCachedFileForRemoval hk
  obtain ⟨hlt, hoff⟩ := total_markCachedFileForRemoval hsized htotal k
  rw [State.Right, State.Right]
  omega

/-- Neither does a change that keeps what the file holds in memory. -/
theorem right_put_iff (hmem : cf.memory = (s.files k).memory) : (s.put k cf).Right ↔ s.Right := by
  rw [State.Right, State.Right, State.put_total, inMemory_put_eq hmem]

theorem memory_le (hk : k ∈ s.keys) : (s.files k).memory ≤ s.inMemory :=
  Finset.single_le_sum (f := fun j => (s.files j).memory) (fun _ _ => Nat.zero_le _) hk

/-- Any other change. -/
theorem right_put_iff_of_mem (hk : k ∈ s.keys) :
    (s.put k cf).Right ↔ s.total = (s.inMemory - (s.files k).memory + cf.memory) % 2 ^ 64 := by
  have hsum := inMemory_put hk cf
  have hle := memory_le hk
  rw [State.Right, State.put_total,
    show (s.put k cf).inMemory = s.inMemory - (s.files k).memory + cf.memory by omega]

theorem sized_put (h : s.Sized) (hlen : cf.len < 2 ^ 63) : (s.put k cf).Sized := by
  intro j
  by_cases hj : j = k
  · rw [hj, State.put_self]
    exact hlen
  · rw [State.put_ne s hj]
    exact h j

theorem sized_markCachedFileForRemoval (h : s.Sized) :
    (markCachedFileForRemoval s k).2.Sized := by
  intro j
  rw [(markCachedFileForRemoval_files s k).1]
  exact h j

/-- So does reading it, whether that succeeds or not. -/
theorem right_reloadCachedFile_iff (hsized : s.Sized) (htotal : s.total < 2 ^ 64)
    (hk : k ∈ s.keys) (reads : Bool) :
    (reloadCachedFile s k reads).2.Sized ∧ ((reloadCachedFile s k reads).2.Right ↔ s.Right) := by
  rw [reloadCachedFile]
  split_ifs
  · exact ⟨sized_put hsized (hsized k), right_put_iff rfl⟩
  · exact ⟨sized_markCachedFileForRemoval hsized,
      right_markCachedFileForRemoval_iff hsized htotal hk⟩

/-! ### Adding -/

theorem insertLru_perm (files : Key → CachedFile) (k : Key) (its : List Key) :
    (insertLru files k its).Perm (k :: its) ∨ insertLru files k its = its := by
  induction its with
  | nil => exact Or.inl (List.Perm.refl _)
  | cons x xs ih =>
    rw [insertLru]
    split_ifs
    · exact Or.inl (List.Perm.refl _)
    · rcases ih with hperm | heq
      · exact Or.inl ((hperm.cons x).trans (List.Perm.swap k x xs))
      · exact Or.inr (by rw [heq])
    · exact Or.inr rfl

/-- The set holds keys of the map, each once. -/
theorem cachedIts_nodup (files : Key → CachedFile) {order : List Key} (h : order.Nodup) :
    (cachedIts files order).Nodup ∧ ∀ k ∈ cachedIts files order, k ∈ order := by
  have hfold : ∀ its, its.Nodup → (∀ k ∈ its, k ∉ order) →
      (order.foldl (fun its k => insertLru files k its) its).Nodup ∧
        ∀ k ∈ order.foldl (fun its k => insertLru files k its) its, k ∈ its ∨ k ∈ order := by
    induction order with
    | nil => exact fun its hits _ => ⟨hits, fun k hk => Or.inl hk⟩
    | cons x xs ih =>
      intro its hits hnew
      obtain ⟨hx, hxs⟩ := List.nodup_cons.mp h
      have hxits : x ∉ its := fun hmem => hnew x hmem List.mem_cons_self
      rw [List.foldl_cons]
      rcases insertLru_perm files x its with hperm | heq
      · obtain ⟨hnodup, hmem⟩ := ih hxs (insertLru files x its)
          (hperm.nodup_iff.mpr (List.nodup_cons.mpr ⟨hxits, hits⟩)) (by
            intro k hk
            rcases List.mem_cons.mp (hperm.mem_iff.mp hk) with rfl | hk
            · exact hx
            · exact fun hkxs => hnew k hk (List.mem_cons_of_mem x hkxs))
        refine ⟨hnodup, fun k hk => ?_⟩
        rcases hmem k hk with hk | hk
        · rcases List.mem_cons.mp (hperm.mem_iff.mp hk) with rfl | hk
          · exact Or.inr List.mem_cons_self
          · exact Or.inl hk
        · exact Or.inr (List.mem_cons_of_mem x hk)
      · rw [heq]
        obtain ⟨hnodup, hmem⟩ := ih hxs its hits
          fun k hk hkxs => hnew k hk (List.mem_cons_of_mem x hkxs)
        exact ⟨hnodup, fun k hk => (hmem k hk).imp_right (List.mem_cons_of_mem x)⟩
  obtain ⟨hnodup, hmem⟩ := hfold [] List.nodup_nil (by simp)
  exact ⟨hnodup, fun k hk => (hmem k hk).resolve_left List.not_mem_nil⟩

/-- The victims are taken from the set, and hold memory. -/
theorem victims_sublist (maxCacheSize : ℕ) (files : Key → CachedFile) (its : List Key) (n : ℕ) :
    (victims maxCacheSize files its n).1.Sublist its := by
  induction its generalizing n with
  | nil => exact List.Sublist.refl _
  | cons k its ih =>
    rw [victims]
    split_ifs
    · exact (ih n).cons k
    · exact (ih _).cons_cons k
    · exact List.nil_sublist _

/-- The bytes of the victims are off the new size, on `size_t`. -/
theorem victims_total (maxCacheSize : ℕ) (hsized : s.Sized) (its : List Key) {n : ℕ} (hn : n < 2 ^ 64) :
    (victims maxCacheSize s.files its n).2 < 2 ^ 64 ∧
      ((victims maxCacheSize s.files its n).2 +
        ((victims maxCacheSize s.files its n).1.map fun k => (s.files k).memory).sum) % 2 ^ 64 =
          n := by
  induction its generalizing n with
  | nil => exact ⟨hn, by simpa [victims] using hn⟩
  | cons k its ih =>
    rw [victims]
    split_ifs with hmax hfd
    · exact ih hn
    · have hlen := hsized k
      have hwsub : wsub n (s.files k).len < 2 ^ 64 ∧
          (wsub n (s.files k).len + (s.files k).len) % 2 ^ 64 = n := by
        rw [wsub]
        split_ifs <;> omega
      obtain ⟨hlt, hsum⟩ := ih hwsub.1
      refine ⟨hlt, ?_⟩
      have hmem : (s.files k).memory = (s.files k).len := if_neg hfd
      simp only [List.map_cons, List.sum_cons, hmem]
      omega
    · exact ⟨hn, by simpa using hn⟩

theorem markAll_spec {ks : List Key} (hnodup : ks.Nodup) (hks : ∀ k ∈ ks, k ∈ s.keys) :
    (markAll s ks).2.files = s.files ∧ (∀ k, k ∈ (markAll s ks).2.keys ↔ k ∈ s.keys ∧ k ∉ ks) ∧
      (markAll s ks).2.inMemory + (ks.map fun k => (s.files k).memory).sum = s.inMemory := by
  induction ks generalizing s with
  | nil => simp [markAll]
  | cons k ks ih =>
    obtain ⟨hk, hnodup⟩ := List.nodup_cons.mp hnodup
    obtain ⟨hfiles, hkeys, -⟩ := markCachedFileForRemoval_files s k
    have hmem := inMemory_markCachedFileForRemoval (hks k List.mem_cons_self)
    obtain ⟨hfiles', hkeys', hmem'⟩ := ih (s := (markCachedFileForRemoval s k).2) hnodup (by
      intro j hj
      rw [hkeys]
      refine Finset.mem_erase.mpr ⟨?_, hks j (List.mem_cons_of_mem k hj)⟩
      rintro rfl
      exact hk hj)
    rw [markAll]
    refine ⟨hfiles'.trans hfiles, fun j => ?_, ?_⟩
    · rw [hkeys', hkeys, Finset.mem_erase, List.mem_cons]
      tauto
    · rw [hfiles] at hmem'
      simp only [List.map_cons, List.sum_cons]
      omega

/-- The files that adding `n` bytes evicts. -/
def evicted (maxCacheSize : ℕ) (s : State) (order : List Key) (n : ℕ) : List Key :=
  if wadd s.total n < maxCacheSize then []
  else (victims maxCacheSize s.files (cachedIts s.files order) (wadd s.total n)).1

/-- The file a path stands for is cached already, and stays. -/
def Occupied (maxCacheSize : ℕ) (s : State) (order : List Key) (k : Key) (n : ℕ) : Prop :=
  k ∈ s.keys ∧ k ∉ evicted maxCacheSize s order n

theorem emplace_files (s : State) (k : Key) (cf : CachedFile) :
    (emplace s k cf).total = s.total ∧ k ∈ (emplace s k cf).keys ∧
      (∀ j, j ≠ k → (emplace s k cf).files j = s.files j) ∧
      (k ∈ s.keys → (emplace s k cf).files k = s.files k) ∧
      (k ∉ s.keys → (emplace s k cf).files k = { cf with node := s.nodes }) := by
  rw [emplace]
  split_ifs with hk
  · exact ⟨rfl, hk, fun _ _ => rfl, fun _ => rfl, fun h => absurd hk h⟩
  · refine ⟨rfl, Finset.mem_insert_self _ _, fun j hj => ?_, fun h => absurd h hk, fun _ => ?_⟩
    · exact State.put_ne s hj _
    · exact State.put_self s k _

/-- **Adding a file**: its size goes on the total, also when the path is occupied. -/
theorem total_addCachedFile (maxCacheSize : ℕ) (k : Key) (cf : CachedFile) (hsized : s.Sized)
    (h : s.Right) {order : List Key}
    (hnodup : order.Nodup) (hall : order.toFinset = s.keys) (huse : cf.useFd = false)
    (hlen : cf.len < 2 ^ 63) :
    ∃ m s', (addCachedFile maxCacheSize s order k cf).2 = s' ∧ k ∈ s'.keys ∧
      s'.total = (m + cf.len) % 2 ^ 64 ∧ s'.Sized ∧
      (Occupied maxCacheSize s order k cf.len → s'.inMemory = m ∧ s'.files k = s.files k) ∧
      (¬Occupied maxCacheSize s order k cf.len → s'.inMemory = m + cf.len ∧
        ∃ node, s'.files k = { cf with node := node }) := by
  have hmemory : cf.memory = cf.len := by
    rw [CachedFile.memory, huse]
    rfl
  have hwadd : wadd s.total cf.len = (s.inMemory + cf.len) % 2 ^ 64 := by
    rw [State.Right] at h
    rw [wadd]
    split_ifs <;> omega
  -- the state before the file is put in, whichever files are evicted
  have hput : ∀ s₁ : State, s₁.Sized → (∀ j, s₁.files j = s.files j) →
      (k ∈ s₁.keys ↔ Occupied maxCacheSize s order k cf.len) → ∀ total,
      total = (s₁.inMemory + cf.len) % 2 ^ 64 →
      ∃ m s', emplace { s₁ with total := total } k cf = s' ∧ k ∈ s'.keys ∧
        s'.total = (m + cf.len) % 2 ^ 64 ∧ s'.Sized ∧
        (Occupied maxCacheSize s order k cf.len → s'.inMemory = m ∧ s'.files k = s.files k) ∧
        (¬Occupied maxCacheSize s order k cf.len → s'.inMemory = m + cf.len ∧
          ∃ node, s'.files k = { cf with node := node }) := by
    intro s₁ hsized₁ hfiles hkeys total htotal
    obtain ⟨htot, hk, hne, hold, hnew⟩ := emplace_files { s₁ with total := total } k cf
    have hsum : (emplace { s₁ with total := total } k cf).inMemory =
        if k ∈ s₁.keys then s₁.inMemory else s₁.inMemory + cf.memory := inMemory_emplace
    refine ⟨s₁.inMemory, _, rfl, hk, htot.trans htotal, fun j => ?_, fun hocc => ?_, fun hfree => ?_⟩
    · by_cases hj : j = k
      · rw [hj]
        by_cases hmem : k ∈ s₁.keys
        · rw [hold hmem]
          exact hsized₁ k
        · rw [hnew hmem]
          exact hlen
      · rw [hne j hj]
        exact hsized₁ j
    · have hmem := hkeys.mpr hocc
      refine ⟨hsum.trans (if_pos hmem), ?_⟩
      rw [hold hmem]
      exact hfiles k
    · have hmem : k ∉ s₁.keys := fun hmem => hfree (hkeys.mp hmem)
      refine ⟨?_, _, hnew hmem⟩
      rw [hsum, if_neg hmem, hmemory]
  rw [addCachedFile, if_neg (by simp [huse])]
  simp only
  by_cases hroom : wadd s.total cf.len < maxCacheSize
  · rw [if_pos hroom]
    refine hput s hsized (fun _ => rfl) ?_ _ hwadd
    rw [Occupied, evicted, if_pos hroom]
    simp
  · rw [if_neg hroom]
    have hevicted : evicted maxCacheSize s order cf.len =
        (victims maxCacheSize s.files (cachedIts s.files order) (wadd s.total cf.len)).1 :=
      if_neg hroom
    have hlt : wadd s.total cf.len < 2 ^ 64 := by
      rw [hwadd]
      exact Nat.mod_lt _ (by norm_num)
    obtain ⟨hits, hin⟩ := cachedIts_nodup s.files hnodup
    have hsub := victims_sublist maxCacheSize s.files (cachedIts s.files order)
      (wadd s.total cf.len)
    have hvictims := victims_total maxCacheSize hsized (cachedIts s.files order) hlt
    set v := victims maxCacheSize s.files (cachedIts s.files order) (wadd s.total cf.len) with hv
    obtain ⟨hfiles, hkeys, hsum⟩ := markAll_spec (s := s) (hits.sublist hsub) (by
      intro j hj
      rw [← hall, List.mem_toFinset]
      exact hin j (hsub.subset hj))
    refine hput (markAll s v.1).2 (fun j => ?_) (fun j => by rw [hfiles]) ?_ v.2 ?_
    · rw [hfiles]
      exact hsized j
    · rw [hkeys, Occupied, hevicted]
    · obtain ⟨hlt', hoff⟩ := hvictims
      rw [hwadd] at hoff
      omega

/-! ### The steps -/

/-- The requests that keep the total right: a new file is read into memory under a path
that is not occupied, unless it is empty; a file loaded again holds as much as before. -/
def Allowed (maxCacheSize : ℕ) (s : State) : Input → Prop
  | .request rel disk sendFile order =>
    if rel ∉ s.keys then
      ∀ path, disk.resolved = some path → disk.opens = true →
        ¬Occupied maxCacheSize s order path (disk.stat.getD .zero).size ∧ sendFile = false ∨
        (disk.stat.getD .zero).size = 0 ∧
          (Occupied maxCacheSize s order path 0 → sendFile = true → (s.files path).memory = 0)
    else
      ∀ st, disk.stat = some st → (s.files rel).lastModified ≠ st.mtime →
        (s.files rel).memory = if disk.opens = false ∨ sendFile = true then 0 else st.size
  | _ => True

section Steps

variable {rel : Key} {disk : Disk} {sendFile : Bool} {order : List Key}

/-- A path that is not cached. -/
theorem right_loadFile_miss_iff (hsized : s.Sized) (h : s.Right) (hnodup : order.Nodup)
    (hall : order.toFinset = s.keys) (hrel : rel ∉ s.keys) :
    (loadFile maxCacheSize s rel disk sendFile order).2.Sized ∧
      ((loadFile maxCacheSize s rel disk sendFile order).2.Right ↔
        Allowed maxCacheSize s (.request rel disk sendFile order)) := by
  rw [loadFile, Allowed, if_pos hrel, if_pos hrel]
  rcases hres : disk.resolved with _ | path
  · exact ⟨hsized, iff_of_true h (by simp)⟩
  rcases hopens : disk.opens
  · exact ⟨hsized, iff_of_true h (by simp)⟩
  simp only [Bool.not_true, Bool.false_eq_true, if_false, Option.some.injEq, forall_eq', true_imp_iff]
  set st := disk.stat.getD .zero
  obtain ⟨m, s₁, hs₁, hk, htotal, hsized₁, hocc, hfree⟩ := total_addCachedFile maxCacheSize path
    { node := s.nodes, fd := true, len := st.size, lastModified := st.mtime,
      lastAccessed := st.atime } hsized h hnodup hall rfl st.size_lt
  rw [hs₁]
  simp only at htotal hocc hfree
  have hlt : s₁.total < 2 ^ 64 := htotal ▸ Nat.mod_lt _ (by norm_num)
  have hsize := st.size_lt
  cases sendFile with
  | true =>
    refine ⟨sized_put hsized₁ (hsized₁ path), (right_put_iff_of_mem hk).trans ?_⟩
    have hzero : CachedFile.memory { s₁.files path with useFd := true } = 0 := rfl
    have hle := memory_le hk
    rw [hzero]
    by_cases ho : Occupied maxCacheSize s order path st.size
    · obtain ⟨hin, hfile⟩ := hocc ho
      have hmem := memory_lt hsized path
      rw [hfile] at hle ⊢
      simp only [ho, not_true_eq_false, false_and, false_or, true_imp_iff]
      constructor
      · intro hright
        have hboth : st.size = 0 ∧ (s.files path).memory = 0 := by omega
        exact ⟨hboth.1, fun _ => hboth.2⟩
      · rintro ⟨hn, hrest⟩
        have hmem₀ := hrest (hn ▸ ho)
        omega
    · obtain ⟨hin, node, hfile⟩ := hfree ho
      have hmem : (s₁.files path).memory = st.size := by
        rw [hfile]
        rfl
      simp only [ho, not_false_eq_true, true_and, Bool.true_eq_false, false_or]
      constructor
      · intro hright
        have hn : st.size = 0 := by omega
        exact ⟨hn, fun hocc₀ => absurd (hn ▸ hocc₀) ho⟩
      · rintro ⟨hn, -⟩
        omega
  | false =>
    rw [if_neg Bool.false_ne_true]
    obtain ⟨hsized₂, hiff⟩ := right_reloadCachedFile_iff hsized₁ hlt hk disk.reads
    refine ⟨hsized₂, hiff.trans ?_⟩
    rw [State.Right]
    by_cases ho : Occupied maxCacheSize s order path st.size
    · obtain ⟨hin, -⟩ := hocc ho
      simp only [ho, not_true_eq_false, false_or, Bool.false_eq_true, false_imp_iff, implies_true,
        and_true]
      omega
    · obtain ⟨hin, -⟩ := hfree ho
      simp only [ho, not_false_eq_true, true_and, true_or, iff_true]
      omega

/-- A path that is cached. -/
theorem right_loadFile_hit_iff (hsized : s.Sized) (h : s.Right) (hrel : rel ∈ s.keys) :
    (loadFile maxCacheSize s rel disk sendFile order).2.Sized ∧
      ((loadFile maxCacheSize s rel disk sendFile order).2.Right ↔
        Allowed maxCacheSize s (.request rel disk sendFile order)) := by
  have htotal : s.total < 2 ^ 64 := by
    rw [State.Right] at h
    omega
  have hmem := memory_lt hsized rel
  rw [loadFile, Allowed, if_neg (not_not.mpr hrel), if_neg (not_not.mpr hrel)]
  rcases hst : disk.stat with _ | st
  · refine ⟨sized_markCachedFileForRemoval hsized, iff_of_true ?_ (by simp)⟩
    exact (right_markCachedFileForRemoval_iff hsized htotal hrel).mpr h
  simp only [Option.some.injEq, forall_eq']
  by_cases hmod : (s.files rel).lastModified = st.mtime
  · rw [if_pos hmod]
    have hkeep : CachedFile.memory { s.files rel with lastAccessed := st.atime } =
        (s.files rel).memory := rfl
    have hsame := (right_put_iff hkeep).mpr h
    exact ⟨sized_put hsized (hsized rel), iff_of_true hsame fun hne => absurd hmod hne⟩
  rw [if_neg hmod]
  simp only [ne_eq, hmod, not_false_eq_true, true_imp_iff]
  -- cleared, the file holds nothing, and the total does not know
  have hle := memory_le hrel
  have hsized₁ : (s.put rel (s.files rel).clear).Sized :=
    sized_put hsized (by norm_num [CachedFile.clear])
  rw [State.Right] at h
  rcases hopens : disk.opens
  · simp only [Bool.not_false, if_true, true_or]
    refine ⟨sized_markCachedFileForRemoval hsized₁, ?_⟩
    rw [right_markCachedFileForRemoval_iff hsized₁ htotal hrel, right_put_iff_of_mem hrel,
      show (s.files rel).clear.memory = 0 from rfl]
    omega
  simp only [Bool.not_true, Bool.false_eq_true, if_false, Bool.true_eq_false, false_or,
    State.put_self, State.put_put]
  set cf : CachedFile := { (s.files rel).clear with
    fd := true, lastAccessed := st.atime, lastModified := st.mtime, len := st.size } with hcf
  have hsize := st.size_lt
  cases sendFile with
  | true =>
    refine ⟨sized_put hsized hsize, (right_put_iff_of_mem hrel).trans ?_⟩
    rw [show CachedFile.memory { cf with useFd := true } = 0 from rfl]
    simp only [if_true]
    omega
  | false =>
    simp only [Bool.false_eq_true, if_false]
    obtain ⟨hsized₂, hiff⟩ := right_reloadCachedFile_iff
      (show (s.put rel cf).Sized from sized_put hsized hsize) htotal hrel disk.reads
    refine ⟨hsized₂, hiff.trans ((right_put_iff_of_mem hrel).trans ?_)⟩
    rw [show cf.memory = st.size from rfl]
    omega

/-- A change that keeps what the file holds in memory. -/
theorem sized_right_put (hsized : s.Sized) (h : s.Right) (hlen : cf.len = (s.files k).len)
    (huse : cf.useFd = (s.files k).useFd) : (s.put k cf).Sized ∧ (s.put k cf).Right := by
  refine ⟨sized_put hsized (hlen ▸ hsized k), (right_put_iff ?_).mpr h⟩
  rw [CachedFile.memory, CachedFile.memory, hlen, huse]

theorem sized_right_derefCachedFileChunk (hsized : s.Sized) (h : s.Right) (c : FileChunk) :
    (derefCachedFileChunk s c).Sized ∧ (derefCachedFileChunk s c).Right := by
  have hput : (s.put c.key { s.files c.key with inFlight := (s.files c.key).inFlight - 1 }).Sized ∧
      (s.put c.key { s.files c.key with inFlight := (s.files c.key).inFlight - 1 }).Right := by
    refine sized_right_put hsized h ?_ ?_
    · rfl
    · rfl
  rw [derefCachedFileChunk]
  simp only
  split_ifs
  · exact hput
  · exact hput
  · exact ⟨hsized, h⟩

/-- **One step** keeps the total right iff it is allowed. -/
theorem right_step_iff {i : Input} {o : List ℕ} {s' : State} (hsized : s.Sized) (h : s.Right)
    (hstep : step maxCacheSize s i = some (o, s')) :
    s'.Sized ∧ (s'.Right ↔ Allowed maxCacheSize s i) := by
  cases i with
  | request rel disk sendFile order =>
    rw [step, Option.ite_none_right_eq_some] at hstep
    obtain ⟨⟨hnodup, hall⟩, hload⟩ := hstep
    obtain rfl := congrArg Prod.snd (Option.some.inj hload)
    by_cases hrel : rel ∈ s.keys
    · exact right_loadFile_hit_iff hsized h hrel
    · exact right_loadFile_miss_iff hsized h hnodup hall hrel
  | serve k =>
    rw [step, Option.ite_none_right_eq_some] at hstep
    obtain ⟨-, hserve⟩ := hstep
    obtain rfl := congrArg Prod.snd (Option.some.inj hserve)
    have hput : (s.put k { s.files k with inFlight := (s.files k).inFlight + 1 }).Sized ∧
        (s.put k { s.files k with inFlight := (s.files k).inFlight + 1 }).Right := by
      refine sized_right_put hsized h ?_ ?_
      · rfl
      · rfl
    exact ⟨hput.1, iff_of_true hput.2 trivial⟩
  | complete j =>
    rw [step] at hstep
    split at hstep
    · cases hstep
    · obtain rfl := congrArg Prod.snd (Option.some.inj hstep)
      have hderef := sized_right_derefCachedFileChunk
        (s := { s with chunks := s.chunks.eraseIdx j }) hsized h
      exact ⟨(hderef _).1, iff_of_true (hderef _).2 trivial⟩
  | collect =>
    rw [step, Option.ite_none_right_eq_some] at hstep
    obtain ⟨-, hcollect⟩ := hstep
    obtain rfl := congrArg Prod.snd (Option.some.inj hcollect)
    exact ⟨hsized, iff_of_true h trivial⟩

end Steps

/-- **The runs that keep the total right.** -/
theorem right_of_run_iff {ms : List (Move State Input (List ℕ))} {s : State}
    (h : Run (step maxCacheSize) init ms s) :
    (∀ m ∈ ms, m.after.Right) ↔ ∀ m ∈ ms, Allowed maxCacheSize m.before m.input := by
  refine h.rule_iff (K := State.Sized) (J := State.Right) (fun k => ?_) rfl ?_
  · norm_num [init]
  · intro u i o v hsized hright hstep
    exact right_step_iff hsized hright hstep

theorem five_lt : 5 < 2 ^ 63 := by norm_num

/-- A file of five bytes. -/
def small : Disk := ⟨some (ascii "/a.css"), some ⟨1, 1, 5, five_lt⟩, true, true⟩

/-- It is asked for and read into memory. -/
def loading : List Input := [.request (ascii "/a.css") small false [], .serve (ascii "/a.css")]

theorem right_of_run_iff_loading : (∀ m ∈ moves (step 100) init loading, m.after.Right) ↔
    ∀ m ∈ moves (step 100) init loading, Allowed 100 m.before m.input :=
  right_of_run_iff (run_final (step 100) init loading)

/-- It is sent from its descriptor. -/
def sending : List Input := [.request (ascii "/a.css") small true []]

/-- Five bytes count, though the file holds none in memory. -/
theorem not_right : ∃ s, Run (step 100) init (moves (step 100) init sending) s ∧
    s.total = 5 ∧ s.inMemory = 0 ∧ ¬s.Right := by
  have htotal : (final (step 100) init sending).total = 5 := by decide
  have hsum : (final (step 100) init sending).inMemory = 0 := by decide
  refine ⟨_, run_final (step 100) init sending, htotal, hsum, fun h => ?_⟩
  rw [State.Right, htotal, hsum] at h
  exact absurd h (by norm_num)

end Suil.FileServer
