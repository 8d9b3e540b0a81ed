/-
Making room in the file cache.

A file that does not fit evicts others, which are taken from a set that is ordered by access time
and chunks in flight.  Of files that are the same in both the set holds one: the others are not
evicted, however old they are.

* `cachedIts_spec` — the set: sorted, one file for each time and count;
* `addCachedFile_eq` — what is removed, and the total;
* `evictsRight_iff` — when there is room afterwards, and the oldest files are gone.
-/
import Suil.FileCacheTotal
import Suil.Lib.Evicting
import Mathlib.Data.List.Sort

open Evicting

namespace Suil.FileServer

/-- An order in which the map is walked. -/
structure Walk (s : State) where
  order : List Key
  nodup : order.Nodup
  all : order.toFinset = s.keys

/-- The access time, and then the chunks in flight. -/
def CachedFile.rank (cf : CachedFile) : ℤ ×ₗ ℤ := toLex (cf.lastAccessed, cf.inFlight)

/-- A file that is walked before has the same time and count. -/
def Tied (files : Key → CachedFile) (order : List Key) (k : Key) : Prop :=
  ∃ j ∈ order, order.idxOf j < order.idxOf k ∧ (files j).rank = (files k).rank

instance (files : Key → CachedFile) (order : List Key) (k : Key) : Decidable (Tied files order k) :=
  inferInstanceAs (Decidable (∃ j ∈ order, _))

/-- The files in memory that are not tied, the oldest first. -/
def candidates (files : Key → CachedFile) (order : List Key) : List Key :=
  (order.filter fun k => (files k).useFd = false ∧ ¬Tied files order k).insertionSort
    fun j k => (files j).rank ≤ (files k).rank

section

variable (maxCacheSize : ℕ) (s : State) (order : List Key) (k : Key) (cf : CachedFile)

/-- The files that are removed, in this order. -/
def removed : List Key := if cf.useFd then [] else evicted maxCacheSize s order cf.len

/-- The total is within the bound or no other file in memory is left, and the oldest files were
removed, each before the younger ones. -/
structure EvictsRight : Prop where
  gone : (addCachedFile maxCacheSize s order k cf).2.keys =
    insert k (s.keys \ (removed maxCacheSize s order cf).toFinset)
  bound : (addCachedFile maxCacheSize s order k cf).2.total ≤ maxCacheSize ∨
    ∀ j ∈ s.keys, (s.files j).useFd = false → j ∈ removed maxCacheSize s order cf
  sorted : (removed maxCacheSize s order cf).Pairwise fun i j =>
    (s.files i).lastAccessed ≤ (s.files j).lastAccessed
  oldest : ∀ i ∈ removed maxCacheSize s order cf, ∀ j ∈ s.keys, (s.files j).useFd = false →
    j ∉ removed maxCacheSize s order cf → (s.files i).lastAccessed ≤ (s.files j).lastAccessed

/-- Before a file that is tied, those that are not tied make room.  A file that is sent from its
descriptor makes no room, and needs none. -/
def Enough : Prop :=
  if cf.useFd then s.total ≤ maxCacheSize ∨ ∀ j ∈ s.keys, (s.files j).useFd
  else ∀ i ∈ s.keys, (s.files i).useFd = false → Tied s.files order i →
    ∃ l, l <+: ((candidates s.files order).filter fun j =>
        (s.files j).lastAccessed ≤ (s.files i).lastAccessed) ∧
      l.foldl (fun n j => wsub n (s.files j).len) (wadd s.total cf.len) ≤ maxCacheSize

end

variable {files : Key → CachedFile} {order its : List Key} {j x : Key}

/-! ### The set -/

theorem leastRecentlyUsed_iff {a b : CachedFile} :
    leastRecentlyUsed a b = true ↔ a.rank < b.rank := by
  rw [leastRecentlyUsed, decide_eq_true_eq, CachedFile.rank, CachedFile.rank,
    Prod.Lex.toLex_lt_toLex]

/-- One that is put in comes where it belongs, unless its time and count are there. -/
theorem insertLru_spec (h : its.Pairwise fun i j => (files i).rank < (files j).rank) (x : Key) :
    (insertLru files x its).Pairwise (fun i j => (files i).rank < (files j).rank) ∧
      ∀ j, j ∈ insertLru files x its ↔
        j ∈ its ∨ j = x ∧ ∀ y ∈ its, (files y).rank ≠ (files x).rank := by
  induction its with
  | nil => simp [insertLru]
  | cons y its ih =>
    obtain ⟨hy, hits⟩ := List.pairwise_cons.mp h
    rw [insertLru]
    simp only [leastRecentlyUsed_iff]
    split_ifs with hbefore hbehind
    · have hall : ∀ z ∈ y :: its, (files x).rank < (files z).rank := fun z hz => by
        rcases List.mem_cons.mp hz with rfl | hz
        · exact hbefore
        · exact hbefore.trans (hy z hz)
      refine ⟨List.pairwise_cons.mpr ⟨hall, h⟩, fun j => ?_⟩
      rw [List.mem_cons, or_comm, and_iff_left fun z hz => (hall z hz).ne']
    · obtain ⟨hsorted, hmem⟩ := ih hits
      refine ⟨List.pairwise_cons.mpr ⟨fun j hj => ?_, hsorted⟩, fun j => ?_⟩
      · rcases (hmem j).mp hj with hj | ⟨rfl, -⟩
        · exact hy j hj
        · exact hbehind
      · rw [List.mem_cons, hmem, List.mem_cons, or_assoc, List.forall_mem_cons,
          and_iff_right hbehind.ne]
    · have heq : (files y).rank = (files x).rank :=
        le_antisymm (not_lt.mp hbefore) (not_lt.mp hbehind)
      refine ⟨h, fun j => (or_iff_left ?_).symm⟩
      rintro ⟨-, hnone⟩
      exact hnone y List.mem_cons_self heq

/-- **The set**: sorted, with one file for each time and count, the first one walked. -/
theorem cachedIts_spec (files : Key → CachedFile) {order : List Key} (h : order.Nodup) :
    (cachedIts files order).Pairwise (fun i j => (files i).rank < (files j).rank) ∧
      (∀ j, j ∈ cachedIts files order ↔ j ∈ order ∧ ¬Tied files order j) ∧
      ∀ j ∈ order, ∃ i ∈ cachedIts files order, (files i).rank = (files j).rank := by
  induction order using List.reverseRecOn with
  | nil => exact ⟨.nil, by simp [cachedIts], by simp⟩
  | append_singleton order x ih =>
    obtain ⟨hnodup, -, hdisj⟩ := List.nodup_append.mp h
    have hx : x ∉ order := fun hmem => hdisj x hmem x (List.mem_singleton_self x) rfl
    obtain ⟨hsorted, hmem, hall⟩ := ih hnodup
    have hconcat : cachedIts files (order ++ [x]) = insertLru files x (cachedIts files order) :=
      List.foldl_concat ..
    obtain ⟨hsorted', hmem'⟩ := insertLru_spec hsorted x
    -- the last one walked is tied when its time and count are there
    have hlast : Tied files (order ++ [x]) x ↔ ∃ y ∈ order, (files y).rank = (files x).rank := by
      constructor
      · rintro ⟨j, hj, hlt, hrank⟩
        rcases List.mem_append.mp hj with hj | hj
        · exact ⟨j, hj, hrank⟩
        · rw [List.mem_singleton.mp hj] at hlt
          exact absurd hlt (lt_irrefl _)
      · rintro ⟨y, hy, hrank⟩
        refine ⟨y, List.mem_append_left _ hy, ?_, hrank⟩
        rw [List.idxOf_append_of_mem hy, List.idxOf_append_of_notMem hx, List.idxOf_cons_self]
        exact List.idxOf_lt_length_of_mem hy
    have hold : ∀ j ∈ order, (Tied files (order ++ [x]) j ↔ Tied files order j) := fun j hj => by
      have hidx : (order ++ [x]).idxOf j = order.idxOf j := List.idxOf_append_of_mem hj
      constructor
      · rintro ⟨y, hy, hlt, hrank⟩
        rcases List.mem_append.mp hy with hy | hy
        · rw [hidx, List.idxOf_append_of_mem hy] at hlt
          exact ⟨y, hy, hlt, hrank⟩
        · have hlen := List.idxOf_lt_length_of_mem hj
          rw [hidx, List.mem_singleton.mp hy, List.idxOf_append_of_notMem hx] at hlt
          omega
      · rintro ⟨y, hy, hlt, hrank⟩
        refine ⟨y, List.mem_append_left _ hy, ?_, hrank⟩
        rwa [hidx, List.idxOf_append_of_mem hy]
    -- the times and counts of the set are those of the files
    have hfree : (∀ y ∈ cachedIts files order, (files y).rank ≠ (files x).rank) ↔
        ¬Tied files (order ++ [x]) x := by
      rw [hlast, not_exists]
      constructor
      · rintro hnone y ⟨hy, hrank⟩
        obtain ⟨i, hi, heq⟩ := hall y hy
        exact hnone i hi (heq.trans hrank)
      · intro hnone y hy hrank
        exact hnone y ⟨((hmem y).mp hy).1, hrank⟩
    rw [hconcat]
    refine ⟨hsorted', fun j => ?_, fun j hj => ?_⟩
    · rw [hmem', hmem, List.mem_append, List.mem_singleton, hfree]
      by_cases hj : j ∈ order
      · have hne : j ≠ x := fun heq => hx (heq ▸ hj)
        rw [hold j hj]
        simp [hj, hne]
      · by_cases heq : j = x
        · simp [heq, hx]
        · simp [hj, heq]
    · rcases List.mem_append.mp hj with hj | hj
      · obtain ⟨i, hi, hrank⟩ := hall j hj
        exact ⟨i, (hmem' i).mpr (.inl hi), hrank⟩
      · rw [List.mem_singleton.mp hj]
        by_cases hnone : ∀ y ∈ cachedIts files order, (files y).rank ≠ (files x).rank
        · exact ⟨x, (hmem' x).mpr (.inr ⟨rfl, hnone⟩), rfl⟩
        · push Not at hnone
          obtain ⟨y, hy, hrank⟩ := hnone
          exact ⟨y, (hmem' y).mpr (.inl hy), hrank⟩

theorem pairwise_candidates (files : Key → CachedFile) (order : List Key) :
    (candidates files order).Pairwise fun i j => (files i).rank ≤ (files j).rank := by
  have htotal : Std.Total fun i j : Key => (files i).rank ≤ (files j).rank :=
    ⟨fun i j => le_total _ _⟩
  have htrans : IsTrans Key fun i j => (files i).rank ≤ (files j).rank :=
    ⟨fun i j k hij hjk => hij.trans hjk⟩
  exact List.pairwise_insertionSort _ _

theorem mem_candidates {i : Key} : i ∈ candidates files order ↔
    i ∈ order ∧ (files i).useFd = false ∧ ¬Tied files order i := by
  rw [candidates, List.mem_insertionSort, List.mem_filter, decide_eq_true_eq]

/-- Those in memory of the set are the candidates. -/
theorem filter_cachedIts (files : Key → CachedFile) {order : List Key} (h : order.Nodup) :
    (cachedIts files order).filter (fun k => (files k).useFd = false) = candidates files order := by
  obtain ⟨hsorted, hmem, -⟩ := cachedIts_spec files h
  have hnodup : (cachedIts files order).Nodup := (cachedIts_nodup files h).1
  have hmem' : ∀ j, j ∈ (cachedIts files order).filter (fun k => (files k).useFd = false) ↔
      j ∈ candidates files order := fun j => by
    rw [List.mem_filter, decide_eq_true_eq, hmem, mem_candidates, and_assoc, and_comm (b := ¬_)]
  have hperm : ((cachedIts files order).filter fun k => (files k).useFd = false).Perm
      (candidates files order) :=
    (List.perm_ext_iff_of_nodup (hnodup.filter _)
      ((List.perm_insertionSort _ _).nodup_iff.mpr (h.filter _))).mpr hmem'
  have hsymm : Std.Symm fun i j : Key => (files i).rank ≠ (files j).rank := ⟨fun _ _ h => h.symm⟩
  have hne : (cachedIts files order).Pairwise fun i j => (files i).rank ≠ (files j).rank :=
    hsorted.imp fun hlt => hlt.ne
  refine hperm.eq_of_pairwise (fun i j hi hj hij hji => ?_) ((hsorted.imp le_of_lt).filter _)
    (pairwise_candidates files order)
  by_contra hij'
  have hi' := (List.mem_filter.mp hi).1
  have hj' := (List.mem_filter.mp ((hmem' j).mpr hj)).1
  exact hne.forall hi' hj' hij' (le_antisymm hij hji)

/-! ### What is removed -/

theorem victims_eq (maxCacheSize : ℕ) (files : Key → CachedFile) (its : List Key) (n : ℕ) :
    victims maxCacheSize files its n =
      evict (maxCacheSize < ·) (fun n k => wsub n (files k).len) n
        (its.filter fun k => (files k).useFd = false) := by
  induction its generalizing n with
  | nil => rfl
  | cons k its ih =>
    rw [victims]
    by_cases hfull : maxCacheSize < n
    · rw [if_pos hfull]
      by_cases hfd : (files k).useFd
      · rw [if_pos hfd, ih, List.filter_cons_of_neg (by simp [hfd])]
      · rw [if_neg hfd, ih, List.filter_cons_of_pos (by simp [hfd]), evict, if_pos hfull]
    · rw [if_neg hfull]
      cases its' : (k :: its).filter fun k => (files k).useFd = false with
      | nil => rfl
      | cons j its => rw [evict, if_neg hfull]

variable {maxCacheSize : ℕ} {s : State} {k : Key} {cf : CachedFile}

theorem keys_emplace (s : State) (k : Key) (cf : CachedFile) :
    (emplace s k cf).keys = insert k s.keys := by
  rw [emplace]
  split_ifs with hk
  · exact (Finset.insert_eq_self.mpr hk).symm
  · rfl

/-- **What is removed** to put a file into memory, and the total behind it. -/
theorem addCachedFile_eq (w : Walk s) (huse : cf.useFd = false) :
    removed maxCacheSize s w.order cf =
        (evict (maxCacheSize < ·) (fun n k => wsub n (s.files k).len) (wadd s.total cf.len)
          (candidates s.files w.order)).1 ∧
      (addCachedFile maxCacheSize s w.order k cf).2.total =
        (evict (maxCacheSize < ·) (fun n k => wsub n (s.files k).len) (wadd s.total cf.len)
          (candidates s.files w.order)).2 := by
  have hvictims := victims_eq maxCacheSize s.files (cachedIts s.files w.order) (wadd s.total cf.len)
  rw [filter_cachedIts s.files w.nodup] at hvictims
  rw [removed, evicted, addCachedFile, huse, if_neg Bool.false_ne_true, if_neg Bool.false_ne_true,
    ← hvictims]
  dsimp only
  split_ifs with hroom
  · -- there is room, and nothing would be taken out
    rw [hvictims]
    cases candidates s.files w.order with
    | nil => exact ⟨rfl, (emplace_files _ k cf).1⟩
    | cons j its =>
      rw [evict, if_neg (not_lt.mpr hroom.le)]
      exact ⟨rfl, (emplace_files _ k cf).1⟩
  · exact ⟨rfl, (emplace_files _ k cf).1⟩

theorem removed_subset (w : Walk s) : (removed maxCacheSize s w.order cf).Nodup ∧
    ∀ j ∈ removed maxCacheSize s w.order cf, j ∈ s.keys := by
  obtain ⟨hnodup, hmem⟩ := cachedIts_nodup s.files w.nodup
  rw [removed, evicted]
  split_ifs
  · exact ⟨List.nodup_nil, fun j hj => absurd hj List.not_mem_nil⟩
  · exact ⟨List.nodup_nil, fun j hj => absurd hj List.not_mem_nil⟩
  · have hsub := victims_sublist maxCacheSize s.files (cachedIts s.files w.order)
      (wadd s.total cf.len)
    refine ⟨hnodup.sublist hsub, fun j hj => ?_⟩
    rw [← w.all, List.mem_toFinset]
    exact hmem j (hsub.subset hj)

theorem keys_addCachedFile (maxCacheSize : ℕ) (w : Walk s) (k : Key) (cf : CachedFile) :
    (addCachedFile maxCacheSize s w.order k cf).2.keys =
      insert k (s.keys \ (removed maxCacheSize s w.order cf).toFinset) := by
  obtain ⟨hnodup, hmem⟩ := @removed_subset maxCacheSize s cf w
  rw [removed, evicted] at hnodup hmem ⊢
  rw [addCachedFile]
  dsimp only
  split_ifs at hnodup hmem ⊢
  · rw [keys_emplace, List.toFinset_nil, Finset.sdiff_empty]
  · rw [keys_emplace, List.toFinset_nil, Finset.sdiff_empty]
  · obtain ⟨-, hkeys, -⟩ := markAll_spec hnodup hmem
    rw [keys_emplace]
    congr 1
    ext j
    rw [hkeys, Finset.mem_sdiff, List.mem_toFinset]

/-- **When there is room afterwards, and the oldest files are gone.** -/
theorem evictsRight_iff (maxCacheSize : ℕ) (s : State) (w : Walk s) (k : Key) (cf : CachedFile) :
    EvictsRight maxCacheSize s w.order k cf ↔ Enough maxCacheSize s w.order cf := by
  have hmemkeys : ∀ j, j ∈ s.keys ↔ j ∈ w.order := fun j => by
    rw [← w.all, List.mem_toFinset]
  rw [Enough]
  cases huse : cf.useFd with
  | true =>
    have hremoved : removed maxCacheSize s w.order cf = [] := by
      rw [removed, if_pos huse]
    have htotal : (addCachedFile maxCacheSize s w.order k cf).2.total = s.total := by
      rw [addCachedFile, if_pos huse]
      exact (emplace_files s k cf).1
    rw [if_pos rfl]
    constructor
    · intro h
      have hbound := h.bound
      rw [htotal, hremoved] at hbound
      exact hbound.imp_right fun h j hj => by simpa using fun hfd => h j hj hfd
    · intro h
      refine ⟨keys_addCachedFile maxCacheSize w k cf, ?_, ?_, ?_⟩
      · rw [htotal]
        exact h.imp_right fun h j hj hfd => absurd (h j hj) (by simp [hfd])
      · rw [hremoved]
        exact .nil
      · rw [hremoved]
        exact fun i hi => absurd hi List.not_mem_nil
  | false =>
    obtain ⟨hremoved, htotal⟩ := @addCachedFile_eq maxCacheSize s k cf w huse
    have hage : (candidates s.files w.order).Pairwise fun i j =>
        (s.files i).lastAccessed ≤ (s.files j).lastAccessed :=
      (pairwise_candidates s.files w.order).imp fun hle => by
        rw [CachedFile.rank, CachedFile.rank, Prod.Lex.toLex_le_toLex] at hle
        exact hle.elim le_of_lt fun heq => heq.1.le
    -- in memory are the candidates and those that are tied
    have hmemory : ∀ j, (j ∈ candidates s.files w.order ∨
        (j ∈ s.keys ∧ (s.files j).useFd = false ∧ Tied s.files w.order j)) ↔
          j ∈ s.keys ∧ (s.files j).useFd = false := fun j => by
      rw [mem_candidates, hmemkeys]
      tauto
    have hiff := @oldest_first_iff _ _ _ (maxCacheSize < ·) _ (fun n j => wsub n (s.files j).len)
      (wadd s.total cf.len) _ _ _ hage
      (fun j => j ∈ s.keys ∧ (s.files j).useFd = false ∧ Tied s.files w.order j)
      fun j hj hmem => (mem_candidates.mp hmem).2.2 hj.2.2
    simp only [hmemory, not_lt, ← hremoved, ← @htotal, and_imp] at hiff
    rw [if_neg Bool.false_ne_true, ← hiff]
    constructor
    · exact fun h => ⟨h.bound, h.oldest⟩
    · rintro ⟨hbound, holdest⟩
      refine ⟨keys_addCachedFile maxCacheSize w k cf, hbound, ?_, holdest⟩
      rw [hremoved]
      exact hage.sublist (prefix_evict _ _).sublist

/-- The total is what the cache holds, when it was before and the file is put in. -/
theorem total_eq_inMemory (w : Walk s) (hsized : s.Sized) (h : s.Right) (huse : cf.useFd = false)
    (hlen : cf.len < 2 ^ 63) (hnew : ¬Occupied maxCacheSize s w.order k cf.len) :
    (addCachedFile maxCacheSize s w.order k cf).2.Right := by
  obtain ⟨m, s', rfl, -, htotal, -, -, hsum⟩ :=
    total_addCachedFile maxCacheSize k cf hsized h w.nodup w.all huse hlen
  rw [State.Right, htotal, (hsum hnew).1]

/-- Two files of five bytes that were accessed at the same time. -/
def twins : State where
  keys := {ascii "/a", ascii "/b"}
  files := fun _ => { node := 0, len := 5, lastAccessed := 1 }
  total := 10

def walkTwins : Walk twins := ⟨[ascii "/a", ascii "/b"], by decide, by decide⟩

/-- One of them stays, and there is no room for a file of eight bytes. -/
theorem not_evictsRight :
    ¬EvictsRight 10 twins walkTwins.order (ascii "/c") { node := 0, len := 8 } := by
  intro h
  rcases h.bound with hbound | hnone
  · exact absurd hbound (by decide)
  · exact absurd (hnone (ascii "/b") (by decide) rfl) (by decide)

end Suil.FileServer
