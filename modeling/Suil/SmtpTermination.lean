/-
The end of an SMTP message.

`isTermination` looks for CRLF.CRLF in a window of the last bytes received.
The window outlives a message and grows only with the largest chunk, not with
the bytes received, so whether it sees the end depends on the chunks and on
what it held before.

* `window_full_iff`, `window_isSuffix` — the window after a list of chunks;
* `feed_state_iff` — the session waits for data until the window is the
  terminator;
* `leavesOnEnd_iff` — for which windows and chunks the session leaves the data
  state exactly on the chunk that completes the first CRLF.CRLF.
-/
import Suil.SmtpContext

namespace Suil

namespace Smtp

/-- The window after a list of chunks. -/
def windowAfter (w : Window) (chunks : List Bytes) : Window := chunks.foldl Window.push w

/-- The session after a list of chunks. -/
def feed (s : Session) (chunks : List Bytes) : Session :=
  chunks.foldl (fun s data => (onData s data).2) s

theorem windowAfter_concat (w : Window) (chunks : List Bytes) (c : Bytes) :
    windowAfter w (chunks ++ [c]) = (windowAfter w chunks).push c := by
  simp [windowAfter]

theorem feed_concat (s : Session) (chunks : List Bytes) (c : Bytes) :
    feed s (chunks ++ [c]) = (onData (feed s chunks) c).2 := by
  simp [feed]

theorem window_isSuffix (w : Window) (chunks : List Bytes) :
    (windowAfter w chunks).1 <:+ w.1 ++ chunks.flatten := by
  induction chunks using List.reverseRecOn with
  | nil => simp [windowAfter]
  | append_singleton chunks c ih =>
    rw [windowAfter_concat]
    refine (Window.push_eq _ c).2.trans ?_
    obtain ⟨l, hl⟩ := ih
    refine ⟨l, ?_⟩
    rw [← List.append_assoc, hl]
    simp

/-- The window is full as soon as it was full before or one chunk fills it. -/
theorem window_full_iff (w : Window) (chunks : List Bytes) :
    (windowAfter w chunks).1.length = 5 ↔ w.1.length = 5 ∨ ∃ c ∈ chunks, 5 ≤ c.length := by
  induction chunks using List.reverseRecOn with
  | nil => simp [windowAfter]
  | append_singleton chunks c ih =>
    have hle := (windowAfter w chunks).2
    have hstep : ((windowAfter w chunks).push c).1.length = 5 ↔
        (windowAfter w chunks).1.length = 5 ∨ 5 ≤ c.length := by
      rw [(Window.push_eq _ c).1]
      omega
    rw [windowAfter_concat, hstep, ih, or_assoc]
    simp only [List.mem_append, List.mem_singleton, or_and_right, exists_or, exists_eq_left]

/-- When the window is the terminator. -/
theorem window_eq_terminator_iff (w : Window) (chunks : List Bytes) :
    (windowAfter w chunks).1 = terminator ↔
      (w.1.length = 5 ∨ ∃ c ∈ chunks, 5 ≤ c.length) ∧ terminator <:+ w.1 ++ chunks.flatten := by
  rw [← window_full_iff]
  constructor
  · intro h
    refine ⟨by rw [h]; rfl, ?_⟩
    rw [← h]
    exact window_isSuffix w chunks
  · rintro ⟨hlen, hsuf⟩
    have h := List.suffix_of_suffix_length_le (window_isSuffix w chunks) hsuf (by rw [hlen]; rfl)
    exact h.eq_of_length (by rw [hlen]; rfl)

/-- One chunk in the data state. -/
theorem onData_state {s : Session} (hs : s.state = .ExpectData) (data : Bytes) :
    ((onData s data).2.state = .ExpectData ↔ (s.term.push data).1 ≠ terminator) ∧
      (onData s data).2.term = s.term.push data := by
  have hdone : (isTermination s data).1 = decide ((s.term.push data).1 = terminator) := by
    simp only [isTermination]
    split_ifs with hlen
    · refine (decide_eq_false fun h => ?_).symm
      rw [h] at hlen
      exact absurd hlen (by decide)
    · rfl
  rw [onData, if_neg (by simp [hs])]
  simp only [hdone]
  split_ifs with h
  · exact ⟨by simpa using h, rfl⟩
  · refine ⟨iff_of_true hs (by simpa using h), rfl⟩

/-- Another state is kept. -/
theorem onData_other {s : Session} (hs : s.state ≠ .ExpectData) (data : Bytes) :
    (onData s data).2 = s := by
  rw [onData, if_pos hs]

/-- **How long the session waits for data**: until the window is the
terminator. -/
theorem feed_state_iff {s : Session} (hs : s.state = .ExpectData) (chunks : List Bytes) :
    ((feed s chunks).state = .ExpectData ↔
      ∀ i, 0 < i → i ≤ chunks.length → (windowAfter s.term (chunks.take i)).1 ≠ terminator) ∧
    ((feed s chunks).state = .ExpectData → (feed s chunks).term = windowAfter s.term chunks) := by
  induction chunks using List.reverseRecOn with
  | nil => exact ⟨iff_of_true hs fun i h₁ h₂ => absurd h₂ (by simp; omega), fun _ => rfl⟩
  | append_singleton chunks c ih =>
    obtain ⟨hstate, hterm⟩ := ih
    have hsplit : (∀ i, 0 < i → i ≤ (chunks ++ [c]).length →
          (windowAfter s.term ((chunks ++ [c]).take i)).1 ≠ terminator) ↔
        (∀ i, 0 < i → i ≤ chunks.length → (windowAfter s.term (chunks.take i)).1 ≠ terminator) ∧
          (windowAfter s.term (chunks ++ [c])).1 ≠ terminator := by
      constructor
      · intro h
        refine ⟨fun i h₁ h₂ => ?_, ?_⟩
        · have := h i h₁ (by simp; omega)
          rwa [List.take_append_of_le_length h₂] at this
        · have := h (chunks.length + 1) (Nat.succ_pos _) (by simp)
          rwa [List.take_of_length_le (by simp)] at this
      · rintro ⟨h, hlast⟩ i h₁ h₂
        by_cases hi : i ≤ chunks.length
        · rw [List.take_append_of_le_length hi]
          exact h i h₁ hi
        · rw [List.take_of_length_le (by simp at h₂ ⊢; omega)]
          exact hlast
    rw [feed_concat, hsplit, ← hstate]
    by_cases hst : (feed s chunks).state = .ExpectData
    · obtain ⟨h₁, h₂⟩ := onData_state hst c
      rw [hterm hst, ← windowAfter_concat] at h₁ h₂
      exact ⟨by rw [h₁]; simp [hst], fun _ => h₂⟩
    · rw [onData_other hst]
      exact ⟨by simp [hst], fun h => absurd h hst⟩

/-- Chunk `k` is the one with which the first CRLF.CRLF is complete. -/
def FirstEnd (chunks : List Bytes) (k : ℕ) : Prop :=
  terminator <:+: (chunks.take k).flatten ∧ ∀ i < k, ¬terminator <:+: (chunks.take i).flatten

/-- A stream that ends with the terminator has such a chunk. -/
theorem exists_firstEnd {chunks : List Bytes} (h : terminator <:+ chunks.flatten) :
    ∃ k ≤ chunks.length, FirstEnd chunks k := by
  classical
  have hex : ∃ k, terminator <:+: (chunks.take k).flatten :=
    ⟨chunks.length, by rw [List.take_length]; exact h.isInfix⟩
  refine ⟨Nat.find hex, ?_, Nat.find_spec hex, fun i hi => Nat.find_min hex hi⟩
  exact Nat.find_min' hex (by rw [List.take_length]; exact h.isInfix)

/-- The session leaves the data state on that chunk and not before. -/
def LeavesOnEnd (s : Session) (chunks : List Bytes) : Prop :=
  ∀ k, FirstEnd chunks k → (∀ i < k, (feed s (chunks.take i)).state = .ExpectData) ∧
    (feed s (chunks.take k)).state ≠ .ExpectData

/-- What the window and the chunks have to be like: the terminator ends its
chunk, the window is full by then, and no first bytes of the stream complete a
terminator that the window had begun. -/
def EndVisible (w : Window) (chunks : List Bytes) : Prop :=
  ∀ k, FirstEnd chunks k →
    terminator <:+ (chunks.take k).flatten ∧
    (w.1.length = 5 ∨ ∃ c ∈ chunks.take k, 5 ≤ c.length) ∧
    ∀ i, 0 < i → i < k → w.1.length = 5 → ((chunks.take i).flatten).length < 5 →
      ¬terminator <:+ w.1 ++ (chunks.take i).flatten

/-- A terminator within a stream of which it is not a piece reaches back into
the window. -/
theorem short_of_suffix {w : Bytes} {l : Bytes} (h : terminator <:+ w ++ l)
    (hno : ¬terminator <:+: l) : l.length < 5 := by
  by_contra hlen
  refine hno (List.suffix_of_suffix_length_le h (List.suffix_append w l) ?_).isInfix
  show 5 ≤ l.length
  omega

/-- **When the end of a message is seen**, whatever the window held before. -/
theorem leavesOnEnd_iff {s : Session} (hs : s.state = .ExpectData) (chunks : List Bytes) :
    LeavesOnEnd s chunks ↔ EndVisible s.term chunks := by
  refine forall_congr' fun k => imp_congr_right fun hk => ?_
  have hkle : k ≤ chunks.length := by
    by_contra hgt
    refine hk.2 chunks.length (by omega) ?_
    have := hk.1
    rwa [List.take_of_length_le (by omega)] at this ⊢
  have hkpos : 0 < k := by
    rw [Nat.pos_iff_ne_zero]
    rintro rfl
    have := hk.1.length_le
    simp [terminator] at this
  have hstate : ∀ i ≤ chunks.length, ((feed s (chunks.take i)).state = .ExpectData ↔
      ∀ j, 0 < j → j ≤ i → (windowAfter s.term (chunks.take j)).1 ≠ terminator) := by
    intro i hi
    rw [(feed_state_iff hs _).1, List.length_take, Nat.min_eq_left hi]
    refine forall_congr' fun j => imp_congr_right fun _ => imp_congr_right fun hj => ?_
    rw [List.take_take, Nat.min_eq_left hj]
  -- Before chunk `k` only a terminator begun in the window can be complete.
  have hbefore : ∀ j < k, ((windowAfter s.term (chunks.take j)).1 ≠ terminator ↔
      (s.term.1.length = 5 → ((chunks.take j).flatten).length < 5 →
        ¬terminator <:+ s.term.1 ++ (chunks.take j).flatten)) := by
    intro j hj
    rw [ne_eq, window_eq_terminator_iff]
    constructor
    · intro h hfull _ hsuf
      exact h ⟨.inl hfull, hsuf⟩
    · rintro h ⟨hfull, hsuf⟩
      have hshort := short_of_suffix hsuf (hk.2 j hj)
      rcases hfull with hfull | ⟨c, hc, hlen⟩
      · exact h hfull hshort hsuf
      · have := (List.sublist_flatten_of_mem hc).length_le
        omega
  -- At chunk `k` the terminator is in the stream.
  have hat : (windowAfter s.term (chunks.take k)).1 = terminator ↔
      terminator <:+ (chunks.take k).flatten ∧
        (s.term.1.length = 5 ∨ ∃ c ∈ chunks.take k, 5 ≤ c.length) := by
    rw [window_eq_terminator_iff, and_comm]
    refine and_congr_left fun _ => ⟨fun hsuf => ?_, fun hsuf => hsuf.trans (List.suffix_append _ _)⟩
    exact List.suffix_of_suffix_length_le hsuf (List.suffix_append _ _) hk.1.length_le
  constructor
  · rintro ⟨hstay, hleave⟩
    have hnot : ∀ j, 0 < j → j < k → (windowAfter s.term (chunks.take j)).1 ≠ terminator :=
      fun j hj hjk => (hstate j (by omega)).mp (hstay j hjk) j hj le_rfl
    have hdone : (windowAfter s.term (chunks.take k)).1 = terminator := by
      by_contra hne
      refine hleave ((hstate k hkle).mpr fun j hj hjk => ?_)
      rcases Nat.lt_or_eq_of_le hjk with hlt | rfl
      · exact hnot j hj hlt
      · exact hne
    exact ⟨(hat.mp hdone).1, (hat.mp hdone).2, fun j hj hjk => (hbefore j hjk).mp (hnot j hj hjk)⟩
  · rintro ⟨hend, hfull, hquiet⟩
    refine ⟨fun i hi => (hstate i (by omega)).mpr fun j hj hji => ?_, fun hstay => ?_⟩
    · exact (hbefore j (by omega)).mpr (hquiet j hj (by omega))
    · exact (hstate k hkle).mp hstay k hkpos le_rfl (hat.mpr ⟨hend, hfull⟩)

/-- A session that waits for the data of a message, its first one. -/
def waiting : Session := { state := .ExpectData }

theorem leavesOnEnd_iff_waiting :
    LeavesOnEnd waiting [terminator] ↔ EndVisible waiting.term [terminator] :=
  leavesOnEnd_iff rfl _

/-- The terminator arrives in two chunks of which neither fills the window. -/
theorem not_leavesOnEnd : waiting.state = .ExpectData ∧
    terminator <:+ [[13, 10, 46], [13, 10]].flatten ∧
    ¬LeavesOnEnd waiting [[13, 10, 46], [13, 10]] := by
  refine ⟨rfl, List.suffix_rfl, fun h => ?_⟩
  have hfirst : FirstEnd [[13, 10, 46], [13, 10]] 2 := by
    refine ⟨List.infix_rfl, fun i hi hin => ?_⟩
    have hlen := hin.length_le
    interval_cases i <;> simp [terminator] at hlen
  exact (h 2 hfirst).2 (by decide)

end Smtp

end Suil
