/-
Responses offloaded to memory (`suil::http::cli::MemoryOffload`).

The writer is called with no data and the content length, with each part of the body,
and with nothing at the end.  Memory is allocated for the length, when it is not zero; from
the threshold on it is mapped, from the descriptor −1 and without `MAP_ANONYMOUS`, which is
refused.  The offset at which parts are stored is never taken back.

* `storeAll_done` — the parts that were stored, behind the offset;
* `right_iff` — the responses that are offloaded right, by the state they find;
* `offloads_iff` — the sequences of responses.
-/
import Suil.Core
import Suil.Lib.Runs

namespace Suil

namespace MemoryOffload

/-- What `_data` points to; a mapping that failed leaves `MAP_FAILED`. -/
inductive Memory where
  | null
  | failed
  | block (bytes : Bytes)
deriving DecidableEq, Repr

/-- `MemoryOffload` -/
structure Offload where
  offset : ℕ := 0
  data : Memory := .null
  mappedMin : ℕ := 65 * 1024
  isMapped : Bool := false
deriving DecidableEq, Repr

/-- The system during a response: the page size, and what fresh memory holds, if there is any. -/
structure System where
  pageSize : ℕ
  malloc : ℕ → Option Bytes
  map : ℕ → Option Bytes
  malloc_length : ∀ n b, malloc n = some b → b.length = n

/-- How a call ends. -/
inductive Outcome where
  | done
  | thrown
  | crash
deriving DecidableEq, Repr

/-- `mmap(nullptr, total, …)`: a mapping that is not anonymous needs a descriptor. -/
def mmap (sys : System) (total : ℕ) (anonymous : Bool) (fd : ℤ) : Option Bytes :=
  if anonymous ∨ 0 ≤ fd then sys.map total else none

/-- `mapRegion(len)` -/
def mapRegion (sys : System) (o : Offload) (len : ℕ) : Outcome × Offload :=
  let total := len + (sys.pageSize - len % sys.pageSize)
  match mmap sys total false (-1) with
  | none => (.thrown, { o with data := .failed })
  | some bytes => (.done, { o with data := .block bytes, mappedMin := total, isMapped := true })

/-- `memcpy(&_data[_offset], at, len)` and the step of the offset. -/
def store (o : Offload) (part : Bytes) : Outcome × Offload :=
  match o.data with
  | .block bytes =>
    if o.offset + part.length ≤ bytes.length then
      (.done, { o with
        data := .block (bytes.take o.offset ++ part ++ bytes.drop (o.offset + part.length))
        offset := o.offset + part.length })
    else (.crash, o)
  | _ => (.crash, o)

/-- `_handler(at, len)`; a part is given by its bytes. -/
def handler (sys : System) (o : Offload) (part : Option Bytes) (len : ℕ) : Outcome × Offload :=
  match part with
  | none =>
    if 0 < len then
      if o.mappedMin ≤ len then mapRegion sys o len
      else
        -- the exception for memory that there is not is made, but not thrown
        match sys.malloc len with
        | none => (.done, { o with data := .null })
        | some bytes => (.done, { o with data := .block bytes })
    else (.done, o)
  | some part => store o part

/-- A response: its Content-Length, if it has one, and the parts in which its body comes. -/
structure Response where
  length : Option ℕ
  parts : List Bytes
  part_ne : ∀ p ∈ parts, p ≠ []
  whole : ∀ n, length = some n → parts.flatten.length = n

/-- The calls of `onBodyPart`. -/
def storeAll (sys : System) : List Bytes → Offload → Outcome × Offload
  | [], o => (.done, o)
  | part :: parts, o =>
    match handler sys o (some part) part.length with
    | (.done, o) => storeAll sys parts o
    | r => r

/-- A response through the writer: `onHeadersComplete`, `onBodyPart` for each part, and
`onMessageComplete`. -/
def receive (sys : System) (o : Offload) (r : Response) : Outcome × Offload :=
  match handler sys o none (r.length.getD 0) with
  | (.done, o) =>
    match storeAll sys r.parts o with
    | (.done, o) => handler sys o none 0
    | e => e
  | e => e

/-- The offloaded data (`data()`), as long as it is in memory. -/
def Offload.stored (o : Offload) : Option Bytes :=
  match o.data with
  | .block bytes => if o.offset ≤ bytes.length then some (bytes.take o.offset) else none
  | _ => if o.offset = 0 then some [] else none

/-- A response and the system it finds. -/
structure Input where
  sys : System
  response : Response

def step (o : Offload) (i : Input) : Option (Outcome × Offload) :=
  some (receive i.sys o i.response)

/-- Every part is stored in the memory allocated, and what is offloaded then is the body. -/
def Right (m : Runs.Move Offload Input Outcome) : Prop :=
  m.output = .done ∧ m.after.stored = some m.input.response.parts.flatten

/-- Nothing is offloaded yet, and the body is empty or has a Content-Length below the
threshold, and there is memory for it. -/
def Fine (o : Offload) (i : Input) : Prop :=
  o.offset = 0 ∧ (i.response.parts = [] ∨
    ∃ n, i.response.length = some n ∧ n < o.mappedMin ∧ (i.sys.malloc n).isSome)

/-! ### Storing -/

variable {sys : System} {o o' : Offload} {parts : List Bytes}

theorem store_block {bytes part : Bytes} (h : o.data = .block bytes)
    (hfits : o.offset + part.length ≤ bytes.length) :
    store o part = (.done, { o with
      data := .block (bytes.take o.offset ++ part ++ bytes.drop (o.offset + part.length))
      offset := o.offset + part.length }) := by
  rw [store, h]
  exact if_pos hfits

/-- What a part that was stored says of the memory. -/
theorem store_done {part : Bytes} (h : store o part = (.done, o')) :
    ∃ bytes, o.data = .block bytes ∧ o.offset + part.length ≤ bytes.length ∧
      o'.offset = o.offset + part.length := by
  rw [store] at h
  cases hdata : o.data with
  | null =>
    rw [hdata] at h
    cases h
  | failed =>
    rw [hdata] at h
    cases h
  | block bytes =>
    rw [hdata] at h
    by_cases hfits : o.offset + part.length ≤ bytes.length
    · simp only [hfits, if_true] at h
      refine ⟨bytes, rfl, hfits, ?_⟩
      rw [← (Prod.mk.inj h).2]
    · simp only [hfits, if_false] at h
      cases h

/-- **Parts that fit** are stored one behind the other. -/
theorem storeAll_fits {bytes : Bytes} (hdata : o.data = .block bytes)
    (hfits : o.offset + parts.flatten.length ≤ bytes.length) :
    ∃ o', storeAll sys parts o = (.done, o') ∧ o'.offset = o.offset + parts.flatten.length ∧
      ∃ bytes', o'.data = .block bytes' ∧ bytes'.length = bytes.length ∧
        bytes'.take o'.offset = bytes.take o.offset ++ parts.flatten := by
  induction parts generalizing o bytes with
  | nil => exact ⟨o, rfl, rfl, bytes, hdata, rfl, by rw [List.flatten_nil, List.append_nil]⟩
  | cons part parts ih =>
    rw [List.flatten_cons, List.length_append] at hfits
    rw [storeAll, handler, store_block hdata (by omega)]
    -- the block behind the first part, for the induction hypothesis
    set bytes₁ := bytes.take o.offset ++ part ++ bytes.drop (o.offset + part.length) with hbytes
    have hlen : bytes₁.length = bytes.length := by
      rw [hbytes]
      simp only [List.length_append, List.length_take, List.length_drop]
      omega
    have htake : bytes₁.take (o.offset + part.length) = bytes.take o.offset ++ part := by
      have hfront : (bytes.take o.offset ++ part).length = o.offset + part.length := by
        simp only [List.length_append, List.length_take]
        omega
      rw [hbytes, ← hfront, List.take_left]
    obtain ⟨o', hstore, hoffset, bytes', hdata', hlen', htake'⟩ :=
      ih (o := { o with data := .block bytes₁, offset := o.offset + part.length }) rfl
        (by rw [hlen]; simp only; omega)
    refine ⟨o', hstore, ?_, bytes', hdata', by rw [hlen', hlen], ?_⟩
    · rw [hoffset, List.flatten_cons, List.length_append]
      simp only
      omega
    · rw [htake', List.flatten_cons]
      simp only
      rw [htake, List.append_assoc]

/-- Parts that were stored moved the offset by their length, and needed a block. -/
theorem storeAll_done (h : storeAll sys parts o = (.done, o')) :
    o'.offset = o.offset + parts.flatten.length ∧
      (parts ≠ [] → ∃ bytes, o.data = .block bytes) := by
  induction parts generalizing o with
  | nil =>
    rw [← (Prod.mk.inj h).2]
    exact ⟨rfl, fun hne => absurd rfl hne⟩
  | cons part parts ih =>
    rw [storeAll, handler] at h
    rcases hstore : store o part with ⟨_ | _ | _, o₁⟩
    · rw [hstore] at h
      obtain ⟨bytes, hdata, -, hoffset⟩ := store_done hstore
      refine ⟨?_, fun _ => ⟨bytes, hdata⟩⟩
      rw [(ih h).1, hoffset, List.flatten_cons, List.length_append, Nat.add_assoc]
    · rw [hstore] at h
      cases h
    · rw [hstore] at h
      cases h

/-- The data are as long as the offset says. -/
theorem length_stored {s : Bytes} (h : o.stored = some s) : s.length = o.offset := by
  rw [Offload.stored] at h
  have hnone : ∀ s : Bytes, (if o.offset = 0 then some [] else none) = some s →
      s.length = o.offset := by
    intro s h
    split_ifs at h with hzero
    rw [← Option.some.inj h, hzero]
    rfl
  cases hdata : o.data with
  | null =>
    rw [hdata] at h
    exact hnone s h
  | failed =>
    rw [hdata] at h
    exact hnone s h
  | block bytes =>
    rw [hdata] at h
    by_cases hle : o.offset ≤ bytes.length
    · simp only [hle, if_true, Option.some.injEq] at h
      rw [← h, List.length_take]
      omega
    · simp only [hle, if_false] at h
      cases h

/-! ### A response -/

/-- Before anything was stored there is no block. -/
def Fresh (o : Offload) : Prop := o.offset = 0 → o.data = .null

/-- The call at the end of the headers, when there is a length. -/
theorem handler_headers (sys : System) {n : ℕ} (hn : 0 < n) (o : Offload) :
    handler sys o none n =
      if o.mappedMin ≤ n then (.thrown, { o with data := .failed })
      else (.done, { o with data := ((sys.malloc n).map Memory.block).getD .null }) := by
  have hmmap : ∀ total, mmap sys total false (-1) = none := fun total => rfl
  rw [handler]
  simp only [hn, if_true]
  by_cases hmin : o.mappedMin ≤ n
  · rw [if_pos hmin, if_pos hmin, mapRegion]
    simp only [hmmap]
  · rw [if_neg hmin, if_neg hmin]
    cases sys.malloc n <;> rfl

theorem handler_end (sys : System) (o : Offload) : handler sys o none 0 = (.done, o) := rfl

/-- A response that was received stored its body behind the offset. -/
theorem receive_done {r : Response} (h : receive sys o r = (.done, o')) :
    ∃ o₁, handler sys o none (r.length.getD 0) = (.done, o₁) ∧
      storeAll sys r.parts o₁ = (.done, o') := by
  rw [receive] at h
  rcases hhead : handler sys o none (r.length.getD 0) with ⟨_ | _ | _, o₁⟩
  · rw [hhead] at h
    rcases hbody : storeAll sys r.parts o₁ with ⟨_ | _ | _, o₂⟩
    · simp only [hbody] at h
      rw [handler_end] at h
      rw [(Prod.mk.inj h).2] at hbody
      exact ⟨o₁, rfl, hbody⟩
    · simp only [hbody] at h
      cases h
    · simp only [hbody] at h
      cases h
  · rw [hhead] at h
    cases h
  · rw [hhead] at h
    cases h

theorem receive_of {r : Response} {o₁ : Offload}
    (hhead : handler sys o none (r.length.getD 0) = (.done, o₁))
    (hbody : storeAll sys r.parts o₁ = (.done, o')) : receive sys o r = (.done, o') := by
  rw [receive, hhead]
  simp only [hbody]
  exact handler_end sys o'

/-- The offset is the same after the headers. -/
theorem offset_headers {n : ℕ} {o₁ : Offload} (h : handler sys o none n = (.done, o₁)) :
    o₁.offset = o.offset := by
  rcases Nat.eq_zero_or_pos n with rfl | hn
  · rw [handler_end] at h
    rw [← (Prod.mk.inj h).2]
  · rw [handler_headers sys hn] at h
    split_ifs at h
    · cases h
    · rw [← (Prod.mk.inj h).2]

theorem flatten_pos {r : Response} (h : r.parts ≠ []) : 0 < r.parts.flatten.length := by
  obtain ⟨p, ps, hp⟩ := List.exists_cons_of_ne_nil h
  have hne := r.part_ne p (by rw [hp]; exact List.mem_cons_self)
  have hpos := List.length_pos_of_ne_nil hne
  rw [hp, List.flatten_cons, List.length_append]
  omega

/-- A response without a body leaves everything as it was. -/
theorem receive_empty {r : Response} (h : r.parts = []) : receive sys o r = (.done, o) := by
  have hlen : r.length.getD 0 = 0 := by
    cases hl : r.length with
    | none => rfl
    | some n =>
      have hn := r.whole n hl
      rw [h] at hn
      exact hn.symm
  refine receive_of (by rw [hlen, handler_end]) ?_
  rw [h, storeAll]

/-- A body of a known length below the threshold. -/
theorem receive_fits {r : Response} {n : ℕ} (hl : r.length = some n) (hne : r.parts ≠ [])
    (hzero : o.offset = 0) (hmin : n < o.mappedMin) (hm : (sys.malloc n).isSome) :
    ∃ o', receive sys o r = (.done, o') ∧ o'.stored = some r.parts.flatten ∧ 0 < o'.offset := by
  obtain ⟨bytes, hbytes⟩ := Option.isSome_iff_exists.mp hm
  have hlen := sys.malloc_length n bytes hbytes
  have hn := r.whole n hl
  have hpos := flatten_pos hne
  have hhead : handler sys o none (r.length.getD 0) =
      (.done, { o with data := .block bytes }) := by
    rw [hl, Option.getD_some, handler_headers sys (by omega), if_neg (by omega), hbytes]
    rfl
  obtain ⟨o', hbody, hoffset, bytes', hdata, hlen', htake⟩ :=
    @storeAll_fits sys { o with data := .block bytes } r.parts bytes rfl
      (by simp only [hzero]; omega)
  simp only [hzero, Nat.zero_add, List.take_zero, List.nil_append] at hoffset htake
  refine ⟨o', receive_of hhead hbody, ?_, by omega⟩
  have hle : o'.offset ≤ bytes'.length := by omega
  rw [Offload.stored, hdata]
  simp only [hle, if_true, htake]

/-- A body that was stored, and is what is offloaded then, came first and with its length. -/
theorem fine_of_stored {r : Response} (hfresh : Fresh o) (hreceive : receive sys o r = (.done, o'))
    (hparts : r.parts ≠ []) (hstored : o'.stored = some r.parts.flatten) :
    o.offset = 0 ∧ ∃ n, r.length = some n ∧ n < o.mappedMin ∧ (sys.malloc n).isSome := by
  have hpos := flatten_pos hparts
  obtain ⟨o₁, hhead, hbody⟩ := receive_done hreceive
  obtain ⟨hoffset, hblock⟩ := storeAll_done hbody
  -- the offset counts what was stored before, too
  have hlen := length_stored hstored
  have hzero : o.offset = 0 := by
    rw [hoffset, offset_headers hhead] at hlen
    omega
  -- the block is the one of this response
  obtain ⟨bytes, hdata⟩ := hblock hparts
  refine ⟨hzero, ?_⟩
  cases hl : r.length with
  | none =>
    rw [hl] at hhead
    rw [← (Prod.mk.inj hhead).2, hfresh hzero] at hdata
    cases hdata
  | some n =>
    have hn := r.whole n hl
    rw [hl] at hhead
    simp only [Option.getD_some] at hhead
    rw [handler_headers sys (by omega)] at hhead
    by_cases hmin : o.mappedMin ≤ n
    · rw [if_pos hmin] at hhead
      cases hhead
    · rw [if_neg hmin] at hhead
      refine ⟨n, rfl, by omega, ?_⟩
      rw [← (Prod.mk.inj hhead).2] at hdata
      cases hm : sys.malloc n with
      | none =>
        rw [hm] at hdata
        cases hdata
      | some b => rfl

/-- **A response is offloaded right** when nothing was before it and its body is empty or of a
known length below the threshold. -/
theorem right_iff {i : Input} {outcome : Outcome} (hfresh : Fresh o)
    (hstep : step o i = some (outcome, o')) :
    (Right ⟨o, i, outcome, o'⟩ ↔ Fine o i) ∧ (Fine o i → Fresh o') := by
  have hreceive : receive i.sys o i.response = (outcome, o') := Option.some.inj hstep
  by_cases hparts : i.response.parts = []
  · rw [receive_empty hparts] at hreceive
    obtain ⟨rfl, rfl⟩ := Prod.mk.inj hreceive
    refine ⟨⟨fun h => ⟨?_, .inl hparts⟩, fun h => ⟨rfl, ?_⟩⟩, fun _ => hfresh⟩
    · have hlen := length_stored h.2
      simp only [hparts, List.flatten_nil, List.length_nil] at hlen
      exact hlen.symm
    · simp only [hparts, List.flatten_nil, Offload.stored, hfresh h.1, h.1, if_true]
  constructor
  · constructor
    · rintro ⟨hdone, hstored⟩
      simp only at hdone hstored
      subst hdone
      obtain ⟨hzero, hknown⟩ := fine_of_stored hfresh hreceive hparts hstored
      exact ⟨hzero, .inr hknown⟩
    · rintro ⟨hzero, hnil | ⟨n, hl, hmin, hm⟩⟩
      · exact absurd hnil hparts
      · obtain ⟨o₂, hreceive₂, hstored, -⟩ := receive_fits hl hparts hzero hmin hm
        rw [hreceive] at hreceive₂
        obtain ⟨rfl, rfl⟩ := Prod.mk.inj hreceive₂
        exact ⟨rfl, hstored⟩
  · rintro ⟨hzero, hnil | ⟨n, hl, hmin, hm⟩⟩
    · exact absurd hnil hparts
    · -- behind a body the offset is positive
      obtain ⟨o₂, hreceive₂, -, hoffset⟩ := receive_fits hl hparts hzero hmin hm
      rw [hreceive] at hreceive₂
      obtain ⟨-, rfl⟩ := Prod.mk.inj hreceive₂
      exact fun h => absurd h (by omega)

/-- **The sequences of responses that are offloaded right.** -/
theorem offloads_iff (mappedMin : ℕ) (is : List Input) :
    (∀ m ∈ Runs.moves step { mappedMin := mappedMin } is, Right m) ↔
      ∀ m ∈ Runs.moves step { mappedMin := mappedMin } is, Fine m.before m.input :=
  (Runs.run_final step _ is).moves_iff (R := Right) (K := Fresh) (G := Fine) (fun _ => rfl)
    fun _ _ _ _ hfresh hstep => right_iff hfresh hstep

/-- A system with memory full of zeros. -/
def zeros : System where
  pageSize := 4096
  malloc := fun n => some (List.replicate n 0)
  map := fun n => some (List.replicate n 0)
  malloc_length := by
    intro n b h
    rw [← Option.some.inj h, List.length_replicate]

/-- "hi", with its length. -/
def greeting : Response where
  length := some 2
  parts := [[104, 105]]
  part_ne := by decide
  whole := by
    intro n h
    exact Option.some.inj h

/-- "hi", in chunks. -/
def chunked : Response where
  length := none
  parts := [[104, 105]]
  part_ne := by decide
  whole := by
    intro n h
    cases h

/-- A chunked body is written to a null pointer; the second of two responses does not fit. -/
theorem not_offloads :
    (receive zeros {} chunked).1 = .crash ∧
      (receive zeros (receive zeros {} greeting).2 greeting).1 = .crash ∧
      ¬∀ mappedMin is, ∀ m ∈ Runs.moves step { mappedMin := mappedMin } is, Right m := by
  refine ⟨rfl, rfl, fun h => ?_⟩
  have hright := h (65 * 1024) [⟨zeros, chunked⟩]
    ⟨{}, ⟨zeros, chunked⟩, .crash, {}⟩ (.head _)
  exact absurd hright.1 (by decide)

end MemoryOffload

end Suil
