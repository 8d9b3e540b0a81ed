/-
Tries with links of several characters.

A link of a trie stands for one parameter or for a fragment of several literal
characters.  The links of a trie lead from node to node along steps.

* `Leads` — a node leads to another one along a list of steps; `IndexAt` — the
  index at the end of such a list;
* `Shaped` — the fragments of a node are distinct, of one length and compared
  exactly: at most one of them is a prefix of a URL;
* `leads_iff_walk` — where the fragments are single characters, `Leads` is the
  `walk` of the trie.
-/
import Suil.TrieSearch
import Suil.TrieLookup

open Backtrack

namespace Suil

namespace RoutesTrie

/-- The steps along a link. -/
def Edge.tokens : Edge → List Token
  | .param k _ => [.param k]
  | .text f _ => f.map .lit

/-- Node `i` leads to node `j` along the steps. -/
inductive Leads (t : RoutesTrie) : ℕ → List Token → ℕ → Prop where
  | here (i : ℕ) : Leads t i [] i
  | edge {i j : ℕ} {e : Edge} {q : List Token} (he : e ∈ (t.node i).edges)
      (h : Leads t e.child q j) : Leads t i (e.tokens ++ q) j

/-- The head leads along the steps to a node with the index `a`. -/
def IndexAt (t : RoutesTrie) (q : List Token) (a : ℕ) : Prop :=
  ∃ j, t.Leads 0 q j ∧ (t.node j).index = a

/-- The fragments of a node are distinct and of one length. -/
structure Branching (t : RoutesTrie) : Prop where
  keys : ∀ i, ((t.node i).children.map Prod.fst).Nodup
  nonempty : ∀ {i}, ∀ c ∈ (t.node i).children, c.1 ≠ []
  lengths : ∀ {i}, ∀ c ∈ (t.node i).children, ∀ c' ∈ (t.node i).children, c.1.length = c'.1.length

/-- The shape of a trie whose fragments can be searched like characters, in
`rest`. -/
structure Shaped (t : RoutesTrie) (rest : Bytes) : Prop extends Branching t where
  prefixes : ∀ {i}, ∀ c ∈ (t.node i).children, ∀ s, s <:+ rest →
    (startsWith s c.1 = true ↔ c.1 <+: s)

variable {t : RoutesTrie}

theorem Leads.single {i : ℕ} {e : Edge} (he : e ∈ (t.node i).edges) : t.Leads i e.tokens e.child := by
  simpa using Leads.edge he (Leads.here e.child)

theorem Leads.trans {i j k : ℕ} {p q : List Token} (hp : t.Leads i p j) (hq : t.Leads j q k) :
    t.Leads i (p ++ q) k := by
  induction hp with
  | here i => exact hq
  | edge he _ ih =>
    rw [List.append_assoc]
    exact .edge he (ih hq)

/-- The last link on the way. -/
theorem Leads.last {i j : ℕ} {q : List Token} (h : t.Leads i q j) :
    (q = [] ∧ i = j) ∨
      ∃ k e p, t.Leads i p k ∧ e ∈ (t.node k).edges ∧ e.child = j ∧ q = p ++ e.tokens := by
  induction h with
  | here i => exact .inl ⟨rfl, rfl⟩
  | @edge i j e q he h ih =>
    right
    rcases ih with ⟨rfl, rfl⟩ | ⟨k, e', p, hp, he', rfl, rfl⟩
    · exact ⟨i, e, [], .here i, he, rfl, by simp⟩
    · exact ⟨k, e', e.tokens ++ p, .edge he hp, he', rfl, by simp⟩

/-! ### Single characters -/

/-- Where keys are distinct, `lookup` is membership. -/
theorem lookup_eq_some_iff_mem {β : Type} {l : List (Bytes × β)} (hl : (l.map Prod.fst).Nodup)
    {k : Bytes} {v : β} : l.lookup k = some v ↔ (k, v) ∈ l := by
  induction l with
  | nil => simp
  | cons x l ih =>
    rw [List.map_cons, List.nodup_cons] at hl
    rw [List.lookup_cons, List.mem_cons]
    by_cases hk : k = x.1
    · have hnot : (k, v) ∉ l := fun hm => hl.1 (hk ▸ List.mem_map_of_mem (f := Prod.fst) hm)
      have hbeq : (k == x.1) = true := by simpa using hk
      simp only [hbeq, hnot, or_false, Option.some.injEq, Prod.ext_iff]
      simp only [hk, true_and, eq_comm]
    · have hbeq : (k == x.1) = false := by simpa using hk
      simp only [hbeq, ih hl.2, Prod.ext_iff, hk, false_and, false_or]

/-- The links of a node with single characters are its steps. -/
theorem edge_iff_next? (ht : t.WellFormed) {i j : ℕ} {w : List Token} :
    (∃ e ∈ (t.node i).edges, e.tokens = w ∧ e.child = j) ↔
      ∃ tok, w = [tok] ∧ (t.node i).next? tok = some j := by
  constructor
  · rintro ⟨e, he, rfl, rfl⟩
    cases e with
    | param k j =>
      obtain ⟨hne, hj⟩ := Node.param_mem_edges.mp he
      exact ⟨.param k, rfl, by rw [Node.next?, if_neg hne, hj]; rfl⟩
    | text f j =>
      have hmem := Node.text_mem_edges.mp he
      obtain ⟨b, rfl⟩ := ht.fragments _ hmem
      exact ⟨.lit b, rfl, (lookup_eq_some_iff_mem (ht.keys i)).mpr hmem⟩
  · rintro ⟨tok, rfl, hnext⟩
    cases tok with
    | lit c =>
      have hmem := (lookup_eq_some_iff_mem (ht.keys i)).mp hnext
      exact ⟨.text [c] j, Node.text_mem_edges.mpr hmem, rfl, rfl⟩
    | param k =>
      simp only [Node.next?, Option.ite_none_left_eq_some, Option.some.injEq] at hnext
      exact ⟨.param k j, Node.param_mem_edges.mpr hnext, rfl, rfl⟩

theorem leads_iff_walk (ht : t.WellFormed) {i j : ℕ} {q : List Token} :
    t.Leads i q j ↔ t.walk i q = some j := by
  constructor
  · intro h
    induction h with
    | here i => rfl
    | edge he h ih =>
      obtain ⟨tok, htok, hnext⟩ := (edge_iff_next? ht).mp ⟨_, he, rfl, rfl⟩
      rw [htok, List.singleton_append, walk_cons, hnext]
      exact ih
  · intro h
    induction q generalizing i with
    | nil =>
      rw [walk_nil, Option.some_inj] at h
      rw [h]
      exact .here j
    | cons tok q ih =>
      rw [walk_cons, Option.bind_eq_some_iff] at h
      obtain ⟨k, hnext, h⟩ := h
      obtain ⟨e, he, htok, rfl⟩ := (edge_iff_next? ht).mpr ⟨tok, rfl, hnext⟩
      simpa [htok] using Leads.edge he (ih h)

theorem indexAt_iff_lookup (ht : t.WellFormed) {q : List Token} {a : ℕ} :
    t.IndexAt q a ↔ t.lookup q = some a := by
  simp only [IndexAt, leads_iff_walk ht, lookup, Option.map_eq_some_iff]

theorem WellFormed.shaped (ht : t.WellFormed) (rest : Bytes) : t.Shaped rest := by
  refine ⟨⟨ht.keys, ?_, ?_⟩, ?_⟩
  · intro i c hc
    obtain ⟨b, hb⟩ := ht.fragments c hc
    simp [hb]
  · intro i c hc c' hc'
    obtain ⟨b, hb⟩ := ht.fragments c hc
    obtain ⟨b', hb'⟩ := ht.fragments c' hc'
    rw [hb, hb']
    rfl
  · intro i c hc s _
    obtain ⟨b, hb⟩ := ht.fragments c hc
    rw [hb, startsWith_singleton]
    constructor
    · rintro ⟨r, rfl⟩
      exact ⟨r, rfl⟩
    · rintro ⟨r, rfl⟩
      exact ⟨r, rfl⟩

theorem Branching.tokens_ne_nil (ht : t.Branching) {i : ℕ} {e : Edge} (he : e ∈ (t.node i).edges) :
    e.tokens ≠ [] := by
  cases e with
  | param k j => exact List.cons_ne_nil _ _
  | text f j =>
    have := ht.nonempty _ (Node.text_mem_edges.mp he)
    simpa [Edge.tokens] using this

theorem leads_nil (ht : t.Branching) {i j : ℕ} (h : t.Leads i [] j) : i = j := by
  rcases h.last with ⟨-, h⟩ | ⟨k, e, p, -, he, -, hq⟩
  · exact h
  · exact absurd (List.append_eq_nil_iff.mp hq.symm).2 (ht.tokens_ne_nil he)

/-- No way through the trie starts with both links. -/
def Apart (e e' : Edge) : Prop := ∀ q q', e.tokens ++ q ≠ e'.tokens ++ q'

theorem apart_params {k k' : ParamType} {j j' : ℕ} (h : k ≠ k') :
    Apart (.param k j) (.param k' j') := by
  intro q q' heq
  simp only [Edge.tokens, List.singleton_append, List.cons.injEq, Token.param.injEq] at heq
  exact h heq.1

theorem apart_texts {f f' : Bytes} {j j' : ℕ} (hlen : f.length = f'.length) (h : f ≠ f') :
    Apart (.text f j) (.text f' j') := by
  intro q q' heq
  have hlit := (List.append_inj heq (by simpa [Edge.tokens] using hlen)).1
  exact h (List.map_injective_iff.mpr (fun _ _ hab => Token.lit.inj hab) hlit)

/-- Different links of a node have nothing in common. -/
theorem Branching.apart (ht : t.Branching) {i : ℕ} {e e' : Edge} (he : e ∈ (t.node i).edges)
    (he' : e' ∈ (t.node i).edges) (hne : e ≠ e') : Apart e e' := by
  cases e with
  | param k j =>
    cases e' with
    | param k' j' =>
      refine apart_params fun hk => hne ?_
      obtain ⟨-, hj⟩ := Node.param_mem_edges.mp he
      obtain ⟨-, hj'⟩ := Node.param_mem_edges.mp he'
      rw [← hj, ← hj', hk]
    | text f' j' =>
      intro q q' heq
      obtain ⟨c, f, rfl⟩ := List.exists_cons_of_ne_nil (ht.nonempty _ (Node.text_mem_edges.mp he'))
      simp [Edge.tokens] at heq
  | text f j =>
    have hmem := Node.text_mem_edges.mp he
    cases e' with
    | param k' j' =>
      intro q q' heq
      obtain ⟨c, f, rfl⟩ := List.exists_cons_of_ne_nil (ht.nonempty _ hmem)
      simp [Edge.tokens] at heq
    | text f' j' =>
      have hmem' := Node.text_mem_edges.mp he'
      refine apart_texts (ht.lengths _ hmem _ hmem') fun hf => hne ?_
      have heq := List.inj_on_of_nodup_map (ht.keys i) hmem hmem' hf
      obtain ⟨rfl, rfl⟩ := Prod.mk.inj heq
      rfl

/-- No node is reached along two paths. -/
def Unique (t : RoutesTrie) : Prop := ∀ {p q j}, t.Leads 0 p j → t.Leads 0 q j → p = q

/-- What a link leads to is reached by no other link of its node. -/
theorem Unique.separate (hu : t.Unique) (ht : t.Branching) {i k : ℕ} {r q q' : List Token}
    {e e' : Edge} (hi : t.Leads 0 r i) (he : e ∈ (t.node i).edges) (he' : e' ∈ (t.node i).edges)
    (hne : e ≠ e') (hk : t.Leads e.child q k) : ¬t.Leads e'.child q' k := by
  intro hk'
  have heq := hu (hi.trans (.edge he hk)) (hi.trans (.edge he' hk'))
  rw [List.append_cancel_left_eq] at heq
  exact ht.apart he he' hne q q' heq

theorem Branching.fragments (ht : t.Branching) : t.Fragments := fun _ c hc => ht.nonempty c hc

theorem Shaped.suffix {rest rest' : Bytes} (ht : t.Shaped rest) (h : rest' <:+ rest) :
    t.Shaped rest' :=
  ⟨ht.toBranching, fun c hc s hs => ht.prefixes c hc s (hs.trans h)⟩

end RoutesTrie

end Suil
