/-
What a trie of routes stores.

A trie stands for a partial map from paths of steps to indices (`lookup`): a
path that leads to a node has the node's index.  `add` updates that map.

* `WellFormed` — links lead to existing nodes, no node has two links leading to
  it, and the fragments of a node are distinct characters;
* `walk_inj` — two paths never lead to the same node;
* `add_wellFormed`, `lookup_add` — `add` keeps the shape, makes every piece of
  the route a path of the trie, and sets the index at its end when that had none;
* `registered` — the trie after registering routes one after the other.
-/
import Suil.RoutesTrie

namespace Suil

namespace RoutesTrie

/-- The node a path of steps leads to. -/
def walk (t : RoutesTrie) : ℕ → List Token → Option ℕ
  | i, [] => some i
  | i, tok :: q => ((t.node i).next? tok).bind fun j => walk t j q

/-- The index at a path; `none` when the path is not in the trie. -/
def lookup (t : RoutesTrie) (q : List Token) : Option ℕ :=
  (t.walk 0 q).map fun i => (t.node i).index

@[simp] theorem walk_nil (t : RoutesTrie) (i : ℕ) : t.walk i [] = some i := rfl

theorem walk_cons (t : RoutesTrie) (i : ℕ) (tok : Token) (q : List Token) :
    t.walk i (tok :: q) = ((t.node i).next? tok).bind fun j => t.walk j q := rfl

theorem walk_append (t : RoutesTrie) (i : ℕ) (p q : List Token) :
    t.walk i (p ++ q) = (t.walk i p).bind fun j => t.walk j q := by
  induction p generalizing i with
  | nil => rfl
  | cons tok p ih =>
    rw [List.cons_append, walk_cons, walk_cons, Option.bind_assoc]
    exact congrArg _ (funext ih)

theorem walk_concat (t : RoutesTrie) (i : ℕ) (p : List Token) (tok : Token) :
    t.walk i (p ++ [tok]) = (t.walk i p).bind fun j => (t.node j).next? tok := by
  rw [walk_append]
  refine congrArg _ (funext fun j => ?_)
  rw [walk_cons]
  simp

/-- The paths of a trie are closed under taking pieces off the end. -/
theorem lookup_prefix {t : RoutesTrie} {p q : List Token} (hpq : p <+: q)
    (h : t.lookup q ≠ none) : t.lookup p ≠ none := by
  obtain ⟨r, rfl⟩ := hpq
  intro hp
  rw [lookup, Option.map_eq_none_iff] at hp
  rw [lookup, walk_append, hp] at h
  exact h rfl

theorem node_fresh {t : RoutesTrie} {i : ℕ} (h : t.nodes.length ≤ i) : t.node i = Node.fresh :=
  List.getD_eq_default _ _ h

@[simp] theorem Node.fresh_next? (tok : Token) : Node.fresh.next? tok = none := by
  cases tok <;> simp [Node.fresh, Node.next?]

/-! ### The shape -/

/-- The shape `add` keeps. -/
structure WellFormed (t : RoutesTrie) : Prop where
  pos : 0 < t.nodes.length
  range : ∀ {i tok j}, (t.node i).next? tok = some j → 0 < j ∧ j < t.nodes.length
  inj : ∀ {i i' tok tok' j}, (t.node i).next? tok = some j → (t.node i').next? tok' = some j →
    i = i' ∧ tok = tok'
  fragments : ∀ {i}, ∀ c ∈ (t.node i).children, ∃ b, c.1 = [b]
  keys : ∀ i, ((t.node i).children.map Prod.fst).Nodup

theorem empty_wellFormed : empty.WellFormed := by
  have hnode : ∀ i, empty.node i = Node.fresh := by
    intro i
    cases i <;> rfl
  refine ⟨Nat.one_pos, ?_, ?_, ?_, ?_⟩
  · intro i tok j h
    simp [hnode] at h
  · intro i i' tok tok' j h
    simp [hnode] at h
  · intro i c hc
    simp [hnode, Node.fresh] at hc
  · intro i
    simp [hnode, Node.fresh]

theorem walk_lt {t : RoutesTrie} (ht : t.WellFormed) {i j : ℕ} {q : List Token}
    (hi : i < t.nodes.length) (h : t.walk i q = some j) : j < t.nodes.length := by
  induction q generalizing i with
  | nil =>
    rw [walk_nil, Option.some_inj] at h
    omega
  | cons tok q ih =>
    rw [walk_cons, Option.bind_eq_some_iff] at h
    obtain ⟨k, hk, h⟩ := h
    exact ih (ht.range hk).2 h

/-- Two paths never lead to the same node. -/
theorem walk_inj {t : RoutesTrie} (ht : t.WellFormed) {p q : List Token} {j : ℕ}
    (hp : t.walk 0 p = some j) (hq : t.walk 0 q = some j) : p = q := by
  induction p using List.reverseRecOn generalizing q j with
  | nil =>
    rw [walk_nil, Option.some_inj] at hp
    rcases List.eq_nil_or_concat' q with rfl | ⟨q', tok, rfl⟩
    · rfl
    · rw [walk_concat, Option.bind_eq_some_iff] at hq
      obtain ⟨k, -, hk⟩ := hq
      have := ht.range hk
      omega
  | append_singleton p tok ih =>
    rw [walk_concat, Option.bind_eq_some_iff] at hp
    obtain ⟨k, hpk, hk⟩ := hp
    rcases List.eq_nil_or_concat' q with rfl | ⟨q', tok', rfl⟩
    · rw [walk_nil, Option.some_inj] at hq
      have := ht.range hk
      omega
    · rw [walk_concat, Option.bind_eq_some_iff] at hq
      obtain ⟨k', hqk, hk'⟩ := hq
      obtain ⟨rfl, rfl⟩ := ht.inj hk hk'
      rw [ih hpk hqk]

/-! ### One step of `add` -/

theorem Node.link_next? {n : Node} {tok : Token} {j : ℕ} (hj : 0 < j) (hn : n.next? tok = none)
    (tok' : Token) : (n.link tok j).next? tok' = if tok' = tok then some j else n.next? tok' := by
  cases tok with
  | lit c =>
    cases tok' with
    | lit c' =>
      simp only [next?] at hn ⊢
      simp only [link, List.lookup_append, Token.lit.injEq]
      split_ifs with h
      · subst h
        simp [hn, List.lookup]
      · have hne : ([c'] == [c]) = false := by simpa using h
        simp [List.lookup, hne]
    | param k =>
      rw [if_neg (by simp)]
      rfl
  | param k =>
    cases tok' with
    | lit c' =>
      rw [if_neg (by simp)]
      rfl
    | param k' =>
      simp only [next?, link, Token.param.injEq, Function.update_apply]
      split_ifs with h <;> first | rfl | omega

/-- What a new link does to the nodes of a trie. -/
theorem addToken_node {t : RoutesTrie} {i : ℕ} {tok : Token} (hi : i < t.nodes.length)
    (hn : (t.node i).next? tok = none) (k : ℕ) :
    (addToken (t, i) tok).1.node k =
      if k = i then (t.node i).link tok t.nodes.length else t.node k := by
  simp only [addToken, hn]
  simp only [node, List.getD_eq_getElem?_getD, List.getElem?_set, List.length_append,
    List.length_singleton]
  by_cases hk : i = k
  · subst hk
    rw [if_pos rfl, if_pos (by omega), if_pos rfl]
    rfl
  · rw [if_neg hk, if_neg (Ne.symm hk)]
    by_cases hlt : k < t.nodes.length
    · rw [List.getElem?_append_left hlt]
    · rw [List.getElem?_append_right (by omega), List.getElem?_eq_none (l := t.nodes) (by omega)]
      rcases Nat.eq_zero_or_pos (k - t.nodes.length) with h | h
      · simp [h]
      · simp [List.getElem?_eq_none (l := [Node.fresh]) (i := k - t.nodes.length) (by simp; omega)]

theorem addToken_next? {t : RoutesTrie} (ht : t.WellFormed) {i : ℕ} {tok : Token}
    (hi : i < t.nodes.length) (hn : (t.node i).next? tok = none) (k : ℕ) (tok' : Token) :
    ((addToken (t, i) tok).1.node k).next? tok' =
      if k = i ∧ tok' = tok then some t.nodes.length else (t.node k).next? tok' := by
  rw [addToken_node hi hn]
  by_cases hk : k = i
  · subst hk
    rw [if_pos rfl, Node.link_next? ht.pos hn]
    simp
  · rw [if_neg hk, if_neg (fun h => hk h.1)]

theorem addToken_old {t : RoutesTrie} {i j : ℕ} {tok : Token}
    (hn : (t.node i).next? tok = some j) : addToken (t, i) tok = (t, j) := by
  simp only [addToken, hn]

theorem addToken_new {t : RoutesTrie} {i : ℕ} {tok : Token} (hn : (t.node i).next? tok = none) :
    (addToken (t, i) tok).2 = t.nodes.length ∧
      (addToken (t, i) tok).1.nodes.length = t.nodes.length + 1 := by
  simp [addToken, hn]

theorem addToken_wellFormed {t : RoutesTrie} (ht : t.WellFormed) {i : ℕ} (tok : Token)
    (hi : i < t.nodes.length) : (addToken (t, i) tok).1.WellFormed := by
  rcases hn : (t.node i).next? tok with _ | j
  swap
  · rwa [addToken_old hn]
  have hlen := (addToken_new hn).2
  have hnext := addToken_next? ht hi hn
  have hchild : ∀ k, ((addToken (t, i) tok).1.node k).children = (t.node k).children ∨
      ∃ b, k = i ∧ tok = .lit b ∧ (addToken (t, i) tok).1.node k = (t.node i).link tok t.nodes.length := by
    intro k
    rw [addToken_node hi hn]
    split_ifs with hk
    · cases tok with
      | lit b => exact .inr ⟨b, hk, rfl, rfl⟩
      | param m => exact .inl (by rw [hk]; rfl)
    · exact .inl rfl
  refine ⟨by omega, ?_, ?_, ?_, ?_⟩
  · intro k tok' m h
    rw [hnext] at h
    rw [hlen]
    split_ifs at h
    · rw [Option.some_inj] at h
      have := ht.pos
      omega
    · have := ht.range h
      omega
  · intro k k' tok₁ tok₂ m h h'
    rw [hnext] at h h'
    split_ifs at h h' with h₁ h₂ h₂
    · exact ⟨h₁.1.trans h₂.1.symm, h₁.2.trans h₂.2.symm⟩
    · have := ht.range h'
      rw [Option.some_inj] at h
      omega
    · have := ht.range h
      rw [Option.some_inj] at h'
      omega
    · exact ht.inj h h'
  · intro k c hc
    rcases hchild k with h | ⟨b, rfl, rfl, h⟩
    · rw [h] at hc
      exact ht.fragments c hc
    · rw [h] at hc
      rcases List.mem_append.mp hc with hc | hc
      · exact ht.fragments c hc
      · rw [List.mem_singleton] at hc
        exact ⟨b, by rw [hc]⟩
  · intro k
    rcases hchild k with h | ⟨b, rfl, rfl, h⟩
    · rw [h]
      exact ht.keys k
    · rw [h]
      simp only [Node.link, List.map_append, List.map_cons, List.map_nil, List.nodup_append,
        List.nodup_singleton, List.mem_singleton, true_and]
      refine ⟨ht.keys k, fun f hf f' hf' heq => ?_⟩
      -- A node that has no link for the character has no such fragment.
      rw [hf'] at heq
      simp only [Node.next?, List.lookup_eq_none_iff] at hn
      obtain ⟨c, hc, rfl⟩ := List.mem_map.mp hf
      have := hn c hc
      simp [heq] at this

/-- A new link adds one path. -/
theorem addToken_walk {t : RoutesTrie} (ht : t.WellFormed) {i : ℕ} {p : List Token} (tok : Token)
    (hp : t.walk 0 p = some i) (q : List Token) :
    (addToken (t, i) tok).1.walk 0 q =
      if q = p ++ [tok] then some (addToken (t, i) tok).2 else t.walk 0 q := by
  have hi := walk_lt ht ht.pos hp
  rcases hn : (t.node i).next? tok with _ | j
  swap
  · rw [addToken_old hn]
    split_ifs with hq
    · rw [hq, walk_concat, hp]
      exact hn
    · rfl
  have hnone : t.walk 0 (p ++ [tok]) = none := by rw [walk_concat, hp]; exact hn
  rw [(addToken_new hn).1]
  induction q using List.reverseRecOn with
  | nil => simp
  | append_singleton q tok' ih =>
    rw [walk_concat, walk_concat, ih]
    by_cases hq : q = p ++ [tok]
    · -- The new node has no links.
      subst hq
      have hlast : ((addToken (t, i) tok).1.node t.nodes.length).next? tok' = none := by
        rw [addToken_next? ht hi hn, if_neg (fun h => by omega), node_fresh (le_refl _),
          Node.fresh_next?]
      rw [if_pos rfl, hnone, if_neg (fun h => by simpa using congrArg List.length h)]
      exact hlast
    · rw [if_neg hq]
      rcases hw : t.walk 0 q with _ | k
      · rw [if_neg]
        · rfl
        · rintro h
          obtain ⟨rfl, -⟩ := List.append_inj' h rfl
          rw [hp] at hw
          exact absurd hw (by simp)
      · simp only [Option.bind_some]
        rw [addToken_next? ht hi hn]
        refine if_congr ⟨?_, ?_⟩ rfl rfl
        · rintro ⟨rfl, rfl⟩
          rw [walk_inj ht hw hp]
        · intro h
          obtain ⟨rfl, h⟩ := List.append_inj' h rfl
          rw [hp, Option.some_inj] at hw
          exact ⟨hw.symm, by simpa using h⟩

theorem addToken_index {t : RoutesTrie} {i : ℕ} {tok : Token} (hi : i < t.nodes.length) (k : ℕ) :
    ((addToken (t, i) tok).1.node k).index = (t.node k).index := by
  rcases hn : (t.node i).next? tok with _ | j
  swap
  · rw [addToken_old hn]
  rw [addToken_node hi hn]
  split_ifs with hk
  · subst hk
    cases tok <;> rfl
  · rfl

/-! ### A whole route -/

theorem lookup_of_walk {t : RoutesTrie} {p : List Token} {i : ℕ} (h : t.walk 0 p = some i) :
    t.lookup p = some (t.node i).index := by
  rw [lookup, h]
  rfl

/-- A new link adds one path, with no index. -/
theorem addToken_lookup {t : RoutesTrie} (ht : t.WellFormed) {i : ℕ} {p : List Token} {tok : Token}
    (hp : t.walk 0 p = some i) (x : List Token) :
    (addToken (t, i) tok).1.lookup x =
      if x = p ++ [tok] then some ((t.lookup x).getD 0) else t.lookup x := by
  have hi := walk_lt ht ht.pos hp
  rw [lookup, addToken_walk ht _ hp]
  simp only [addToken_index hi]
  split_ifs with hx
  · subst hx
    rw [lookup, walk_concat, hp, Option.bind_some]
    rcases hn : (t.node i).next? tok with _ | j
    · rw [(addToken_new hn).1, Option.map_some, node_fresh (le_refl _)]
      rfl
    · rw [addToken_old hn]
      rfl
  · rfl

/-- Threading a route through the trie makes its pieces paths of the trie, and
changes nothing else. -/
theorem foldl_addToken {t : RoutesTrie} (ht : t.WellFormed) {i : ℕ} {p q : List Token}
    (hp : t.walk 0 p = some i) :
    (q.foldl addToken (t, i)).1.WellFormed ∧
      (q.foldl addToken (t, i)).1.walk 0 (p ++ q) = some (q.foldl addToken (t, i)).2 ∧
      ∀ x, (q.foldl addToken (t, i)).1.lookup x =
        if p <+: x ∧ x <+: p ++ q then some ((t.lookup x).getD 0) else t.lookup x := by
  induction q generalizing t i p with
  | nil =>
    refine ⟨ht, by simpa using hp, fun x => ?_⟩
    simp only [List.append_nil, List.foldl_nil]
    split_ifs with h
    · rw [h.2.eq_of_length_le h.1.length_le, lookup_of_walk hp]
      rfl
    · rfl
  | cons tok q ih =>
    have hi := walk_lt ht ht.pos hp
    have hwalk := addToken_walk ht tok hp
    obtain ⟨h₁, h₂, h₃⟩ := ih (addToken_wellFormed ht tok hi) (p := p ++ [tok])
      (by rw [hwalk, if_pos rfl])
    refine ⟨h₁, by simpa using h₂, fun x => ?_⟩
    rw [List.foldl_cons, h₃ x, addToken_lookup ht hp, List.append_assoc, List.singleton_append]
    by_cases hx : x = p ++ [tok]
    · have hpre : p ++ [tok] <+: p ++ tok :: q := ⟨q, by simp⟩
      rw [hx, if_pos rfl, if_pos ⟨List.prefix_rfl, hpre⟩, if_pos ⟨List.prefix_append _ _, hpre⟩]
      rfl
    · rw [if_neg hx]
      by_cases hxp : x = p
      · -- The path the step starts from keeps its index.
        subst hxp
        rw [lookup_of_walk hp]
        simp
      · refine if_congr ⟨fun h => ⟨(List.prefix_append _ _).trans h.1, h.2⟩, fun h => ⟨?_, h.2⟩⟩
          rfl rfl
        obtain ⟨⟨r, rfl⟩, hr⟩ := h
        rw [List.prefix_append_right_inj] at hr
        rcases r with _ | ⟨tok', r⟩
        · exact absurd (List.append_nil p) hxp
        · obtain ⟨rfl, -⟩ := List.cons_prefix_cons.mp hr
          exact ⟨r, by simp⟩

/-- The trie with the index of node `i` set. -/
def setIndex (t : RoutesTrie) (i n : ℕ) : RoutesTrie :=
  ⟨t.nodes.set i { t.node i with index := n }⟩

theorem setIndex_node {t : RoutesTrie} {i n : ℕ} (hi : i < t.nodes.length) (k : ℕ) :
    (t.setIndex i n).node k = if k = i then { t.node i with index := n } else t.node k := by
  simp only [setIndex, node, List.getD_eq_getElem?_getD, List.getElem?_set]
  by_cases hk : i = k
  · subst hk
    simp [hi]
  · rw [if_neg hk, if_neg (Ne.symm hk)]

/-- The links do not depend on the indices. -/
theorem setIndex_links {t : RoutesTrie} {i n : ℕ} (hi : i < t.nodes.length) (k : ℕ) :
    ((t.setIndex i n).node k).next? = (t.node k).next? ∧
      ((t.setIndex i n).node k).children = (t.node k).children := by
  rw [setIndex_node hi]
  split_ifs with hk
  · subst hk
    refine ⟨funext fun tok => ?_, rfl⟩
    cases tok <;> rfl
  · exact ⟨rfl, rfl⟩

theorem setIndex_wellFormed {t : RoutesTrie} (ht : t.WellFormed) {i n : ℕ}
    (hi : i < t.nodes.length) : (t.setIndex i n).WellFormed := by
  have hlen : (t.setIndex i n).nodes.length = t.nodes.length := List.length_set
  have hlinks := setIndex_links (n := n) hi
  refine ⟨by rw [hlen]; exact ht.pos, ?_, ?_, ?_, ?_⟩
  · intro k tok j h
    rw [(hlinks k).1] at h
    rw [hlen]
    exact ht.range h
  · intro k k' tok tok' j h h'
    rw [(hlinks k).1] at h
    rw [(hlinks k').1] at h'
    exact ht.inj h h'
  · intro k c hc
    rw [(hlinks k).2] at hc
    exact ht.fragments c hc
  · intro k
    rw [(hlinks k).2]
    exact ht.keys k

theorem setIndex_lookup {t : RoutesTrie} (ht : t.WellFormed) {i n : ℕ} {p : List Token}
    (hp : t.walk 0 p = some i) (x : List Token) :
    (t.setIndex i n).lookup x = if x = p then some n else t.lookup x := by
  have hi := walk_lt ht ht.pos hp
  have hwalk : ∀ k q, (t.setIndex i n).walk k q = t.walk k q := by
    intro k q
    induction q generalizing k with
    | nil => rfl
    | cons tok q ih =>
      rw [walk_cons, walk_cons, (setIndex_links hi k).1]
      exact congrArg _ (funext ih)
  rw [lookup, hwalk]
  split_ifs with hx
  · subst hx
    rw [hp, Option.map_some, setIndex_node hi, if_pos rfl]
  · rcases hw : t.walk 0 x with _ | k
    · rw [lookup, hw]
      rfl
    · rw [lookup, hw, Option.map_some, setIndex_node hi, if_neg]
      · rfl
      · rintro rfl
        exact hx (walk_inj ht hw hp)

/-! ### `add` -/

/-- The paths of a trie after a route was threaded through it. -/
def thread (f : List Token → Option ℕ) (p x : List Token) : Option ℕ :=
  if x <+: p then some ((f x).getD 0) else f x

theorem add_wellFormed {t : RoutesTrie} (ht : t.WellFormed) (url : Bytes) (n : ℕ) :
    (t.add url n).2.WellFormed := by
  obtain ⟨h₁, h₂, -⟩ := foldl_addToken ht (p := []) (q := tokens url) rfl
  rw [add]
  simp only
  split_ifs
  · exact h₁
  · exact setIndex_wellFormed h₁ (walk_lt h₁ h₁.pos h₂)

theorem foldl_lookup {t : RoutesTrie} (ht : t.WellFormed) (q x : List Token) :
    (q.foldl addToken (t, 0)).1.lookup x = thread t.lookup q x := by
  rw [(foldl_addToken ht (p := []) (q := q) rfl).2.2 x, thread]
  simp

/-- `add` refuses a route whose end has an index already. -/
theorem add_eq_ok_iff {t : RoutesTrie} (ht : t.WellFormed) (url : Bytes) (n : ℕ) :
    (t.add url n).1 = .ok () ↔ (t.lookup (tokens url)).getD 0 = 0 := by
  have hend := lookup_of_walk (foldl_addToken ht (p := []) (q := tokens url) rfl).2.1
  rw [List.nil_append, foldl_lookup ht, thread, if_pos List.prefix_rfl, Option.some_inj] at hend
  rw [add, hend]
  simp only
  split_ifs with h
  · simp only [false_iff]
    exact h
  · simpa using h

/-- **`add` as an update of the map of paths.** -/
theorem lookup_add {t : RoutesTrie} (ht : t.WellFormed) (url : Bytes) (n : ℕ) (x : List Token) :
    (t.add url n).2.lookup x =
      if (t.add url n).1 = .ok () ∧ x = tokens url then some n
      else thread t.lookup (tokens url) x := by
  obtain ⟨h₁, h₂, -⟩ := foldl_addToken ht (p := []) (q := tokens url) rfl
  rw [add]
  simp only
  split_ifs with h hc hc
  · exact absurd hc.1 (by simp)
  · exact foldl_lookup ht _ _
  · show (setIndex _ _ n).lookup x = some n
    rw [setIndex_lookup h₁ h₂, if_pos (by simpa using hc.2)]
  · show (setIndex _ _ n).lookup x = _
    rw [setIndex_lookup h₁ h₂, if_neg (by simpa using hc)]
    exact foldl_lookup ht _ _

/-- The paths with an index after `add`. -/
theorem lookup_add_eq_some_iff {t : RoutesTrie} (ht : t.WellFormed) (url : Bytes) (n : ℕ)
    (q : List Token) {m : ℕ} (hm : m ≠ 0) :
    (t.add url n).2.lookup q = some m ↔
      ((t.add url n).1 = .ok () ∧ q = tokens url ∧ m = n) ∨ t.lookup q = some m := by
  -- Threading gives no path an index.
  have hthread : thread t.lookup (tokens url) q = some m ↔ t.lookup q = some m := by
    rw [thread]
    split_ifs
    · rcases t.lookup q with _ | a
      · simp [hm.symm]
      · rfl
    · rfl
  rw [lookup_add ht]
  by_cases hadd : (t.add url n).1 = .ok () ∧ q = tokens url
  · have hnot : t.lookup q ≠ some m := by
      intro hsome
      have hzero := (add_eq_ok_iff ht url n).mp hadd.1
      rw [← hadd.2, hsome] at hzero
      exact hm hzero
    rw [if_pos hadd, or_iff_left hnot]
    simp [hadd, eq_comm]
  · rw [if_neg hadd, hthread, or_iff_right (fun h => hadd ⟨h.1, h.2.1⟩)]

end RoutesTrie

end Suil
