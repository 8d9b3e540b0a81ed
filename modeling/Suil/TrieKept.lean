/-
What `optimize` keeps.

After `optimize` the trie leads to fewer nodes: those that were merged into
their parents are gone.

* `Kept` — the paths that are left, told by the paths of the trie and by which
  of them are simple;
* `optimize_wellFormed` — `optimize` on a trie built by `add`: the indices at the
  kept paths, in a trie without shared nodes;
* `Optimized` — the shape of the result, on which further calls change nothing
  but the numbering (`Optimized.optimize`);
* `reworked_registered` — the trie after any further calls of `optimize` and
  `validate`.
-/
import Suil.TrieGather
import Suil.RouteMatching

namespace Suil

namespace RoutesTrie

/-- The paths kept: every parameter, and along literal characters the first
pieces of the least length at which some piece is not simple. -/
inductive Kept (paths simple : List Token → Prop) : List Token → Prop where
  | head : Kept paths simple []
  | param {q : List Token} {k : ParamType} (hq : Kept paths simple q)
      (hk : paths (q ++ [.param k])) : Kept paths simple (q ++ [.param k])
  | text {q : List Token} {f : Bytes} (hq : Kept paths simple q) (hne : f ≠ [])
      (hf : paths (q ++ f.map .lit))
      (hsimple : ∀ g : Bytes, g ≠ [] → g.length < f.length → paths (q ++ g.map .lit) →
        simple (q ++ g.map .lit))
      (hlast : ∃ g : Bytes, g.length = f.length ∧ paths (q ++ g.map .lit) ∧ ¬simple (q ++ g.map .lit)) :
      Kept paths simple (q ++ f.map .lit)

theorem Kept.congr {paths simple simple' : List Token → Prop}
    (h : ∀ q, paths q → (simple q ↔ simple' q)) {q : List Token} (hq : Kept paths simple q) :
    Kept paths simple' q := by
  induction hq with
  | head => exact .head
  | param _ hk ih => exact .param ih hk
  | text _ hne hf hsimple hlast ih =>
    obtain ⟨g, hlen, hg, hns⟩ := hlast
    exact .text ih hne hf (fun g hg hlt hp => (h _ hp).mp (hsimple g hg hlt hp))
      ⟨g, hlen, hg, fun hs => hns ((h _ hg).mpr hs)⟩

theorem Kept.path {paths simple : List Token → Prop} (h : paths []) {q : List Token}
    (hq : Kept paths simple q) : paths q := by
  cases hq with
  | head => exact h
  | param _ hk => exact hk
  | text _ _ hf => exact hf

/-- The path leads to a simple node. -/
def SimpleAt (t : RoutesTrie) (q : List Token) : Prop :=
  ∃ i, t.walk 0 q = some i ∧ (t.node i).isSimple = true

theorem lookup_ne_none_iff {t : RoutesTrie} {q : List Token} :
    t.lookup q ≠ none ↔ ∃ i, t.walk 0 q = some i := by
  rw [lookup, Ne, Option.map_eq_none_iff, ← Ne, Option.ne_none_iff_exists']

section Reworked

variable {t₀ t : RoutesTrie}

/-- The fragments along the way to a node that are of a given length, in the trie
as it was. -/
theorem level_of_path (ht : t₀.WellFormed) {q : List Token} {i : ℕ} (hi : t₀.walk 0 q = some i)
    {g : Bytes} (hg : t₀.lookup (q ++ g.map .lit) ≠ none) :
    ∃ j, t₀.walk 0 (q ++ g.map .lit) = some j ∧ (g, j) ∈ t₀.level i g.length := by
  obtain ⟨j, hj⟩ := lookup_ne_none_iff.mp hg
  refine ⟨j, hj, (mem_level ht).mpr ⟨rfl, ?_⟩⟩
  rwa [walk_append, hi, Option.bind_some] at hj

/-- A reworked trie leads along kept paths only. -/
theorem Reworked.kept_of_leads (h : Reworked t₀ t) (ht : t₀.WellFormed) (hdone : t.Done 0) :
    ∀ (n : ℕ) {q : List Token} {j : ℕ}, q.length ≤ n → t.Leads 0 q j →
      Kept (fun q => t₀.lookup q ≠ none) t₀.SimpleAt q := by
  intro n
  induction n with
  | zero =>
    intro q j hlen _
    rw [List.length_eq_zero_iff.mp (Nat.le_zero.mp hlen)]
    exact .head
  | succ n ih =>
    intro q j hlen hq
    have hwalk := h.leads ht hq
    rcases hq.last with ⟨rfl, -⟩ | ⟨i, e, p, hp, he, rfl, rfl⟩
    · exact .head
    have hpos := List.length_pos_iff.mpr (h.edge ht he).2
    have hkept := ih (by rw [List.length_append] at hlen; omega) hp
    have hi := h.leads ht hp
    have hpath := lookup_ne_none_iff.mpr ⟨_, hwalk⟩
    cases e with
    | param k j => exact .param hkept hpath
    | text f j =>
      have hmem := Node.text_mem_edges.mp he
      obtain ⟨m, hm⟩ := h.stage i
      have hlen : f.length = m + 1 := by
        rw [hm.children] at hmem
        exact ((mem_level ht).mp hmem).1
      refine .text hkept (List.ne_nil_of_length_eq_add_one hlen) hpath ?_ ?_
      · intro g hg hlt hgp
        obtain ⟨k, hk, hlevel⟩ := level_of_path ht hi hgp
        have hglen := List.length_pos_iff.mpr hg
        exact ⟨k, hk, hm.simple g.length (by omega) (by omega) _ hlevel⟩
      · -- The node is settled and has a child, so some child is not simple.
        rcases hdone _ i hp with hnil | ⟨c, hc, hsimple⟩
        · rw [hnil] at hmem
          simp at hmem
        · have hc' := hc
          rw [hm.children] at hc'
          obtain ⟨hclen, hcwalk⟩ := (mem_level ht).mp hc'
          have hroot : t₀.walk 0 (p ++ c.1.map .lit) = some c.2 := by
            rw [walk_append, hi]
            exact hcwalk
          refine ⟨c.1, by omega, lookup_ne_none_iff.mpr ⟨_, hroot⟩, ?_⟩
          rintro ⟨k, hk, hk'⟩
          rw [hroot, Option.some_inj] at hk
          rw [h.isSimple, hk, hk'] at hsimple
          exact absurd hsimple (by simp)

/-- A reworked trie leads along all the kept paths. -/
theorem Reworked.leads_of_kept (h : Reworked t₀ t) (ht : t₀.WellFormed) (hdone : t.Done 0)
    {q : List Token} (hq : Kept (fun q => t₀.lookup q ≠ none) t₀.SimpleAt q) :
    ∀ {j}, t₀.walk 0 q = some j → t.Leads 0 q j := by
  induction hq with
  | head =>
    intro j hj
    rw [walk_nil, Option.some_inj] at hj
    rw [← hj]
    exact .here 0
  | @param q k _ _ ih =>
    intro j hj
    rw [walk_concat, Option.bind_eq_some_iff] at hj
    obtain ⟨i, hi, hnext⟩ := hj
    have he : Edge.param k j ∈ (t.node i).edges := by
      rw [Node.param_mem_edges, h.params]
      simpa [Node.next?] using hnext
    exact (ih hi).trans (.single he)
  | @text q f hq hne hf hsimple hlast ih =>
    intro j hj
    obtain ⟨i, hi⟩ : ∃ i, t₀.walk 0 q = some i := by
      rw [walk_append, Option.bind_eq_some_iff] at hj
      exact ⟨_, hj.choose_spec.1⟩
    obtain ⟨m, hm⟩ := h.stage i
    obtain ⟨j', hj', hlevel⟩ := level_of_path ht hi hf
    obtain rfl : j' = j := Option.some.inj (hj'.symm.trans hj)
    have hpos := List.length_pos_iff.mpr hne
    have hlen : f.length = m + 1 := by
      rcases Nat.lt_trichotomy f.length (m + 1) with hlt | heq | hgt
      · -- The levels that were merged are simple.
        obtain ⟨g, hglen, hg, hns⟩ := hlast
        obtain ⟨k, hk, hmem⟩ := level_of_path ht hi hg
        exact absurd ⟨k, hk, hm.simple g.length (by omega) (by omega) _ hmem⟩ hns
      · exact heq
      · -- The level that was reached is not, and it is not empty.
        rcases hdone q i (ih hi) with hnil | ⟨c, hc, hcs⟩
        · have hpre : t₀.lookup (q ++ (f.take (m + 1)).map .lit) ≠ none := by
            refine lookup_prefix ?_ hf
            rw [List.prefix_append_right_inj, List.map_take]
            exact List.take_prefix _ _
          obtain ⟨k, -, hmem⟩ := level_of_path ht hi hpre
          rw [List.length_take, Nat.min_eq_left (by omega), ← hm.children, hnil] at hmem
          simp at hmem
        · rw [hm.children] at hc
          obtain ⟨hclen, hcwalk⟩ := (mem_level ht).mp hc
          have hroot : t₀.walk 0 (q ++ c.1.map .lit) = some c.2 := by
            rw [walk_append, hi]
            exact hcwalk
          obtain ⟨k, hk, hks⟩ := hsimple c.1 (List.ne_nil_of_length_eq_add_one hclen) (by omega)
            (lookup_ne_none_iff.mpr ⟨_, hroot⟩)
          rw [hroot, Option.some_inj] at hk
          rw [h.isSimple, hk, hks] at hcs
          exact absurd hcs (by simp)
    refine (ih hi).trans (.single (e := .text f j') (Node.text_mem_edges.mpr ?_))
    rwa [hm.children, ← hlen]

end Reworked

/-! ### Letters -/

/-- Every byte of a fragment satisfies `P`. -/
def Letters (P : UInt8 → Prop) (t : RoutesTrie) : Prop :=
  ∀ i, ∀ c ∈ (t.node i).children, ∀ b ∈ c.1, P b

/-- Fragments are compared exactly when they or the URL hold no zero bytes. -/
theorem Branching.shaped {t : RoutesTrie} (ht : t.Branching) {url : Bytes}
    (h0 : Letters (· ≠ 0) t ∨ (0 : UInt8) ∉ url) : t.Shaped url :=
  ⟨ht, fun c hc _ hs => startsWith_iff
    (h0.imp (fun hl hmem => hl _ c hc 0 hmem rfl) fun hurl hmem => hurl (hs.subset hmem))⟩

theorem Letters.level {P : UInt8 → Prop} {t : RoutesTrie} (h : Letters P t) {i : ℕ} :
    ∀ m, ∀ c ∈ t.level i m, ∀ b ∈ c.1, P b
  | 0, c, hc, b, hb => by
    rw [RoutesTrie.level, List.mem_singleton] at hc
    rw [hc] at hb
    simp at hb
  | m + 1, c, hc, b, hb => by
    simp only [RoutesTrie.level, List.mem_flatMap, List.mem_map] at hc
    obtain ⟨c₀, hc₀, d, hd, rfl⟩ := hc
    rcases List.mem_append.mp hb with hb | hb
    · exact h.level m c₀ hc₀ b hb
    · exact h _ d hd b hb

theorem Letters.reworked {P : UInt8 → Prop} {t₀ t : RoutesTrie} (hl : Letters P t₀)
    (h : Reworked t₀ t) : Letters P t := by
  intro i c hc
  obtain ⟨m, hm⟩ := h.stage i
  rw [hm.children] at hc
  exact hl.level _ c hc

theorem Letters.renumbered {P : UInt8 → Prop} {src u : RoutesTrie} {φ : ℕ → ℕ} (hl : Letters P src)
    (h : Renumbered src u φ) : Letters P u := by
  intro k c hc
  obtain ⟨-, d, hd, heq⟩ := h.key hc
  rw [← heq]
  exact hl _ d hd

/-! ### `optimize` -/

theorem Reworked.branching {t₀ t : RoutesTrie} (h : Reworked t₀ t) (ht : t₀.WellFormed) :
    t.Branching := by
  refine ⟨fun i => ?_, fun {i} c hc hnil => ?_, fun {i} c hc c' hc' => ?_⟩
  · obtain ⟨m, hm⟩ := h.stage i
    rw [hm.children]
    exact level_nodup ht i (m + 1)
  · obtain ⟨m, hm⟩ := h.stage i
    rw [hm.children] at hc
    have := ((mem_level ht).mp hc).1
    simp [hnil] at this
  · obtain ⟨m, hm⟩ := h.stage i
    rw [hm.children] at hc hc'
    rw [((mem_level ht).mp hc).1, ((mem_level ht).mp hc').1]

/-- The shape of a trie after `optimize`. -/
structure Optimized (t : RoutesTrie) : Prop where
  branching : t.Branching
  upward : t.Upward
  linked : t.Linked
  done : t.Done 0

theorem Renumbered.optimized {src u : RoutesTrie} {φ : ℕ → ℕ} (h : Renumbered src u φ)
    (hb : src.Branching) (hdone : src.Done 0) : u.Optimized :=
  ⟨h.branching hb, h.upward, h.linked, h.done hdone⟩

/-- **`optimize` on a trie built by `add`.** -/
theorem optimize_wellFormed {t : RoutesTrie} (ht : t.WellFormed) (hup : t.Upward) :
    ∃ u, t.optimize = some u ∧ u.Optimized ∧ (∀ P, Letters P t → Letters P u) ∧
      ∀ q a, u.IndexAt q a ↔
        t.lookup q = some a ∧ Kept (fun q => t.lookup q ≠ none) t.SimpleAt q := by
  have hcost : cost t 0 0 < (t.nodes.length + 1) ^ 2 := by
    simp only [cost, Nat.sub_zero, pow_two, Nat.mul_add, Nat.add_mul]
    omega
  obtain ⟨src, hrun, h⟩ := optimizeNode_spec ht hup (r := []) rfl (Reworked.refl t)
    ⟨(level_one t 0).symm, by omega⟩ (fun _ _ _ _ => rfl) (fun _ _ _ => .inl fun _ _ _ => rfl) hcost
  have hb := h.reworked.branching ht
  have hunique : src.Unique := fun hp hq =>
    walk_inj ht (h.reworked.leads ht hp) (h.reworked.leads ht hq)
  obtain ⟨u, t', φ, hgather, hren⟩ :=
    gather_renumbered hb hunique (h.reworked.upward ht hup)
  refine ⟨⟨u⟩, ?_, hren.optimized hb h.done, ?_, fun q a => ?_⟩
  · rw [optimize, hrun]
    simp [hgather]
  · exact fun P hl => (hl.reworked h.reworked).renumbered hren
  · rw [hren.indexAt_iff]
    constructor
    · rintro ⟨j, hq, rfl⟩
      refine ⟨?_, h.reworked.kept_of_leads ht h.done _ le_rfl hq⟩
      rw [lookup_of_walk (h.reworked.leads ht hq), h.reworked.index]
    · rintro ⟨hlook, hkept⟩
      rw [lookup, Option.map_eq_some_iff] at hlook
      obtain ⟨j, hj, rfl⟩ := hlook
      exact ⟨j, h.reworked.leads_of_kept ht h.done hkept hj, h.reworked.index j⟩

/-- **`optimize` once more** changes nothing but the numbering. -/
theorem Optimized.optimize {t : RoutesTrie} (h : t.Optimized) :
    ∃ u, t.optimize = some u ∧ u.Optimized ∧ (∀ P, Letters P t → Letters P u) ∧
      ∀ q a, u.IndexAt q a ↔ t.IndexAt q a := by
  have hfuel : t.nodes.length - 0 < (t.nodes.length + 1) ^ 2 := by
    rw [pow_two, Nat.sub_zero]
    exact lt_of_lt_of_le (Nat.lt_succ_self _) (Nat.le_mul_of_pos_left _ (Nat.succ_pos _))
  have hrun := optimizeNode_of_settled h.upward h.done hfuel
  obtain ⟨u, t', φ, hgather, hren⟩ :=
    gather_renumbered h.branching (h.linked.unique h.upward) h.upward
  refine ⟨⟨u⟩, ?_, hren.optimized h.branching h.done, ?_, fun q a => hren.indexAt_iff⟩
  · rw [RoutesTrie.optimize, hrun]
    simp [hgather]
  · exact fun P hl => hl.renumbered hren

/-! ### Tries built by `add` -/

/-- What holds of the links of a trie that routes are added to. -/
structure Grown (P : UInt8 → Prop) (t : RoutesTrie) : Prop where
  wf : t.WellFormed
  upward : t.Upward
  letters : Letters P t

theorem empty_grown (P : UInt8 → Prop) : Grown P empty := by
  have hnode : ∀ i, empty.node i = Node.fresh := by
    intro i
    cases i <;> rfl
  refine ⟨empty_wellFormed, fun i e he => ?_, fun i c hc => ?_⟩
  · rw [hnode] at he
    simp [Node.edges, Node.fresh] at he
  · rw [hnode] at hc
    simp [Node.fresh] at hc

theorem addToken_grown {P : UInt8 → Prop} {t : RoutesTrie} (h : Grown P t) {i : ℕ} {tok : Token}
    (hi : i < t.nodes.length) (htok : ∀ b, tok = .lit b → P b) : Grown P (addToken (t, i) tok).1 := by
  have hwf := addToken_wellFormed h.wf tok hi
  rcases hn : (t.node i).next? tok with _ | j
  swap
  · rwa [addToken_old hn]
  have hlen := (addToken_new hn).2
  refine ⟨hwf, fun k e he => ?_, fun k c hc b hb => ?_⟩
  · obtain ⟨tok', -, hnext⟩ := (edge_iff_next? hwf).mp ⟨e, he, rfl, rfl⟩
    rw [addToken_next? h.wf hi hn] at hnext
    rw [hlen]
    split_ifs at hnext with hnew
    · rw [Option.some_inj] at hnext
      omega
    · obtain ⟨e', he', -, heq⟩ := (edge_iff_next? h.wf).mpr ⟨tok', rfl, hnext⟩
      have := h.upward k e' he'
      omega
  · rw [addToken_node hi hn] at hc
    split_ifs at hc with hk
    · cases tok with
      | lit x =>
        rcases List.mem_append.mp hc with hc | hc
        · exact h.letters i c hc b hb
        · obtain rfl := List.mem_singleton.mp hc
          obtain rfl := List.mem_singleton.mp hb
          exact htok _ rfl
      | param kind => exact h.letters i c hc b hb
    · exact h.letters k c hc b hb

theorem foldl_addToken_grown {P : UInt8 → Prop} {t : RoutesTrie} (h : Grown P t) {i : ℕ}
    {q : List Token} (hi : i < t.nodes.length) (hq : ∀ b, .lit b ∈ q → P b) :
    Grown P (q.foldl addToken (t, i)).1 := by
  induction q generalizing t i with
  | nil => exact h
  | cons tok q ih =>
    have hnext : (addToken (t, i) tok).2 < (addToken (t, i) tok).1.nodes.length := by
      rcases hn : (t.node i).next? tok with _ | j
      · rw [(addToken_new hn).1, (addToken_new hn).2]
        exact Nat.lt_succ_self _
      · rw [addToken_old hn]
        exact (h.wf.range hn).2
    exact ih (addToken_grown h hi fun b hb => hq b (hb ▸ List.mem_cons_self)) hnext
      fun b hb => hq b (List.mem_cons_of_mem _ hb)

theorem setIndex_grown {P : UInt8 → Prop} {t : RoutesTrie} (h : Grown P t) {i : ℕ}
    (hi : i < t.nodes.length) (n : ℕ) : Grown P (t.setIndex i n) := by
  have hnode := setIndex_node (n := n) hi
  have hlen : (t.setIndex i n).nodes.length = t.nodes.length := List.length_set
  refine ⟨setIndex_wellFormed h.wf hi, fun k e he => ?_, fun k c hc => ?_⟩
  · rw [hnode] at he
    rw [hlen]
    split_ifs at he with hk
    · rw [hk]
      exact h.upward _ e he
    · exact h.upward _ e he
  · rw [(setIndex_links hi k).2] at hc
    exact h.letters k c hc

theorem add_grown {P : UInt8 → Prop} {t : RoutesTrie} (h : Grown P t) {url : Bytes} (n : ℕ)
    (hurl : ∀ b, .lit b ∈ tokens url → P b) : Grown P (t.add url n).2 := by
  have hgrown := foldl_addToken_grown h h.wf.pos hurl
  have hend := (foldl_addToken h.wf (p := []) (q := tokens url) rfl).2.1
  have hi := walk_lt hgrown.wf hgrown.wf.pos hend
  rw [add]
  simp only
  split_ifs with hidx
  · exact hgrown
  · exact setIndex_grown hgrown hi n

/-- What `add` keeps holds of a trie after routes were registered. -/
theorem registerAll_induction {I : RoutesTrie → Prop} (hempty : I empty) {routes : List (Bytes × ℕ)}
    (hadd : ∀ t, ∀ x ∈ routes, I t → I (t.add x.1 x.2).2) {t : RoutesTrie}
    (h : registerAll routes = .ok t) : I t := by
  induction routes using List.reverseRecOn generalizing t with
  | nil =>
    obtain rfl : empty = t := by simpa [registerAll, pure, Except.pure] using h
    exact hempty
  | append_singleton routes x ih =>
    obtain ⟨t₀, hr, hx⟩ := registerAll_concat h
    have ht₀ := ih (fun t y hy => hadd t y (List.mem_append_left _ hy)) hr
    have hnext := hadd t₀ x (by simp) ht₀
    rwa [hx] at hnext

/-- The characters along a route are characters of the route. -/
theorem lit_mem_tokens {b : UInt8} {url : Bytes} (h : .lit b ∈ tokens url) : b ∈ url := by
  have hfrom : ∀ {skip : ℕ} {cs : Bytes}, .lit b ∈ tokensFrom skip cs → b ∈ cs := by
    intro skip cs
    induction cs generalizing skip with
    | nil =>
      cases skip <;> simp [tokensFrom]
    | cons c cs ih =>
      intro hmem
      cases skip with
      | succ skip => exact List.mem_cons_of_mem _ (ih hmem)
      | zero =>
        rw [tokensFrom] at hmem
        split_ifs at hmem with hc
        · split at hmem
          · exact List.mem_cons_of_mem _ (ih (by simpa using hmem))
          · exact List.mem_cons_of_mem _ (ih hmem)
        · rcases List.mem_cons.mp hmem with heq | hmem
          · rw [Token.lit.inj heq]
            exact List.mem_cons_self
          · exact List.mem_cons_of_mem _ (ih hmem)
  exact hfrom h

theorem registerAll_grown {P : UInt8 → Prop} {routes : List (Bytes × ℕ)} {t : RoutesTrie}
    (h : registerAll routes = .ok t) (hP : ∀ x ∈ routes, ∀ b ∈ x.1, P b) : Grown P t :=
  registerAll_induction (I := Grown P) (empty_grown P)
    (fun _ x hx ht => add_grown ht x.2 fun b hb => hP x hx b (lit_mem_tokens hb)) h

/-! ### Operations -/

/-- The operations that rework a trie. -/
inductive Op where
  | optimize
  | validate
deriving DecidableEq, Repr

def Op.run : Op → RoutesTrie → Option RoutesTrie
  | .optimize, t => t.optimize
  | .validate, t => t.validate.map Prod.snd

/-- The trie after some operations, one after the other; `validate` may throw and
leave it as it is. -/
def reworked (ops : List Op) (t : RoutesTrie) : Option RoutesTrie :=
  ops.foldlM (fun t op => op.run t) t

/-- What further operations do to an optimized trie. -/
theorem Optimized.reworked {t : RoutesTrie} (h : t.Optimized) (ops : List Op) :
    ∃ u, reworked ops t = some u ∧ u.Optimized ∧ (∀ P, Letters P t → Letters P u) ∧
      ∀ q a, u.IndexAt q a ↔ t.IndexAt q a := by
  induction ops generalizing t with
  | nil => exact ⟨t, rfl, h, fun _ hl => hl, fun _ _ => Iff.rfl⟩
  | cons op ops ih =>
    -- An operation optimizes or leaves the trie as it is.
    have hop : ∃ u, op.run t = some u ∧ u.Optimized ∧ (∀ P, Letters P t → Letters P u) ∧
        ∀ q a, u.IndexAt q a ↔ t.IndexAt q a := by
      obtain ⟨u, hu, hopt⟩ := h.optimize
      cases op with
      | optimize => exact ⟨u, hu, hopt⟩
      | validate =>
        rw [Op.run, validate]
        split_ifs
        · exact ⟨u, by rw [hu]; rfl, hopt⟩
        · exact ⟨t, rfl, h, fun _ hl => hl, fun _ _ => Iff.rfl⟩
    obtain ⟨u, hu, hopt, hl, hidx⟩ := hop
    obtain ⟨u', hu', hopt', hl', hidx'⟩ := ih hopt
    refine ⟨u', ?_, hopt', fun P hP => hl' P (hl P hP), fun q a => (hidx' q a).trans (hidx q a)⟩
    rw [RoutesTrie.reworked, List.foldlM_cons, hu]
    exact hu'

/-! ### Registered routes -/

/-- No route ends at the piece, under an index but 0, and no parameter follows. -/
def SimplePiece (routes : List (Bytes × ℕ)) (q : List Token) : Prop :=
  (∀ x ∈ routes, tokens x.1 = q → x.2 = 0) ∧ ∀ k, ¬Piece routes (q ++ [.param k])

/-- A piece of a registered route that `optimize` keeps. -/
def KeptPiece (routes : List (Bytes × ℕ)) : List Token → Prop :=
  Kept (Piece routes) (SimplePiece routes)

theorem Piece.of_prefix {routes : List (Bytes × ℕ)} {p q : List Token} (h : Piece routes q)
    (hp : p <+: q) : Piece routes p := by
  rcases h with rfl | ⟨x, hx, hq⟩
  · exact .inl (List.prefix_nil.mp hp)
  · exact .inr ⟨x, hx, hp.trans hq⟩

theorem KeptPiece.piece {routes : List (Bytes × ℕ)} {q : List Token} (h : KeptPiece routes q) :
    Piece routes q := Kept.path (.inl rfl) h

/-- The piece is a kept one followed by characters along which all is simple. -/
def Pending (routes : List (Bytes × ℕ)) (q : List Token) : Prop :=
  ∃ (p : List Token) (g : Bytes), q = p ++ g.map .lit ∧ KeptPiece routes p ∧
    ∀ f : Bytes, f ≠ [] → f.length ≤ g.length → Piece routes (p ++ f.map .lit) →
      SimplePiece routes (p ++ f.map .lit)

theorem KeptPiece.pending {routes : List (Bytes × ℕ)} {q : List Token} (h : KeptPiece routes q) :
    Pending routes q := by
  refine ⟨q, [], by simp, h, fun f hf hle => ?_⟩
  exact absurd (List.length_eq_zero_iff.mp (by simpa using hle)) hf

theorem Piece.pending {routes : List (Bytes × ℕ)} {q : List Token} (hq : Piece routes q) :
    Pending routes q := by
  induction q using List.reverseRecOn with
  | nil => exact KeptPiece.pending .head
  | append_singleton q tok ih =>
    obtain ⟨p, g, rfl, hp, hg⟩ := ih (hq.of_prefix (List.prefix_append _ _))
    cases tok with
    | param k =>
      refine KeptPiece.pending (.param ?_ hq)
      by_cases hnil : g = []
      · rw [hnil, List.map_nil, List.append_nil]
        exact hp
      · have hsimple := hg g hnil le_rfl (hq.of_prefix (List.prefix_append _ _))
        exact absurd hq (hsimple.2 k)
    | lit c =>
      have happ : p ++ g.map Token.lit ++ [.lit c] = p ++ (g ++ [c]).map Token.lit := by simp
      have hlen : (g ++ [c]).length = g.length + 1 := by simp
      rw [happ] at hq ⊢
      by_cases hall : ∀ f : Bytes, f.length = g.length + 1 → Piece routes (p ++ f.map .lit) →
          SimplePiece routes (p ++ f.map .lit)
      · refine ⟨p, g ++ [c], rfl, hp, fun f hf hle hpiece => ?_⟩
        by_cases heq : f.length = g.length + 1
        · exact hall f heq hpiece
        · exact hg f hf (by omega) hpiece
      · -- The characters end at a length at which some piece is not simple.
        push Not at hall
        obtain ⟨f, hf, hpiece, hnot⟩ := hall
        refine KeptPiece.pending (.text hp (by simp) hq (fun h hh hlt => hg h hh (by omega)) ?_)
        exact ⟨f, by rw [hf, hlen], hpiece, hnot⟩

/-- A piece that is not simple is kept. -/
theorem keptPiece_of_not_simple {routes : List (Bytes × ℕ)} {q : List Token} (hq : Piece routes q)
    (hns : ¬SimplePiece routes q) : KeptPiece routes q := by
  obtain ⟨p, g, rfl, hp, hg⟩ := hq.pending
  by_cases hnil : g = []
  · simpa [hnil] using hp
  · exact absurd (hg g hnil le_rfl hq) hns

section Registered

variable {routes : List (Bytes × ℕ)} {t : RoutesTrie}

theorem lookup_ne_none_iff_piece (hreg : registerAll routes = .ok t) (q : List Token) :
    t.lookup q ≠ none ↔ Piece routes q := iff_of_eq (congrFun (piece_eq hreg) q)

theorem lookup_eq_some_iff_route (hreg : registerAll routes = .ok t) {q : List Token} {n : ℕ}
    (hn : n ≠ 0) : t.lookup q = some n ↔ ∃ x ∈ routes, tokens x.1 = q ∧ x.2 = n := by
  rw [(registerAll_stores hreg).indices q n hn]
  simp [Prod.ext_iff]

theorem simpleAt_iff (hreg : registerAll routes = .ok t) {q : List Token} (hq : Piece routes q) :
    t.SimpleAt q ↔ SimplePiece routes q := by
  have hwf := (registerAll_stores hreg).wf
  obtain ⟨i, hi⟩ := lookup_ne_none_iff.mp ((lookup_ne_none_iff_piece hreg q).mpr hq)
  have hlook := lookup_of_walk hi
  have hat : t.SimpleAt q ↔ (t.node i).isSimple = true := by
    constructor
    · rintro ⟨j, hj, hs⟩
      obtain rfl : i = j := Option.some.inj (hi.symm.trans hj)
      exact hs
    · exact fun hs => ⟨i, hi, hs⟩
  rw [hat, Node.isSimple_iff]
  refine and_congr ⟨fun h0 x hx hxq => ?_, fun hall => ?_⟩ (forall_congr' fun k => ?_)
  · by_contra hne
    have := (lookup_eq_some_iff_route hreg hne).mpr ⟨x, hx, hxq, rfl⟩
    rw [hlook, h0, Option.some_inj] at this
    exact hne this.symm
  · by_contra hne
    obtain ⟨x, hx, hxq, hn⟩ := (lookup_eq_some_iff_route hreg hne).mp hlook
    exact hne (hn ▸ hall x hx hxq)
  · rw [← lookup_ne_none_iff_piece hreg, lookup_ne_none_iff, walk_concat, hi, Option.bind_some,
      not_exists]
    refine forall_congr' fun j => not_congr ?_
    rw [Node.param_mem_edges]
    simp [Node.next?]

theorem kept_iff_keptPiece (hreg : registerAll routes = .ok t) (q : List Token) :
    Kept (fun q => t.lookup q ≠ none) t.SimpleAt q ↔ KeptPiece routes q := by
  rw [piece_eq hreg]
  exact ⟨Kept.congr fun _ => simpleAt_iff hreg, Kept.congr fun _ hq => (simpleAt_iff hreg hq).symm⟩

/-- The operations optimize: an `optimize`, or a `validate` that does not throw. -/
def Merges (routes : List (Bytes × ℕ)) (ops : List Op) : Prop :=
  .optimize ∈ ops ∨ (.validate ∈ ops ∧ SimplePiece routes [])

/-- A trie with registered routes after operations that optimized it. -/
structure OptimizedFor (routes : List (Bytes × ℕ)) (u : RoutesTrie) : Prop where
  optimized : u.Optimized
  letters : ∀ P : UInt8 → Prop, (∀ x ∈ routes, ∀ b ∈ x.1, P b) → Letters P u
  paths : ∀ q, (∃ a, u.IndexAt q a) ↔ KeptPiece routes q
  indices : ∀ q n, n ≠ 0 → (u.IndexAt q n ↔ ∃ x ∈ routes, tokens x.1 = q ∧ x.2 = n)

theorem optimize_registered (hreg : registerAll routes = .ok t) (ops : List Op) :
    ∃ u, reworked (.optimize :: ops) t = some u ∧ OptimizedFor routes u := by
  have hgrown := registerAll_grown (P := fun _ => True) hreg (fun _ _ _ _ => trivial)
  obtain ⟨u, hu, hopt, hl, hidx⟩ := optimize_wellFormed hgrown.wf hgrown.upward
  obtain ⟨u', hu', hopt', hl', hidx'⟩ := hopt.reworked ops
  have hboth : ∀ q a, u'.IndexAt q a ↔ t.lookup q = some a ∧ KeptPiece routes q := by
    intro q a
    rw [hidx', hidx, kept_iff_keptPiece hreg]
  refine ⟨u', ?_, hopt', fun P hP => ?_, fun q => ?_, fun q n hn => ?_⟩
  · rw [reworked, List.foldlM_cons, Op.run, hu]
    exact hu'
  · exact hl' P (hl P (registerAll_grown hreg hP).letters)
  · simp only [hboth, exists_and_right, and_iff_right_iff_imp]
    intro hq
    exact Option.ne_none_iff_exists'.mp ((lookup_ne_none_iff_piece hreg q).mpr hq.piece)
  · rw [hboth, lookup_eq_some_iff_route hreg hn, and_iff_left_iff_imp]
    rintro ⟨x, hx, rfl, rfl⟩
    refine keptPiece_of_not_simple (.inr ⟨x, hx, List.prefix_rfl⟩) fun hs => ?_
    exact hn (hs.1 x hx rfl)

/-- **The trie after any operations.** -/
theorem reworked_registered (hreg : registerAll routes = .ok t) (ops : List Op) :
    ∃ u, reworked ops t = some u ∧
      ((¬Merges routes ops ∧ u = t) ∨ (Merges routes ops ∧ OptimizedFor routes u)) := by
  induction ops with
  | nil => exact ⟨t, rfl, .inl ⟨by simp [Merges], rfl⟩⟩
  | cons op ops ih =>
    obtain ⟨u, hu, hopt⟩ := optimize_registered hreg ops
    cases op with
    | optimize => exact ⟨u, hu, .inr ⟨.inl List.mem_cons_self, hopt⟩⟩
    | validate =>
      have hhead : (t.node 0).isSimple = true ↔ SimplePiece routes [] := by
        rw [← simpleAt_iff hreg (.inl rfl)]
        exact ⟨fun h => ⟨0, rfl, h⟩, fun ⟨i, hi, h⟩ => by
          rw [walk_nil, Option.some_inj] at hi
          rwa [hi]⟩
      by_cases hs : (t.node 0).isSimple = true
      · refine ⟨u, ?_, .inr ⟨.inr ⟨List.mem_cons_self, hhead.mp hs⟩, hopt⟩⟩
        rw [← hu, reworked, reworked, List.foldlM_cons, List.foldlM_cons, Op.run, Op.run, validate,
          if_pos hs]
        rcases t.optimize with _ | t' <;> rfl
      · -- `validate` throws.
        obtain ⟨u, hu, hcase⟩ := ih
        have hmerges : Merges routes (.validate :: ops) ↔ Merges routes ops := by
          have hns := mt hhead.mpr hs
          simp [Merges, hns]
        refine ⟨u, ?_, by rwa [hmerges]⟩
        rw [← hu, reworked, reworked, List.foldlM_cons, Op.run, validate, if_neg hs]
        rfl

end Registered

end RoutesTrie

end Suil
