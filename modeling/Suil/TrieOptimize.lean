/-
`RoutesTrie::optimize`, the merging of nodes.

`optimizeNode` merges a node with its literal children when all of these are
simple (no index, no parameter): the children are replaced by the grandchildren,
under longer fragments.  It does so until some child is not simple, then it goes
on to the children.

* `level` — what a node leads to along a given number of literal characters;
* `Reworked` — a state of the optimization: every node has the level under it
  that its merges reached;
* `optimizeNode_of_settled` — where nothing can be merged nothing is changed;
* `optimizeNode_spec` — the step: a node and all that it leads to is settled, the
  rest of the trie is left as it was.
-/
import Suil.TrieShape

namespace Suil

namespace RoutesTrie

/-- The parameter types, in the order of the array of links. -/
def paramTypes : List ParamType := [.int, .uint, .double, .string, .path]

/-- `isSimple`: no index and no parameter. -/
def Node.isSimple (n : Node) : Bool := n.index = 0 && paramTypes.all (n.paramChildren · = 0)

/-- `merged[key] = j` on an unordered map. -/
def assign (m : List (Bytes × ℕ)) (key : Bytes) (j : ℕ) : List (Bytes × ℕ) :=
  if key ∈ m.map Prod.fst then m.map fun c => if c.1 = key then (key, j) else c
  else m ++ [(key, j)]

/-- The children of the children, under the concatenated fragments. -/
def merged (t : RoutesTrie) (children : List (Bytes × ℕ)) : List (Bytes × ℕ) :=
  children.foldl (fun m c =>
    (t.node c.2).children.foldl (fun m d => assign m (c.1 ++ d.1) d.2) m) []

/-- The trie with a node written. -/
def setNode (t : RoutesTrie) (i : ℕ) (n : Node) : RoutesTrie := ⟨t.nodes.set i n⟩

/-- `optimizeNode`, on the vector of nodes; `none` when the fuel is used up.
The code's flag `reworked` is set and never read. -/
def optimizeNode : ℕ → RoutesTrie → ℕ → Option RoutesTrie
  | 0, _, _ => none
  | fuel + 1, t, i => do
    let t ← paramTypes.foldlM (fun t k =>
      if (t.node i).paramChildren k = 0 then some t
      else optimizeNode fuel t ((t.node i).paramChildren k)) t
    let children := (t.node i).children
    if children = [] then some t
    else if children.all fun c => (t.node c.2).isSimple then
      optimizeNode fuel (t.setNode i { t.node i with children := t.merged children }) i
    else children.foldlM (fun t c => optimizeNode fuel t c.2) t

/-! ### Levels -/

/-- What node `i` leads to along `m` literal fragments. -/
def level (t : RoutesTrie) (i : ℕ) : ℕ → List (Bytes × ℕ)
  | 0 => [([], i)]
  | m + 1 => (level t i m).flatMap fun c => (t.node c.2).children.map fun d => (c.1 ++ d.1, d.2)

section Level

variable {t : RoutesTrie}

theorem level_one (t : RoutesTrie) (i : ℕ) : t.level i 1 = (t.node i).children := by
  simp [level]

theorem mem_level (ht : t.WellFormed) {i j m : ℕ} {f : Bytes} :
    (f, j) ∈ t.level i m ↔ f.length = m ∧ t.walk i (f.map .lit) = some j := by
  induction m generalizing f j with
  | zero =>
    simp only [level, List.mem_singleton, Prod.mk.injEq, List.length_eq_zero_iff]
    refine and_congr_right fun hf => ?_
    rw [hf, List.map_nil, walk_nil, Option.some_inj, eq_comm]
  | succ m ih =>
    simp only [level, List.mem_flatMap, List.mem_map, Prod.mk.injEq, Prod.exists]
    constructor
    · rintro ⟨g, k, hg, b, _, hb, rfl, rfl⟩
      obtain ⟨rfl, hwalk⟩ := ih.mp hg
      obtain ⟨c, rfl⟩ := ht.fragments _ hb
      refine ⟨by simp, ?_⟩
      rw [List.map_append, List.map_singleton, walk_concat, hwalk]
      exact (lookup_eq_some_iff_mem (ht.keys k)).mpr hb
    · rintro ⟨hlen, hwalk⟩
      rcases List.eq_nil_or_concat' f with rfl | ⟨g, c, rfl⟩
      · simp at hlen
      · rw [List.map_append, List.map_singleton, walk_concat, Option.bind_eq_some_iff] at hwalk
        obtain ⟨k, hk, hnext⟩ := hwalk
        exact ⟨g, k, ih.mpr ⟨by simpa using hlen, hk⟩, [c], j,
          (lookup_eq_some_iff_mem (ht.keys k)).mp hnext, rfl, rfl⟩

/-- The fragments of a level are distinct. -/
theorem level_nodup (ht : t.WellFormed) (i m : ℕ) : ((t.level i m).map Prod.fst).Nodup := by
  induction m with
  | zero => simp [level]
  | succ m ih =>
    rw [level, List.map_flatMap, List.nodup_flatMap]
    constructor
    · intro c _
      rw [List.map_map]
      have hkeys := (ht.keys c.2).map (List.append_right_injective c.1)
      rwa [List.map_map] at hkeys
    · rw [List.nodup_iff_pairwise_ne, List.pairwise_map] at ih
      refine ih.imp_of_mem fun {c c'} hc hc' hne => ?_
      -- Fragments of one length differ before their last characters.
      intro f hf hf'
      simp only [List.map_map, List.mem_map, Function.comp] at hf hf'
      obtain ⟨d, -, rfl⟩ := hf
      obtain ⟨d', -, heq⟩ := hf'
      have hlen : c'.1.length = c.1.length := by
        rw [((mem_level ht).mp hc).1, ((mem_level ht).mp hc').1]
      exact hne (List.append_inj heq hlen).1.symm

/-- Assigning distinct keys one after the other appends them. -/
theorem foldl_assign {l m : List (Bytes × ℕ)} (h : ((m ++ l).map Prod.fst).Nodup) :
    l.foldl (fun m c => assign m c.1 c.2) m = m ++ l := by
  induction l generalizing m with
  | nil => simp
  | cons c l ih =>
    have hnew : c.1 ∉ m.map Prod.fst := by
      rw [List.map_append, List.map_cons, List.nodup_append] at h
      exact fun hmem => h.2.2 _ hmem _ List.mem_cons_self rfl
    rw [List.foldl_cons, assign, if_neg hnew, ih (by simpa using h)]
    simp

/-- Merging a level whose nodes are as they were gives the next one. -/
theorem merged_level {t₀ : RoutesTrie} (ht : t₀.WellFormed) {i m : ℕ}
    (h : ∀ c ∈ t₀.level i m, (t.node c.2).children = (t₀.node c.2).children) :
    t.merged (t₀.level i m) = t₀.level i (m + 1) := by
  have hflat : t.merged (t₀.level i m) =
      ((t₀.level i m).flatMap fun c => (t.node c.2).children.map fun d => (c.1 ++ d.1, d.2)).foldl
        (fun m c => assign m c.1 c.2) [] := by
    simp only [merged, List.foldl_flatMap, List.foldl_map]
  have hlevel : ((t₀.level i m).flatMap fun c =>
      (t.node c.2).children.map fun d => (c.1 ++ d.1, d.2)) = t₀.level i (m + 1) :=
    List.flatMap_congr fun c hc => by rw [h c hc]
  rw [hflat, hlevel, foldl_assign (by simpa using level_nodup ht i (m + 1)), List.nil_append]

end Level

/-! ### Upward links -/

/-- Every link leads to a later node of the vector. -/
def Upward (t : RoutesTrie) : Prop :=
  ∀ i, ∀ e ∈ (t.node i).edges, i < e.child ∧ e.child < t.nodes.length

theorem Upward.walk {t : RoutesTrie} (hup : t.Upward) (ht : t.WellFormed) {i j : ℕ}
    {q : List Token} (h : t.walk i q = some j) :
    i + q.length ≤ j ∧ (q ≠ [] → j < t.nodes.length) := by
  induction q generalizing i with
  | nil =>
    rw [walk_nil, Option.some_inj] at h
    simp [h]
  | cons tok q ih =>
    rw [walk_cons, Option.bind_eq_some_iff] at h
    obtain ⟨k, hnext, h⟩ := h
    obtain ⟨e, he, -, rfl⟩ := (edge_iff_next? ht).mpr ⟨tok, rfl, hnext⟩
    obtain ⟨hlt, hlast⟩ := hup i e he
    have hih := ih h
    refine ⟨by rw [List.length_cons]; omega, fun _ => ?_⟩
    by_cases hq : q = []
    · rw [hq, walk_nil, Option.some_inj] at h
      omega
    · exact hih.2 hq

theorem setNode_node {t : RoutesTrie} {i : ℕ} (hi : i < t.nodes.length) (n : Node) (k : ℕ) :
    (t.setNode i n).node k = if k = i then n else t.node k := by
  simp only [setNode, node, List.getD_eq_getElem?_getD, List.getElem?_set]
  by_cases hk : i = k
  · subst hk
    simp [hi]
  · rw [if_neg hk, if_neg (Ne.symm hk)]

/-! ### Settled nodes -/

/-- Nothing can be merged into the node: it has no literal child, or one that is
not simple. -/
def Settled (t : RoutesTrie) (i : ℕ) : Prop :=
  (t.node i).children = [] ∨ ∃ c ∈ (t.node i).children, (t.node c.2).isSimple = false

/-- Nothing can be merged into the nodes that node `i` leads to. -/
def Done (t : RoutesTrie) (i : ℕ) : Prop := ∀ q k, t.Leads i q k → t.Settled k

theorem Done.child {t : RoutesTrie} {i : ℕ} (h : t.Done i) {e : Edge} (he : e ∈ (t.node i).edges) :
    t.Done e.child := fun q k hq => h (e.tokens ++ q) k (.edge he hq)

theorem done_of_edges {t : RoutesTrie} {i : ℕ} (hi : t.Settled i)
    (h : ∀ e ∈ (t.node i).edges, t.Done e.child) : t.Done i := by
  intro q k hq
  cases hq with
  | here => exact hi
  | edge he hq => exact h _ he _ _ hq

theorem foldlM_eq_some {α β : Type} {f : β → α → Option β} {b : β} {l : List α}
    (h : ∀ a ∈ l, f b a = some b) : l.foldlM f b = some b := by
  induction l with
  | nil => rfl
  | cons a l ih =>
    rw [List.foldlM_cons, h a List.mem_cons_self]
    exact ih fun a' ha' => h a' (List.mem_cons_of_mem _ ha')

/-- **Where nothing can be merged nothing is changed.** -/
theorem optimizeNode_of_settled {t : RoutesTrie} (hup : t.Upward) {fuel i : ℕ} (h : t.Done i)
    (hfuel : t.nodes.length - i < fuel) : optimizeNode fuel t i = some t := by
  induction fuel generalizing i with
  | zero => omega
  | succ fuel ih =>
    have hchild : ∀ e ∈ (t.node i).edges, optimizeNode fuel t e.child = some t := by
      intro e he
      have := hup i e he
      exact ih (h.child he) (by omega)
    have hparams : (paramTypes.foldlM (fun t' k =>
        if (t'.node i).paramChildren k = 0 then some t'
        else optimizeNode fuel t' ((t'.node i).paramChildren k)) t) = some t := by
      refine foldlM_eq_some fun k _ => ?_
      split_ifs with hk
      · rfl
      · exact hchild _ (Node.param_mem_edges.mpr ⟨hk, rfl⟩)
    rw [optimizeNode, hparams]
    simp only [Option.bind_eq_bind, Option.bind_some]
    rcases h [] i (.here i) with hnil | ⟨c, hc, hsimple⟩
    · rw [if_pos hnil]
    · have hall : ¬((t.node i).children.all fun c => (t.node c.2).isSimple) = true := by
        rw [List.all_eq_true]
        intro hall
        rw [hall c hc] at hsimple
        exact absurd hsimple (by simp)
      rw [if_neg (List.ne_nil_of_mem hc), if_neg hall]
      exact foldlM_eq_some fun c hc => hchild _ (Node.text_mem_edges.mpr hc)

/-! ### States of the optimization -/

/-- The node has the level under it that `m` merges reach; the levels between
are simple. -/
structure Stage (t₀ t : RoutesTrie) (i m : ℕ) : Prop where
  children : (t.node i).children = t₀.level i (m + 1)
  simple : ∀ m', m' ≠ 0 → m' ≤ m → ∀ c ∈ t₀.level i m', (t₀.node c.2).isSimple = true

/-- A state of the optimization of the trie `t₀`. -/
structure Reworked (t₀ t : RoutesTrie) : Prop where
  length : t.nodes.length = t₀.nodes.length
  index : ∀ k, (t.node k).index = (t₀.node k).index
  params : ∀ k, (t.node k).paramChildren = (t₀.node k).paramChildren
  stage : ∀ k, ∃ m, Stage t₀ t k m

/-- The nodes at and below the path `r` are as they were. -/
def Fresh (t₀ t : RoutesTrie) (r : List Token) : Prop :=
  ∀ q k, t₀.walk 0 (r ++ q) = some k → t.node k = t₀.node k

section Reworked

variable {t₀ t t' : RoutesTrie}

theorem Reworked.refl (t : RoutesTrie) : Reworked t t :=
  ⟨rfl, fun _ => rfl, fun _ => rfl, fun k => ⟨0, (level_one t k).symm, by omega⟩⟩

theorem Reworked.isSimple (h : Reworked t₀ t) (k : ℕ) :
    (t.node k).isSimple = (t₀.node k).isSimple := by
  rw [Node.isSimple, Node.isSimple, h.index, h.params]

/-- A link of a reworked trie stands for a way through the trie as it was. -/
theorem Reworked.edge (h : Reworked t₀ t) (ht : t₀.WellFormed) {i : ℕ} {e : Edge}
    (he : e ∈ (t.node i).edges) : t₀.walk i e.tokens = some e.child ∧ e.tokens ≠ [] := by
  cases e with
  | param k j =>
    rw [Node.param_mem_edges, h.params] at he
    obtain ⟨tok, htok, hnext⟩ :=
      (edge_iff_next? ht).mp ⟨.param k j, Node.param_mem_edges.mpr he, rfl, rfl⟩
    exact ⟨by rw [htok, walk_cons, hnext]; rfl, List.cons_ne_nil _ _⟩
  | text f j =>
    obtain ⟨m, hm⟩ := h.stage i
    rw [Node.text_mem_edges, hm.children, mem_level ht] at he
    refine ⟨he.2, fun hnil => ?_⟩
    rw [List.map_eq_nil_iff.mp hnil] at he
    simp at he

theorem Reworked.leads (h : Reworked t₀ t) (ht : t₀.WellFormed) {i j : ℕ} {q : List Token}
    (hq : t.Leads i q j) : t₀.walk i q = some j := by
  induction hq with
  | here i => rfl
  | edge he _ ih =>
    rw [walk_append, (h.edge ht he).1, Option.bind_some]
    exact ih

theorem Reworked.upward (h : Reworked t₀ t) (ht : t₀.WellFormed) (hup : t₀.Upward) : t.Upward := by
  intro i e he
  obtain ⟨hwalk, hne⟩ := h.edge ht he
  have hle := hup.walk ht hwalk
  have hpos := List.length_pos_iff.mpr hne
  rw [h.length]
  exact ⟨by omega, hle.2 hne⟩

/-- What is done stays done where nothing changes. -/
theorem Reworked.done_of_agree (h : Reworked t₀ t) (h' : Reworked t₀ t') (ht : t₀.WellFormed)
    {r : List Token} {i : ℕ} (hi : t₀.walk 0 r = some i)
    (hagree : ∀ q k, t₀.walk 0 (r ++ q) = some k → t'.node k = t.node k) (hdone : t.Done i) :
    t'.Done i := by
  have hback : ∀ {i q k}, t'.Leads i q k → ∀ {r}, t₀.walk 0 r = some i →
      (∀ q k, t₀.walk 0 (r ++ q) = some k → t'.node k = t.node k) → t.Leads i q k := by
    intro i q k hq
    induction hq with
    | here i => exact fun _ _ => .here i
    | @edge i j e q he _ ih =>
      intro r hi hagree
      have hwalk : t₀.walk 0 (r ++ e.tokens) = some e.child := by
        rw [walk_append, hi]
        exact (h'.edge ht he).1
      have hnode := hagree [] i (by rwa [List.append_nil])
      refine .edge (hnode ▸ he) (ih hwalk fun q k hqk => hagree (e.tokens ++ q) k ?_)
      rwa [← List.append_assoc]
  intro q k hq
  have hwalk : t₀.walk 0 (r ++ q) = some k := by
    rw [walk_append, hi]
    exact h'.leads ht hq
  have hnode := hagree q k hwalk
  rcases hdone q k (hback hq hi hagree) with hnil | ⟨c, hc, hsimple⟩
  · exact .inl (by rw [hnode, hnil])
  · refine .inr ⟨c, by rwa [hnode], ?_⟩
    rwa [h'.isSimple, ← h.isSimple]

end Reworked

/-! ### The step -/

section Step

variable {t₀ : RoutesTrie}

/-- What a call for the node at the path `r` does: the node is done, the nodes
that are not below it keep their contents. -/
structure Handled (t₀ t t' : RoutesTrie) (r : List Token) (i : ℕ) : Prop where
  reworked : Reworked t₀ t'
  done : t'.Done i
  frame : ∀ k, (∀ q, t₀.walk 0 (r ++ q) ≠ some k) → t'.node k = t.node k

/-- A link of the node at the path `r` that a call may be made for: what it leads
to is as it was, or done before. -/
def Ready (t₀ t : RoutesTrie) (r : List Token) (e : Edge) : Prop :=
  e.tokens ≠ [] ∧ t₀.walk 0 (r ++ e.tokens) = some e.child ∧
    (Fresh t₀ t (r ++ e.tokens) ∨ t.Done e.child)

/-- The calls for the links of the node at the path `r` do what they should. -/
def Calls (t₀ : RoutesTrie) (fuel : ℕ) (r : List Token) : Prop :=
  ∀ t e, Reworked t₀ t → Ready t₀ t r e →
    ∃ t', optimizeNode fuel t e.child = some t' ∧ Handled t₀ t t' (r ++ e.tokens) e.child

/-- Calls for some links of the node at the path `r`, one after the other. -/
theorem foldlM_handled {α : Type} (ht : t₀.WellFormed) {fuel : ℕ} {r : List Token}
    (link : α → Option Edge) {body : RoutesTrie → α → Option RoutesTrie}
    (hbody : ∀ t a, Reworked t₀ t →
      body t a = (link a).elim (some t) fun e => optimizeNode fuel t e.child)
    (hcalls : Calls t₀ fuel r) {as : List α}
    (hapart : as.Pairwise fun a a' => ∀ e ∈ link a, ∀ e' ∈ link a', Apart e e') :
    ∀ {t}, Reworked t₀ t → (∀ a ∈ as, ∀ e ∈ link a, Ready t₀ t r e) →
      ∃ t', as.foldlM body t = some t' ∧ Reworked t₀ t' ∧
        (∀ a ∈ as, ∀ e ∈ link a, t'.Done e.child) ∧
        ∀ k, (∀ a ∈ as, ∀ e ∈ link a, ∀ q, t₀.walk 0 (r ++ e.tokens ++ q) ≠ some k) →
          t'.node k = t.node k := by
  induction as with
  | nil =>
    intro t h _
    exact ⟨t, rfl, h, by simp, fun _ _ => rfl⟩
  | cons a as ih =>
    intro t h hready
    rw [List.pairwise_cons] at hapart
    rw [List.foldlM_cons, hbody t a h]
    rcases hlink : link a with _ | e
    · -- No link: the call is skipped.
      obtain ⟨t', hrun, h', hdone, hframe⟩ :=
        ih hapart.2 h fun a' ha' => hready a' (List.mem_cons_of_mem _ ha')
      refine ⟨t', hrun, h', ?_, fun k hk => ?_⟩
      · intro a' ha' e' he'
        rcases List.mem_cons.mp ha' with rfl | ha'
        · simp [hlink] at he'
        · exact hdone a' ha' e' he'
      · exact hframe k fun a' ha' => hk a' (List.mem_cons_of_mem _ ha')
    · obtain ⟨t₁, hrun₁, h₁⟩ := hcalls t e h (hready a List.mem_cons_self e hlink)
      have hwalk := (hready a List.mem_cons_self e hlink).2.1
      -- The call leaves what is below the other links as it was.
      have hother : ∀ a' ∈ as, ∀ e' ∈ link a', ∀ q k, t₀.walk 0 (r ++ e'.tokens ++ q) = some k →
          ∀ q', t₀.walk 0 (r ++ e.tokens ++ q') ≠ some k := by
        intro a' ha' e' he' q k hk q' hk'
        have heq := walk_inj ht hk hk'
        rw [List.append_assoc, List.append_assoc, List.append_cancel_left_eq] at heq
        exact hapart.1 a' ha' e hlink e' he' q' q heq.symm
      have hready₁ : ∀ a' ∈ as, ∀ e' ∈ link a', Ready t₀ t₁ r e' := by
        intro a' ha' e' he'
        obtain ⟨hne', hwalk', hstate'⟩ := hready a' (List.mem_cons_of_mem _ ha') e' he'
        have hagree : ∀ q k, t₀.walk 0 (r ++ e'.tokens ++ q) = some k → t₁.node k = t.node k :=
          fun q k hk => h₁.frame k (hother a' ha' e' he' q k hk)
        refine ⟨hne', hwalk', hstate'.imp (fun hfresh q k hk => ?_) fun hdone => ?_⟩
        · rw [hagree q k hk]
          exact hfresh q k hk
        · exact h.done_of_agree h₁.reworked ht hwalk' hagree hdone
      obtain ⟨t', hrun, h', hdone, hframe⟩ := ih hapart.2 h₁.reworked hready₁
      refine ⟨t', ?_, h', ?_, fun k hk => ?_⟩
      · simp only [Option.elim_some, hrun₁, Option.bind_eq_bind, Option.bind_some]
        exact hrun
      · intro a' ha' e' he'
        rcases List.mem_cons.mp ha' with rfl | ha'
        · obtain rfl : e = e' := Option.some.inj (hlink.symm.trans he')
          refine h₁.reworked.done_of_agree h' ht hwalk (fun q k hk => hframe k ?_) h₁.done
          exact fun a' ha' e' he' q' hk' => hother a' ha' e' he' q' k hk' q hk
        · exact hdone a' ha' e' he'
      · rw [hframe k fun a' ha' => hk a' (List.mem_cons_of_mem _ ha')]
        exact h₁.frame k (hk a List.mem_cons_self e hlink)

/-- The loop over the parameter children. -/
theorem params_handled (ht : t₀.WellFormed) {fuel i : ℕ} {r : List Token} {t : RoutesTrie}
    (hi : t₀.walk 0 r = some i) (hcalls : Calls t₀ fuel r) (h : Reworked t₀ t)
    (hparams : ∀ kind x, (t₀.node i).next? (.param kind) = some x →
      Fresh t₀ t (r ++ [.param kind]) ∨ t.Done x) :
    ∃ t', (paramTypes.foldlM (fun t k =>
        if (t.node i).paramChildren k = 0 then some t
        else optimizeNode fuel t ((t.node i).paramChildren k)) t) = some t' ∧ Reworked t₀ t' ∧
      (∀ kind x, (t₀.node i).next? (.param kind) = some x → t'.Done x) ∧
      ∀ k, (∀ kind q, t₀.walk 0 (r ++ .param kind :: q) ≠ some k) → t'.node k = t.node k := by
  let link : ParamType → Option Edge := fun kind =>
    ((t₀.node i).next? (.param kind)).map fun x => .param kind x
  have hlink : ∀ kind e, e ∈ link kind → ∃ x, (t₀.node i).next? (.param kind) = some x ∧
      e = .param kind x := by
    intro kind e he
    obtain ⟨x, hx, rfl⟩ := Option.map_eq_some_iff.mp he
    exact ⟨x, hx, rfl⟩
  have hbody : ∀ t kind, Reworked t₀ t →
      (if (t.node i).paramChildren kind = 0 then some t
        else optimizeNode fuel t ((t.node i).paramChildren kind)) =
      (link kind).elim (some t) fun e => optimizeNode fuel t e.child := by
    intro t kind h
    rw [h.params]
    simp only [link, Node.next?]
    split_ifs <;> rfl
  have hapart : paramTypes.Pairwise fun kind kind' =>
      ∀ e ∈ link kind, ∀ e' ∈ link kind', Apart e e' := by
    have hne : paramTypes.Pairwise (· ≠ ·) := by decide
    refine hne.imp fun {kind kind'} hne e he e' he' => ?_
    obtain ⟨x, -, rfl⟩ := hlink kind e he
    obtain ⟨x', -, rfl⟩ := hlink kind' e' he'
    exact apart_params hne
  have hall : ∀ kind, kind ∈ paramTypes := by
    intro kind
    cases kind <;> decide
  obtain ⟨t', hrun, h', hdone, hframe⟩ := foldlM_handled ht link hbody hcalls hapart h (by
    intro kind _ e he
    obtain ⟨x, hx, rfl⟩ := hlink kind e he
    refine ⟨List.cons_ne_nil _ _, ?_, hparams kind x hx⟩
    rw [Edge.tokens, walk_concat, hi]
    exact hx)
  refine ⟨t', hrun, h', fun kind x hx => ?_, fun k hk => ?_⟩
  · exact hdone kind (hall kind) (.param kind x) (Option.map_eq_some_iff.mpr ⟨x, hx, rfl⟩)
  · refine hframe k fun kind _ e he q => ?_
    obtain ⟨x, -, rfl⟩ := hlink kind e he
    simpa [Edge.tokens] using hk kind q

/-- The loop over the literal children. -/
theorem children_handled (ht : t₀.WellFormed) {fuel i m : ℕ} {r : List Token} {t : RoutesTrie}
    (hi : t₀.walk 0 r = some i) (hcalls : Calls t₀ fuel r) (h : Reworked t₀ t)
    (hlits : ∀ b q k, t₀.walk 0 (r ++ .lit b :: q) = some k → t.node k = t₀.node k) :
    ∃ t', ((t₀.level i (m + 1)).foldlM (fun t c => optimizeNode fuel t c.2) t) = some t' ∧
      Reworked t₀ t' ∧ (∀ c ∈ t₀.level i (m + 1), t'.Done c.2) ∧
      ∀ k, (∀ b q, t₀.walk 0 (r ++ .lit b :: q) ≠ some k) → t'.node k = t.node k := by
  have hne : ∀ c ∈ t₀.level i (m + 1), c.1 ≠ [] := by
    intro c hc hnil
    have := ((mem_level ht).mp hc).1
    simp [hnil] at this
  let link : Bytes × ℕ → Option Edge := fun c => some (.text c.1 c.2)
  have hapart : (t₀.level i (m + 1)).Pairwise fun c c' =>
      ∀ e ∈ link c, ∀ e' ∈ link c', Apart e e' := by
    have hkeys := level_nodup ht i (m + 1)
    rw [List.nodup_iff_pairwise_ne, List.pairwise_map] at hkeys
    refine hkeys.imp_of_mem fun {c c'} hc hc' hne e he e' he' => ?_
    obtain rfl := Option.some.inj he
    obtain rfl := Option.some.inj he'
    exact apart_texts (((mem_level ht).mp hc).1.trans ((mem_level ht).mp hc').1.symm) hne
  obtain ⟨t', hrun, h', hdone, hframe⟩ := foldlM_handled ht link (fun _ _ _ => rfl) hcalls
    hapart h (by
    intro c hc e he
    obtain rfl := Option.some.inj he
    obtain ⟨b, f, hf⟩ := List.exists_cons_of_ne_nil (hne c hc)
    refine ⟨?_, ?_, .inl fun q k hk => hlits b (f.map .lit ++ q) k ?_⟩
    · simpa [Edge.tokens] using hne c hc
    · rw [walk_append, hi]
      exact ((mem_level ht).mp hc).2
    · simpa [Edge.tokens, hf] using hk)
  refine ⟨t', hrun, h', fun c hc => hdone c hc _ rfl, fun k hk => ?_⟩
  refine hframe k fun c hc e he q => ?_
  obtain rfl := Option.some.inj he
  obtain ⟨b, f, hf⟩ := List.exists_cons_of_ne_nil (hne c hc)
  simpa [Edge.tokens, hf] using hk b (f.map .lit ++ q)

/-- The measure of a call: the nodes above, then the merges that are left. -/
def cost (t₀ : RoutesTrie) (i m : ℕ) : ℕ :=
  (t₀.nodes.length + 1) * (t₀.nodes.length - i) + (t₀.nodes.length - m)

theorem cost_child {i j : ℕ} (m : ℕ) (hij : i < j) (hj : j < t₀.nodes.length) :
    cost t₀ j 0 < cost t₀ i m := by
  have hmul : (t₀.nodes.length + 1) * (t₀.nodes.length - j) + (t₀.nodes.length + 1) ≤
      (t₀.nodes.length + 1) * (t₀.nodes.length - i) := by
    rw [← Nat.mul_succ]
    exact Nat.mul_le_mul_left _ (by omega)
  simp only [cost]
  omega

theorem length_sub_le_cost (i m : ℕ) : t₀.nodes.length - i ≤ cost t₀ i m :=
  (Nat.le_mul_of_pos_left _ (Nat.succ_pos _)).trans (Nat.le_add_right _ _)

/-- A level that is not empty is no deeper than the vector is long. -/
theorem cost_merge (ht : t₀.WellFormed) (hup : t₀.Upward) {i m : ℕ}
    (hnil : t₀.level i (m + 1) ≠ []) : cost t₀ i (m + 1) < cost t₀ i m := by
  obtain ⟨⟨f, j⟩, hc⟩ := List.exists_mem_of_ne_nil _ hnil
  obtain ⟨hlen, hwalk⟩ := (mem_level ht).mp hc
  have hlt := hup.walk ht hwalk
  rw [List.length_map, hlen] at hlt
  have := hlt.2 (by
    rw [Ne, List.map_eq_nil_iff, ← List.length_eq_zero_iff]
    omega)
  simp only [cost]
  omega

/-- A merge keeps everything but the children of its node. -/
theorem Reworked.merge (h : Reworked t₀ t) {i m : ℕ} (hi : i < t.nodes.length)
    {cs : List (Bytes × ℕ)}
    (hstage : Stage t₀ (t.setNode i { t.node i with children := cs }) i m) :
    Reworked t₀ (t.setNode i { t.node i with children := cs }) := by
  have hnode := setNode_node hi { t.node i with children := cs }
  refine ⟨List.length_set.trans h.length, fun k => ?_, fun k => ?_, fun k => ?_⟩
  · rw [hnode]
    split_ifs with hk
    · rw [hk]
      exact h.index i
    · exact h.index k
  · rw [hnode]
    split_ifs with hk
    · rw [hk]
      exact h.params i
    · exact h.params k
  · by_cases hk : k = i
    · rw [hk]
      exact ⟨m, hstage⟩
    · obtain ⟨m', hm'⟩ := h.stage k
      exact ⟨m', by rw [hnode, if_neg hk]; exact hm'.children, hm'.simple⟩

/-- **What `optimizeNode` does**, for the node at the path `r` after `m` merges,
with nothing below it changed but parameter children that are done. -/
theorem optimizeNode_spec (ht : t₀.WellFormed) (hup : t₀.Upward) {fuel : ℕ} :
    ∀ {t i r m}, t₀.walk 0 r = some i → Reworked t₀ t → Stage t₀ t i m →
      (∀ b q k, t₀.walk 0 (r ++ .lit b :: q) = some k → t.node k = t₀.node k) →
      (∀ kind x, (t₀.node i).next? (.param kind) = some x →
        Fresh t₀ t (r ++ [.param kind]) ∨ t.Done x) →
      cost t₀ i m < fuel → ∃ t', optimizeNode fuel t i = some t' ∧ Handled t₀ t t' r i := by
  induction fuel with
  | zero =>
    intro t i r m _ _ _ _ _ hfuel
    exact absurd hfuel (Nat.not_lt_zero _)
  | succ fuel ih =>
    intro t i r m hi h hstage hlits hparams hfuel
    have hin : i < t₀.nodes.length := walk_lt ht ht.pos hi
    have hcalls : Calls t₀ fuel r := by
      rintro t e h ⟨hne, hwalk, hstate⟩
      have hcost : cost t₀ e.child 0 < fuel := by
        rw [walk_append, hi, Option.bind_some] at hwalk
        have hlt := hup.walk ht hwalk
        have hpos := List.length_pos_iff.mpr hne
        have := cost_child m (by omega : i < e.child) (hlt.2 hne)
        omega
      rcases hstate with hfresh | hdone
      · have hnode := hfresh [] e.child (by rwa [List.append_nil])
        refine ih hwalk h ⟨by rw [hnode, level_one], by omega⟩ (fun b q k => hfresh _ k) ?_ hcost
        intro kind x _
        refine .inl fun q k hk => hfresh (.param kind :: q) k ?_
        simpa using hk
      · -- A child that is done stays as it is.
        have hle : t₀.nodes.length - e.child ≤ cost t₀ e.child 0 := length_sub_le_cost _ _
        exact ⟨t, optimizeNode_of_settled (h.upward ht hup) hdone (by rw [h.length]; omega),
          h, hdone, fun _ _ => rfl⟩
    obtain ⟨t₁, hrun₁, h₁, hdone₁, hframe₁⟩ := params_handled ht hi hcalls h hparams
    have hown₁ : ∀ k, (∀ q, q ≠ [] → t₀.walk 0 (r ++ q) ≠ some k) → t₁.node k = t.node k :=
      fun k hk => hframe₁ k fun kind q => hk _ (List.cons_ne_nil _ _)
    -- No node is below itself.
    have hself : ∀ q, q ≠ [] → t₀.walk 0 (r ++ q) ≠ some i := by
      intro q hq hwalk
      exact hq (List.append_right_eq_self.mp (walk_inj ht hwalk hi))
    have hlits₁ : ∀ b q k, t₀.walk 0 (r ++ .lit b :: q) = some k → t₁.node k = t₀.node k := by
      intro b q k hk
      rw [hframe₁ k fun kind q' hk' => by simpa using walk_inj ht hk hk']
      exact hlits b q k hk
    have hstage₁ : Stage t₀ t₁ i m := ⟨by rw [hown₁ i hself, hstage.children], hstage.simple⟩
    rw [optimizeNode, hrun₁]
    simp only [Option.bind_eq_bind, Option.bind_some, hstage₁.children]
    by_cases hnil : t₀.level i (m + 1) = []
    · -- No literal child.
      rw [if_pos hnil]
      refine ⟨t₁, rfl, h₁, done_of_edges (.inl (hstage₁.children.trans hnil)) ?_, ?_⟩
      · intro e he
        cases e with
        | param kind x =>
          rw [Node.param_mem_edges, h₁.params] at he
          exact hdone₁ kind x (by rw [Node.next?, if_neg he.1, he.2])
        | text f j =>
          rw [Node.text_mem_edges, hstage₁.children, hnil] at he
          simp at he
      · exact fun k hk => hown₁ k fun q _ => hk q
    rw [if_neg hnil]
    by_cases hall : ((t₀.level i (m + 1)).all fun c => (t₁.node c.2).isSimple) = true
    · -- The node is merged with its children.
      rw [if_pos hall]
      have hmerged : t₁.merged (t₀.level i (m + 1)) = t₀.level i (m + 2) := by
        refine merged_level ht fun c hc => ?_
        obtain ⟨hlen, hwalk⟩ := (mem_level ht).mp hc
        obtain ⟨b, f, hf⟩ := List.exists_cons_of_length_eq_add_one hlen
        rw [hlits₁ b (f.map .lit) c.2 (by rw [walk_append, hi]; simpa [hf] using hwalk)]
      rw [hmerged]
      have hi₁ : i < t₁.nodes.length := by rwa [h₁.length]
      have hnode := setNode_node hi₁ { t₁.node i with children := t₀.level i (m + 2) }
      have hstage₂ : Stage t₀
          (t₁.setNode i { t₁.node i with children := t₀.level i (m + 2) }) i (m + 1) := by
        refine ⟨by rw [hnode, if_pos rfl], fun m' hm' hle c hc => ?_⟩
        by_cases hlast : m' ≤ m
        · exact hstage.simple m' hm' hlast c hc
        · obtain rfl : m' = m + 1 := by omega
          rw [List.all_eq_true] at hall
          rw [← h₁.isSimple]
          exact hall c hc
      have h₂ := h₁.merge hi₁ hstage₂
      generalize t₁.setNode i { t₁.node i with children := t₀.level i (m + 2) } = t₂
        at hnode hstage₂ h₂
      have hother : ∀ k, k ≠ i → t₂.node k = t₁.node k := fun k hk => by rw [hnode, if_neg hk]
      have hne : ∀ q k, q ≠ [] → t₀.walk 0 (r ++ q) = some k → k ≠ i := by
        rintro q k hq hk rfl
        exact hself q hq hk
      have hcost : cost t₀ i (m + 1) < fuel := by
        have := cost_merge ht hup hnil
        omega
      obtain ⟨t', hrun, h', hdone, hframe⟩ := ih hi h₂ hstage₂
        (fun b q k hk => by
          rw [hother k (hne _ k (List.cons_ne_nil _ _) hk)]
          exact hlits₁ b q k hk)
        (fun kind x hx => .inr (by
          refine h₁.done_of_agree h₂ ht (r := r ++ [.param kind]) ?_ (fun q k hk => hother k ?_)
            (hdone₁ kind x hx)
          · rw [walk_concat, hi]
            exact hx
          · rw [List.append_assoc] at hk
            exact hne _ k (by simp) hk)) hcost
      refine ⟨t', hrun, h', hdone, fun k hk => ?_⟩
      rw [hframe k hk, hother k, hown₁ k fun q _ => hk q]
      rintro rfl
      exact hk [] (by rwa [List.append_nil])
    · -- Some child is not simple.
      rw [if_neg hall]
      obtain ⟨t', hrun, h', hdone, hframe⟩ := children_handled (m := m) ht hi hcalls h₁ hlits₁
      have hnode : t'.node i = t₁.node i :=
        hframe i fun b q => hself _ (List.cons_ne_nil _ _)
      refine ⟨t', hrun, h', done_of_edges ?_ ?_, ?_⟩
      · simp only [List.all_eq_true, not_forall, Bool.not_eq_true] at hall
        obtain ⟨c, hc, hsimple⟩ := hall
        refine .inr ⟨c, by rwa [hnode, hstage₁.children], ?_⟩
        rwa [h'.isSimple, ← h₁.isSimple]
      · intro e he
        cases e with
        | param kind x =>
          rw [Node.param_mem_edges, h'.params] at he
          have hx : (t₀.node i).next? (.param kind) = some x := by
            rw [Node.next?, if_neg he.1, he.2]
          refine h₁.done_of_agree h' ht (r := r ++ [.param kind]) ?_ (fun q k hk => hframe k ?_)
            (hdone₁ kind x hx)
          · rw [walk_concat, hi]
            exact hx
          · intro b q' hk'
            simpa using walk_inj ht hk hk'
        | text f j =>
          rw [Node.text_mem_edges, hnode, hstage₁.children] at he
          exact hdone (f, j) he
      · intro k hk
        rw [hframe k fun b q => hk _]
        exact hown₁ k fun q _ => hk q

end Step

end RoutesTrie

end Suil
