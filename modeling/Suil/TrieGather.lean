/-
`RoutesTrie::optimize`, the renumbering of the nodes.

`gather` copies a node and everything that it leads to behind the nodes copied
before, and rewrites the old vector as it goes: the links of a node become the
positions of the copies, and its children are moved out.

* `Copied` — a block of nodes is a copy of some nodes and of all that these lead
  to, with every position of the block but the first ones linked to just once;
* `gather_spec` — the step: `gather` appends a copy, and empties nothing but the
  nodes copied;
* `optimize`, `validate` — the operations;
* `Renumbered` — a trie that is a copy of another one leads along the same paths
  to nodes with the same index.
-/
import Suil.TrieOptimize

namespace Suil

namespace RoutesTrie

/-- `gather`: the nodes copied so far and the old vector.  The code rewrites the
links of the old node one by one; no one else reads them meanwhile. -/
def gather : ℕ → List Node × RoutesTrie → ℕ → Option (List Node × RoutesTrie)
  | 0, _, _ => none
  | fuel + 1, (dst, t), i => do
    let node := t.node i
    let (s, children) ← node.children.foldlM (fun (s, children) c => do
      let s' ← gather fuel s c.2
      some (s', children ++ [(c.1, s.1.length)])) ((dst ++ [Node.fresh], t), [])
    let (s, params) ← paramTypes.foldlM (fun (s, params) k =>
      if node.paramChildren k = 0 then some (s, params)
      else do
        let s' ← gather fuel s (node.paramChildren k)
        some (s', Function.update params k s.1.length)) (s, node.paramChildren)
    some (s.1.set dst.length { index := node.index, paramChildren := params, children := children },
      s.2.setNode i { node with children := [], paramChildren := params })

/-- `optimize`: merge nodes, then copy the ones that are still linked to.  The
code repeats the body of `gather` for the head. -/
def optimize (t : RoutesTrie) : Option RoutesTrie := do
  let t ← optimizeNode ((t.nodes.length + 1) ^ 2) t 0
  let (dst, _) ← gather (t.nodes.length + 1) ([], t) 0
  some ⟨dst⟩

/-- `validate`: the outcome (the message of the exception) and the trie. -/
def validate (t : RoutesTrie) : Option (Except Bytes Unit × RoutesTrie) :=
  if (t.node 0).isSimple then t.optimize.map fun t => (.ok (), t)
  else some (.error (ascii "Router trie header should be simple!"), t)

/-! ### Copies -/

/-- The link with its target renamed. -/
def Edge.rename (φ : ℕ → ℕ) : Edge → Edge
  | .param k j => .param k (φ j)
  | .text f j => .text f (φ j)

@[simp] theorem Edge.rename_child (φ : ℕ → ℕ) (e : Edge) : (e.rename φ).child = φ e.child := by
  cases e <;> rfl

@[simp] theorem Edge.rename_tokens (φ : ℕ → ℕ) (e : Edge) : (e.rename φ).tokens = e.tokens := by
  cases e <;> rfl

theorem Edge.rename_congr {φ ψ : ℕ → ℕ} {e : Edge} (h : φ e.child = ψ e.child) :
    e.rename φ = e.rename ψ := by
  cases e <;> simp_all [rename, child]

/-- The positions that a node links to. -/
def Node.links (n : Node) : List ℕ := n.edges.map Edge.child

/-- The node `n` is a copy of `n'`, whose links `φ` tells from those of `n`. -/
structure Node.Copies (φ : ℕ → ℕ) (n n' : Node) : Prop where
  index : n.index = n'.index
  edges : n.edges.map (Edge.rename φ) = n'.edges

theorem Node.Copies.congr {φ ψ : ℕ → ℕ} {n n' : Node} (h : n.Copies φ n')
    (heq : ∀ j ∈ n.links, φ j = ψ j) : n.Copies ψ n' := by
  refine ⟨h.index, ?_⟩
  rw [← h.edges]
  refine List.map_congr_left fun e he => Edge.rename_congr ?_
  exact (heq _ (List.mem_map_of_mem he)).symm

/-- `block`, whose first position is `base`, holds copies of the nodes of `src`
told by `φ`; a root is a position and the node it is the copy of.  Every position
is a root or linked to from the block, and just once. -/
structure Copied (src : RoutesTrie) (base : ℕ) (roots : List (ℕ × ℕ)) (block : List Node)
    (φ : ℕ → ℕ) : Prop where
  origins : ∀ x ∈ roots, φ x.1 = x.2
  nodes : ∀ k n, block[k]? = some n → n.Copies φ (src.node (φ (base + k))) ∧
    ∀ j ∈ n.links, base + k < j
  links : (roots.map Prod.fst ++ block.flatMap Node.links).Perm (List.range' base block.length)

section Copied

variable {src : RoutesTrie} {base : ℕ} {roots : List (ℕ × ℕ)} {block : List Node} {φ : ℕ → ℕ}

theorem copied_nil (src : RoutesTrie) (base : ℕ) (φ : ℕ → ℕ) : Copied src base [] [] φ :=
  ⟨by simp, by simp, by simp⟩

theorem Copied.root_lt (h : Copied src base roots block φ) {x : ℕ × ℕ} (hx : x ∈ roots) :
    base ≤ x.1 ∧ x.1 < base + block.length := by
  have hmem := h.links.mem_iff.mp (List.mem_append_left _ (List.mem_map_of_mem (f := Prod.fst) hx))
  simpa [List.mem_range'_1] using hmem

theorem Copied.link_lt (h : Copied src base roots block φ) {n : Node} (hn : n ∈ block) {j : ℕ}
    (hj : j ∈ n.links) : base ≤ j ∧ j < base + block.length := by
  have hmem := h.links.mem_iff.mp (List.mem_append_right _ (List.mem_flatMap.mpr ⟨n, hn, hj⟩))
  simpa [List.mem_range'_1] using hmem

/-- Two blocks side by side. -/
theorem Copied.append {roots' : List (ℕ × ℕ)} {block' : List Node} {ψ : ℕ → ℕ}
    (h : Copied src base roots block φ)
    (h' : Copied src (base + block.length) roots' block' ψ) :
    Copied src base (roots ++ roots') (block ++ block')
      (fun k => if k < base + block.length then φ k else ψ k) := by
  refine ⟨fun x hx => ?_, fun k n hk => ?_, ?_⟩
  · rcases List.mem_append.mp hx with hx | hx
    · rw [if_pos (h.root_lt hx).2, h.origins x hx]
    · rw [if_neg (by have := h'.root_lt hx; omega), h'.origins x hx]
  · rcases Nat.lt_or_ge k block.length with hlt | hge
    · rw [List.getElem?_append_left hlt] at hk
      obtain ⟨hcopy, hup⟩ := h.nodes k n hk
      have hn := List.mem_of_getElem? hk
      rw [if_pos (by omega)]
      refine ⟨hcopy.congr fun j hj => ?_, hup⟩
      rw [if_pos (h.link_lt hn hj).2]
    · rw [List.getElem?_append_right hge] at hk
      obtain ⟨hcopy, hup⟩ := h'.nodes _ n hk
      have hn := List.mem_of_getElem? hk
      have hpos : base + block.length + (k - block.length) = base + k := by omega
      rw [hpos] at hcopy hup
      rw [if_neg (by omega)]
      refine ⟨hcopy.congr fun j hj => ?_, hup⟩
      rw [if_neg (by have := h'.link_lt hn hj; omega)]
  · rw [List.map_append, List.flatMap_append, List.length_append, ← List.range'_append_1]
    refine List.Perm.trans ?_ (h.links.append h'.links)
    rw [List.append_assoc, List.append_assoc]
    refine List.Perm.append_left _ ?_
    rw [← List.append_assoc, ← List.append_assoc]
    exact List.Perm.append_right _ List.perm_append_comm

/-- A node in front of the copies of what it links to. -/
theorem Copied.cons {i : ℕ} {n : Node} (h : Copied src (base + 1) roots block φ)
    (hn : n.Copies φ (src.node i)) (hlinks : n.links.Perm (roots.map Prod.fst)) :
    Copied src base [(base, i)] (n :: block) (Function.update φ base i) := by
  have hlink : ∀ j ∈ n.links, base < j := by
    intro j hj
    obtain ⟨x, hx, rfl⟩ := List.mem_map.mp (hlinks.mem_iff.mp hj)
    have := h.root_lt hx
    omega
  have hsame : ∀ j, base < j → φ j = Function.update φ base i j := by
    intro j hj
    rw [Function.update_of_ne (by omega)]
  refine ⟨by simp, fun k m hk => ?_, ?_⟩
  · cases k with
    | zero =>
      obtain rfl : n = m := by simpa using hk
      rw [Nat.add_zero, Function.update_self]
      exact ⟨hn.congr fun j hj => hsame j (hlink j hj), hlink⟩
    | succ k =>
      rw [List.getElem?_cons_succ] at hk
      obtain ⟨hcopy, hup⟩ := h.nodes k m hk
      have hpos : base + 1 + k = base + (k + 1) := by omega
      rw [hpos] at hcopy hup
      rw [← hsame _ (by omega)]
      exact ⟨hcopy.congr fun j hj => hsame j (by have := hup j hj; omega), hup⟩
  · simp only [List.map_cons, List.map_nil, List.flatMap_cons, List.singleton_append,
      List.length_cons, List.range'_succ]
    exact ((hlinks.append_right _).trans h.links).cons _

end Copied

/-! ### The step -/

theorem setNode_other {t : RoutesTrie} {i k : ℕ} (n : Node) (hk : k ≠ i) :
    (t.setNode i n).node k = t.node k := by
  simp only [setNode, node, List.getD_eq_getElem?_getD, List.getElem?_set]
  rw [if_neg (Ne.symm hk)]

theorem foldlM_filter {α β : Type} {f : β → α → Option β} {p : α → Bool} {l : List α} (b : β)
    (h : ∀ b a, p a = false → f b a = some b) : l.foldlM f b = (l.filter p).foldlM f b := by
  induction l generalizing b with
  | nil => rfl
  | cons a l ih =>
    rw [List.foldlM_cons]
    by_cases hp : p a = true
    · rw [List.filter_cons_of_pos hp, List.foldlM_cons]
      exact congrArg _ (funext ih)
    · rw [h b a (by simpa using hp), List.filter_cons_of_neg hp]
      exact ih b

/-- Values assigned to distinct places one after the other. -/
theorem foldl_update {α : Type} [DecidableEq α] {l : List α} {ps : List ℕ} {f : α → ℕ}
    (hl : l.Nodup) (hlen : ps.length = l.length) :
    l.map ((l.zip ps).foldl (fun f x => Function.update f x.1 x.2) f) = ps ∧
      ∀ a, a ∉ l → (l.zip ps).foldl (fun f x => Function.update f x.1 x.2) f a = f a := by
  induction l generalizing ps f with
  | nil => exact ⟨by simpa [eq_comm] using hlen, fun _ _ => rfl⟩
  | cons b l ih =>
    cases ps with
    | nil => simp at hlen
    | cons p ps =>
      rw [List.nodup_cons] at hl
      obtain ⟨hmap, hother⟩ := ih (f := Function.update f b p) hl.2 (by simpa using hlen)
      rw [List.zip_cons_cons, List.foldl_cons, List.map_cons]
      refine ⟨?_, fun a ha => ?_⟩
      · rw [hmap, hother b hl.1, Function.update_self]
      · rw [List.mem_cons, not_or] at ha
        rw [hother a ha.2, Function.update_of_ne ha.1]

theorem mem_zip_map {α β γ : Type} {l : List α} {ps : List β} {g : α → γ} {a : α} {p : β}
    (h : (a, p) ∈ l.zip ps) : (p, g a) ∈ ps.zip (l.map g) := by
  rw [List.zip_map_right, List.mem_map]
  refine ⟨(p, a), ?_, rfl⟩
  rw [← List.zip_swap]
  exact List.mem_map_of_mem (f := Prod.swap) h

/-- The old vector holds what `src` has at and below node `i`. -/
def Agree (src t : RoutesTrie) (i : ℕ) : Prop := ∀ q j, src.Leads i q j → t.node j = src.node j

/-- What a call for node `i` does: it appends a copy, and writes no node of the
old vector but those copied. -/
def Gathers (src : RoutesTrie) (fuel i : ℕ) : Prop :=
  ∀ dst t, Agree src t i → ∃ block t' φ, gather fuel (dst, t) i = some (dst ++ block, t') ∧
    Copied src dst.length [(dst.length, i)] block φ ∧
    ∀ j, (∀ q, ¬src.Leads i q j) → t'.node j = t.node j

/-- A loop of `gather`: calls for the nodes that the items link to. -/
theorem foldlM_gathers {src : RoutesTrie} {α β : Type} {fuel : ℕ} (link : α → ℕ)
    (write : β → α → ℕ → β) (as : List α)
    (body : (List Node × RoutesTrie) × β → α → Option ((List Node × RoutesTrie) × β))
    (hbody : ∀ a ∈ as, ∀ s acc, body (s, acc) a =
      (gather fuel s (link a)).bind fun s' => some (s', write acc a s.1.length))
    (hcall : ∀ a ∈ as, Gathers src fuel (link a))
    (hapart : as.Pairwise fun a a' =>
      ∀ q q' k, src.Leads (link a) q k → ¬src.Leads (link a') q' k) :
    ∀ dst t acc, (∀ a ∈ as, Agree src t (link a)) → ∃ block t' ps φ,
      as.foldlM body ((dst, t), acc) =
        some ((dst ++ block, t'), (as.zip ps).foldl (fun acc x => write acc x.1 x.2) acc) ∧
      ps.length = as.length ∧ Copied src dst.length (ps.zip (as.map link)) block φ ∧
      ∀ j, (∀ a ∈ as, ∀ q, ¬src.Leads (link a) q j) → t'.node j = t.node j := by
  induction as with
  | nil =>
    intro dst t acc _
    exact ⟨[], t, [], id, by simp, rfl, copied_nil _ _ _, fun _ _ => rfl⟩
  | cons a as ih =>
    intro dst t acc hagree
    rw [List.pairwise_cons] at hapart
    obtain ⟨block₁, t₁, φ₁, hrun₁, hcopy₁, hframe₁⟩ :=
      hcall a List.mem_cons_self dst t (hagree a List.mem_cons_self)
    have hagree₁ : ∀ a' ∈ as, Agree src t₁ (link a') := by
      intro a' ha' q k hk
      rw [hframe₁ k fun q' hk' => hapart.1 a' ha' q' q k hk' hk]
      exact hagree a' (List.mem_cons_of_mem _ ha') q k hk
    obtain ⟨block₂, t₂, ps, φ₂, hrun₂, hlen, hcopy₂, hframe₂⟩ :=
      ih (fun a' ha' => hbody a' (List.mem_cons_of_mem _ ha'))
        (fun a' ha' => hcall a' (List.mem_cons_of_mem _ ha')) hapart.2 (dst ++ block₁) t₁
        (write acc a dst.length) hagree₁
    rw [List.length_append] at hcopy₂
    refine ⟨block₁ ++ block₂, t₂, dst.length :: ps, _, ?_, by simp [hlen], hcopy₁.append hcopy₂, ?_⟩
    · rw [List.foldlM_cons, hbody a List.mem_cons_self, hrun₁]
      simpa using hrun₂
    · intro j hj
      rw [hframe₂ j fun a' ha' => hj a' (List.mem_cons_of_mem _ ha')]
      exact hframe₁ j (hj a List.mem_cons_self)

theorem paramTypes_nodup : paramTypes.Nodup := by decide

/-- The children of a node after their loop. -/
theorem foldl_children (l : List ((Bytes × ℕ) × ℕ)) (m : List (Bytes × ℕ)) :
    l.foldl (fun acc x => acc ++ [(x.1.1, x.2)]) m = m ++ l.map fun x => (x.1.1, x.2) := by
  induction l generalizing m with
  | nil => simp
  | cons x l ih => rw [List.foldl_cons, ih, List.map_cons, List.append_assoc, List.singleton_append]

/-- The node that the loops write: a copy whose links are the positions of the
copies of what the node links to. -/
theorem written_copies {src : RoutesTrie} {i base : ℕ} {ps ps' : List ℕ} {block : List Node}
    {φ : ℕ → ℕ} {L : List ParamType} (hL : L = paramTypes.filter ((src.node i).paramChildren · ≠ 0))
    (hps : ps.length = (src.node i).children.length) (hps' : ps'.length = L.length)
    (h : Copied src (base + 1) (ps.zip ((src.node i).children.map Prod.snd) ++
      ps'.zip (L.map (src.node i).paramChildren)) block φ) {n : Node}
    (hn : n = ⟨(src.node i).index,
      (L.zip ps').foldl (fun f x => Function.update f x.1 x.2) (src.node i).paramChildren,
      ((src.node i).children.zip ps).foldl (fun acc x => acc ++ [(x.1.1, x.2)]) []⟩) :
    n.Copies φ (src.node i) ∧
      n.links.Perm ((ps.zip ((src.node i).children.map Prod.snd) ++
        ps'.zip (L.map (src.node i).paramChildren)).map Prod.fst) := by
  have hnodup : L.Nodup := hL ▸ paramTypes_nodup.filter _
  obtain ⟨hmap, hother⟩ := foldl_update (f := (src.node i).paramChildren) hnodup hps'
  rw [foldl_children, List.nil_append] at hn
  generalize (L.zip ps').foldl (fun f x => Function.update f x.1 x.2)
    (src.node i).paramChildren = params at hmap hother hn
  -- The positions written are those of the copies.
  have hparam : ∀ k ∈ L, params k ≠ 0 ∧ φ (params k) = (src.node i).paramChildren k := by
    intro k hk
    have hmem : (params k, (src.node i).paramChildren k) ∈
        ps'.zip (L.map (src.node i).paramChildren) := by
      rw [← hmap, List.zip_map']
      exact List.mem_map_of_mem (f := fun k => (params k, (src.node i).paramChildren k)) hk
    have hroot := h.root_lt (List.mem_append_right _ hmem)
    exact ⟨by simp only at hroot; omega, h.origins _ (List.mem_append_right _ hmem)⟩
  have hfilter : paramTypes.filter (params · ≠ 0) = L := by
    rw [hL]
    refine List.filter_congr fun k hk => ?_
    by_cases hmem : k ∈ L
    · have hne : (src.node i).paramChildren k ≠ 0 := by
        rw [hL, List.mem_filter] at hmem
        simpa using hmem.2
      simp [(hparam k hmem).1, hne]
    · rw [hother k hmem]
  have hedges : n.edges = L.map (fun k => .param k (params k)) ++
      ((src.node i).children.zip ps).map fun x => .text x.1.1 x.2 := by
    rw [hn, Node.edges]
    simp only [List.map_map]
    rw [show [ParamType.int, .uint, .double, .string, .path] = paramTypes from rfl, hfilter]
    rfl
  have hsrc : (src.node i).edges = L.map (fun k => .param k ((src.node i).paramChildren k)) ++
      (src.node i).children.map fun c => .text c.1 c.2 := by
    rw [hL]
    rfl
  have hfst : ((src.node i).children.zip ps).map Prod.fst = (src.node i).children :=
    List.map_fst_zip hps.ge
  have hsnd : ((src.node i).children.zip ps).map Prod.snd = ps := List.map_snd_zip hps.le
  constructor
  · refine ⟨by rw [hn], ?_⟩
    rw [hedges, hsrc, List.map_append, List.map_map, List.map_map]
    refine congrArg₂ _ (List.map_congr_left fun k hk => ?_) ?_
    · exact congrArg _ (hparam k hk).2
    · conv_rhs => rw [← hfst]
      rw [List.map_map]
      refine List.map_congr_left fun x hx => ?_
      have hmem := mem_zip_map (g := Prod.snd) hx
      exact congrArg _ (h.origins _ (List.mem_append_left _ hmem))
  · have hlinks : n.links = ps' ++ ps := by
      rw [Node.links, hedges, List.map_append, List.map_map, List.map_map]
      exact congrArg₂ _ hmap hsnd
    rw [hlinks, List.map_append, List.map_fst_zip (by simp [hps]), List.map_fst_zip (by simp [hps'])]
    exact List.perm_append_comm

/-- `gather` with its loops' states taken apart. -/
theorem gather_succ (fuel : ℕ) (dst : List Node) (t : RoutesTrie) (i : ℕ) :
    gather (fuel + 1) (dst, t) i =
      ((t.node i).children.foldlM (fun x c => (gather fuel x.1 c.2).bind fun s' =>
          some (s', x.2 ++ [(c.1, x.1.1.length)])) ((dst ++ [Node.fresh], t), [])).bind fun y =>
        (paramTypes.foldlM (fun x k => if (t.node i).paramChildren k = 0 then some x
          else (gather fuel x.1 ((t.node i).paramChildren k)).bind fun s' =>
            some (s', Function.update x.2 k x.1.1.length)) (y.1, (t.node i).paramChildren)).bind
          fun z => some (z.1.1.set dst.length ⟨(t.node i).index, z.2, y.2⟩,
            z.1.2.setNode i ⟨(t.node i).index, z.2, []⟩) := rfl

/-- **What `gather` does.** -/
theorem gather_spec {src : RoutesTrie} (hb : src.Branching) (hu : src.Unique) (hup : src.Upward)
    {fuel : ℕ} : ∀ {i r}, src.Leads 0 r i → src.nodes.length - i < fuel → Gathers src fuel i := by
  induction fuel with
  | zero =>
    intro i r _ hfuel
    exact absurd hfuel (Nat.not_lt_zero _)
  | succ fuel ih =>
    intro i r hi hfuel dst t hagree
    have hnode : t.node i = src.node i := hagree [] i (.here i)
    have hcall : ∀ e ∈ (src.node i).edges, Gathers src fuel e.child := by
      intro e he
      have := hup i e he
      exact ih (hi.trans (.single he)) (by omega)
    have hbelow : ∀ e ∈ (src.node i).edges, Agree src t e.child := by
      intro e he q k hk
      exact hagree _ k (.edge he hk)
    have htext : ∀ c ∈ (src.node i).children, Edge.text c.1 c.2 ∈ (src.node i).edges :=
      fun c hc => Node.text_mem_edges.mpr hc
    have hparam : ∀ k ∈ paramTypes.filter ((src.node i).paramChildren · ≠ 0),
        Edge.param k ((src.node i).paramChildren k) ∈ (src.node i).edges := by
      intro k hk
      rw [List.mem_filter] at hk
      exact Node.param_mem_edges.mpr ⟨by simpa using hk.2, rfl⟩
    -- The children.
    obtain ⟨block₁, t₁, ps, φ₁, hrun₁, hlen₁, hcopy₁, hframe₁⟩ :=
      foldlM_gathers Prod.snd
        (fun (children : List (Bytes × ℕ)) (c : Bytes × ℕ) p => children ++ [(c.1, p)])
        (src.node i).children
        (fun x c => (gather fuel x.1 c.2).bind fun s' =>
          some (s', x.2 ++ [(c.1, x.1.1.length)]))
        (fun _ _ _ _ => rfl) (fun c hc => hcall _ (htext c hc)) (by
          have hkeys := hb.keys i
          rw [List.nodup_iff_pairwise_ne, List.pairwise_map] at hkeys
          refine hkeys.imp_of_mem fun {c c'} hc hc' hne q q' k hk => ?_
          refine hu.separate hb hi (htext c hc) (htext c' hc') (fun heq => hne ?_) hk
          exact (Edge.text.inj heq).1)
        (dst ++ [Node.fresh]) t [] fun c hc => hbelow _ (htext c hc)
    -- The parameters.
    have hagree₁ : ∀ k ∈ paramTypes.filter ((src.node i).paramChildren · ≠ 0),
        Agree src t₁ ((src.node i).paramChildren k) := by
      intro k hk q j hj
      rw [hframe₁ j fun c hc q' hj' => hu.separate hb hi (hparam k hk) (htext c hc) (by simp) hj hj']
      exact hbelow _ (hparam k hk) q j hj
    obtain ⟨block₂, t₂, ps', φ₂, hrun₂, hlen₂, hcopy₂, hframe₂⟩ :=
      foldlM_gathers (src.node i).paramChildren
        (fun (params : ParamType → ℕ) (k : ParamType) p => Function.update params k p)
        (paramTypes.filter ((src.node i).paramChildren · ≠ 0))
        (fun x k => if (src.node i).paramChildren k = 0 then some x
          else (gather fuel x.1 ((src.node i).paramChildren k)).bind fun s' =>
            some (s', Function.update x.2 k x.1.1.length))
        (by
          intro k hk s acc
          rw [List.mem_filter] at hk
          exact if_neg (by simpa using hk.2))
        (fun k hk => hcall _ (hparam k hk)) (by
          have hne : (paramTypes.filter ((src.node i).paramChildren · ≠ 0)).Pairwise (· ≠ ·) :=
            List.nodup_iff_pairwise_ne.mp (paramTypes_nodup.filter _)
          refine hne.imp_of_mem fun {k k'} hk hk' hne q q' j hj => ?_
          refine hu.separate hb hi (hparam k hk) (hparam k' hk') (fun heq => hne ?_) hj
          exact (Edge.param.inj heq).1)
        (dst ++ [Node.fresh] ++ block₁) t₁ (src.node i).paramChildren hagree₁
    have hskip := foldlM_filter (p := fun k => decide ((src.node i).paramChildren k ≠ 0))
      (l := paramTypes) ((dst ++ [Node.fresh] ++ block₁, t₁), (src.node i).paramChildren)
      (f := fun x k => if (src.node i).paramChildren k = 0 then some x
        else (gather fuel x.1 ((src.node i).paramChildren k)).bind fun s' =>
          some (s', Function.update x.2 k x.1.1.length))
      (by
        intro b k hk
        exact if_pos (by simpa using hk))
    rw [← hskip] at hrun₂
    rw [List.length_append, List.length_append, List.length_singleton] at hcopy₂
    rw [List.length_append, List.length_singleton] at hcopy₁
    obtain ⟨hcopies, hlinks⟩ := written_copies rfl hlen₁ hlen₂ (hcopy₁.append hcopy₂) rfl
    refine ⟨_ :: (block₁ ++ block₂), t₂.setNode i ⟨(src.node i).index,
        ((paramTypes.filter ((src.node i).paramChildren · ≠ 0)).zip ps').foldl
          (fun f x => Function.update f x.1 x.2) (src.node i).paramChildren, []⟩, _, ?_,
      (hcopy₁.append hcopy₂).cons hcopies hlinks, fun j hj => ?_⟩
    · rw [gather_succ, hnode, hrun₁, Option.bind_some, hrun₂, Option.bind_some]
      simp
    · have hji : j ≠ i := by
        rintro rfl
        exact hj [] (.here j)
      rw [setNode_other _ hji, hframe₂ j, hframe₁ j]
      · exact fun c hc q hq => hj _ (.edge (htext c hc) hq)
      · exact fun k hk q hq => hj _ (.edge (hparam k hk) hq)

/-! ### A whole copy -/

/-- The trie `u` is a copy of what the head of `src` leads to, told by `φ`. -/
structure Renumbered (src u : RoutesTrie) (φ : ℕ → ℕ) : Prop where
  pos : 0 < u.nodes.length
  head : φ 0 = 0
  nodes : ∀ k < u.nodes.length, (u.node k).Copies φ (src.node (φ k))
  upward : u.Upward
  links : (0 :: u.nodes.flatMap Node.links).Perm (List.range u.nodes.length)

/-- Every link is the position of a node, and no node is linked to twice. -/
def Linked (t : RoutesTrie) : Prop :=
  (∀ j ∈ t.nodes.flatMap Node.links, j < t.nodes.length) ∧ (t.nodes.flatMap Node.links).Nodup

theorem gather_renumbered {src : RoutesTrie} (hb : src.Branching) (hu : src.Unique)
    (hup : src.Upward) : ∃ u t φ, gather (src.nodes.length + 1) ([], src) 0 = some (u, t) ∧
      Renumbered src ⟨u⟩ φ := by
  obtain ⟨block, t, φ, hrun, hcopy, -⟩ := gather_spec hb hu hup (.here 0)
    (by omega : src.nodes.length - 0 < src.nodes.length + 1) [] src fun _ _ _ => rfl
  refine ⟨block, t, φ, hrun, ?_, hcopy.origins _ List.mem_cons_self, ?_, ?_, ?_⟩
  · have hroot := (hcopy.root_lt List.mem_cons_self).2
    simpa using hroot
  · intro k hk
    have hget : block[k]? = some (node ⟨block⟩ k) := by
      rw [node, List.getD_eq_getElem?_getD, List.getElem?_eq_getElem hk]
      rfl
    simpa using (hcopy.nodes k _ hget).1
  · intro k e he
    rcases Nat.lt_or_ge k block.length with hk | hk
    · have hget : block[k]? = some (node ⟨block⟩ k) := by
        rw [node, List.getD_eq_getElem?_getD, List.getElem?_eq_getElem hk]
        rfl
      have hlink : e.child ∈ (node ⟨block⟩ k).links := List.mem_map_of_mem he
      have hlt := (hcopy.nodes k _ hget).2 _ hlink
      have hin := hcopy.link_lt (List.mem_of_getElem? hget) hlink
      simp only [List.length_nil, Nat.zero_add] at hlt hin
      exact ⟨hlt, hin.2⟩
    · rw [node_fresh (t := ⟨block⟩) hk] at he
      simp [Node.edges, Node.fresh] at he
  · have hlinks := hcopy.links
    simp only [List.map_cons, List.map_nil, List.singleton_append, List.length_nil] at hlinks
    rwa [← List.range_eq_range'] at hlinks

section Renumbered

variable {src u : RoutesTrie} {φ : ℕ → ℕ}

theorem Renumbered.linked (h : Renumbered src u φ) : u.Linked := by
  refine ⟨fun j hj => ?_, ?_⟩
  · exact List.mem_range.mp (h.links.mem_iff.mp (List.mem_cons_of_mem _ hj))
  · exact (List.nodup_cons.mp (h.links.nodup_iff.mpr List.nodup_range)).2

theorem mem_links {t : RoutesTrie} {k : ℕ} {e : Edge} (he : e ∈ (t.node k).edges) :
    ∃ hk : k < t.nodes.length, t.nodes[k] = t.node k := by
  rcases Nat.lt_or_ge k t.nodes.length with hk | hk
  · refine ⟨hk, ?_⟩
    rw [node, List.getD_eq_getElem?_getD, List.getElem?_eq_getElem hk]
    rfl
  · rw [node_fresh hk] at he
    simp [Node.edges, Node.fresh] at he

/-- A node is linked to from one place. -/
theorem Linked.inj {t : RoutesTrie} (h : t.Linked) {k k' : ℕ} {e e' : Edge}
    (he : e ∈ (t.node k).edges) (he' : e' ∈ (t.node k').edges) (heq : e.child = e'.child) :
    k = k' ∧ e = e' := by
  obtain ⟨hk, hnode⟩ := mem_links he
  obtain ⟨hk', hnode'⟩ := mem_links he'
  obtain ⟨hown, hother⟩ := List.nodup_flatMap.mp h.2
  have hlink : e.child ∈ t.nodes[k].links := hnode ▸ List.mem_map_of_mem he
  have hlink' : e.child ∈ t.nodes[k'].links := heq ▸ hnode' ▸ List.mem_map_of_mem he'
  have hkk : k = k' := by
    by_contra hne
    rw [List.pairwise_iff_getElem] at hother
    rcases Nat.lt_or_gt_of_ne hne with hlt | hlt
    · exact hother k k' hk hk' hlt hlink hlink'
    · exact hother k' k hk' hk hlt hlink' hlink
  subst hkk
  have hnodup : ((t.node k).edges.map Edge.child).Nodup :=
    hnode ▸ hown _ (List.getElem_mem hk)
  exact ⟨rfl, List.inj_on_of_nodup_map hnodup he he' heq⟩

/-- Links that lead on to nodes of their own leave one path to every node. -/
theorem Linked.unique {t : RoutesTrie} (h : t.Linked) (hup : t.Upward) :
    t.Unique := by
  intro p q j
  induction j using Nat.strong_induction_on generalizing p q with
  | _ j ih =>
    intro hp hq
    have hhead : ∀ {q}, t.Leads 0 q 0 → q = [] := by
      intro q hq
      rcases hq.last with ⟨rfl, -⟩ | ⟨k, e, p', -, he, hj, -⟩
      · rfl
      · have := (hup k e he).1
        omega
    rcases hp.last with ⟨rfl, rfl⟩ | ⟨k, e, p', hp', he, rfl, rfl⟩
    · exact (hhead hq).symm
    rcases hq.last with ⟨rfl, h0⟩ | ⟨k', e', q', hq', he', hj, rfl⟩
    · have := (hup k e he).1
      omega
    obtain ⟨rfl, rfl⟩ := h.inj he he' hj.symm
    rw [ih k (hup k e he).1 hp' hq']

theorem Renumbered.edge (h : Renumbered src u φ) {k : ℕ} (hk : k < u.nodes.length) {e : Edge} :
    e ∈ (src.node (φ k)).edges ↔ ∃ e' ∈ (u.node k).edges, e'.rename φ = e := by
  rw [← (h.nodes k hk).edges, List.mem_map]

theorem Renumbered.leads (h : Renumbered src u φ) {k j : ℕ} {q : List Token}
    (hq : u.Leads k q j) (hk : k < u.nodes.length) :
    j < u.nodes.length ∧ src.Leads (φ k) q (φ j) := by
  induction hq with
  | here k => exact ⟨hk, .here _⟩
  | edge he _ ih =>
    obtain ⟨hj, hlead⟩ := ih (h.upward _ _ he).2
    refine ⟨hj, ?_⟩
    have hedge := (h.edge hk).mpr ⟨_, he, rfl⟩
    simpa using Leads.edge hedge (by simpa using hlead)

theorem Renumbered.leads_back (h : Renumbered src u φ) {i j : ℕ} {q : List Token}
    (hq : src.Leads i q j) {k : ℕ} (hk : k < u.nodes.length) (hi : φ k = i) :
    ∃ j', φ j' = j ∧ u.Leads k q j' := by
  induction hq generalizing k with
  | here i => exact ⟨k, hi, .here k⟩
  | edge he _ ih =>
    rw [← hi, h.edge hk] at he
    obtain ⟨e', he', rfl⟩ := he
    obtain ⟨j', hj', hlead⟩ := ih (h.upward k e' he').2 (e'.rename_child φ).symm
    exact ⟨j', hj', by simpa using Leads.edge he' hlead⟩

/-- A copy has the same indices at the same paths. -/
theorem Renumbered.indexAt_iff (h : Renumbered src u φ) {q : List Token} {a : ℕ} :
    u.IndexAt q a ↔ src.IndexAt q a := by
  constructor
  · rintro ⟨j, hq, rfl⟩
    obtain ⟨hj, hlead⟩ := h.leads hq h.pos
    rw [h.head] at hlead
    exact ⟨φ j, hlead, ((h.nodes j hj).index).symm⟩
  · rintro ⟨j, hq, rfl⟩
    obtain ⟨j', rfl, hlead⟩ := h.leads_back hq h.pos h.head
    exact ⟨j', hlead, (h.nodes j' (h.leads hlead h.pos).1).index⟩

/-- The fragment of a literal link. -/
def Edge.fragment? : Edge → Option Bytes
  | .param _ _ => none
  | .text f _ => some f

theorem Node.fragments_eq (n : Node) : n.edges.filterMap Edge.fragment? = n.children.map Prod.fst := by
  rw [Node.edges, List.filterMap_append, List.filterMap_map, List.filterMap_map]
  have hparam : (Edge.fragment? ∘ fun k => Edge.param k (n.paramChildren k)) = fun _ => none := rfl
  have htext : (Edge.fragment? ∘ fun c : Bytes × ℕ => Edge.text c.1 c.2) = some ∘ Prod.fst := rfl
  rw [hparam, htext, List.filterMap_none, List.nil_append, List.filterMap_eq_map]

/-- A copy has the same fragments. -/
theorem Renumbered.keys (h : Renumbered src u φ) {k : ℕ} (hk : k < u.nodes.length) :
    (u.node k).children.map Prod.fst = (src.node (φ k)).children.map Prod.fst := by
  rw [← Node.fragments_eq, ← Node.fragments_eq, ← (h.nodes k hk).edges, List.filterMap_map]
  refine List.filterMap_congr fun e _ => ?_
  cases e <;> rfl

theorem Renumbered.key (h : Renumbered src u φ) {k : ℕ} {c : Bytes × ℕ}
    (hc : c ∈ (u.node k).children) :
    k < u.nodes.length ∧ ∃ d ∈ (src.node (φ k)).children, d.1 = c.1 := by
  have hk : k < u.nodes.length := by
    by_contra hge
    rw [node_fresh (by omega)] at hc
    simp [Node.fresh] at hc
  have hmem : c.1 ∈ (src.node (φ k)).children.map Prod.fst :=
    h.keys hk ▸ List.mem_map_of_mem (f := Prod.fst) hc
  exact ⟨hk, List.mem_map.mp hmem⟩

theorem Renumbered.branching (h : Renumbered src u φ) (hb : src.Branching) : u.Branching := by
  refine ⟨fun k => ?_, fun {k} c hc => ?_, fun {k} c hc c' hc' => ?_⟩
  · rcases Nat.lt_or_ge k u.nodes.length with hk | hk
    · rw [h.keys hk]
      exact hb.keys _
    · rw [node_fresh hk]
      exact List.nodup_nil
  · obtain ⟨-, d, hd, heq⟩ := h.key hc
    exact heq ▸ hb.nonempty d hd
  · obtain ⟨-, d, hd, heq⟩ := h.key hc
    obtain ⟨-, d', hd', heq'⟩ := h.key hc'
    rw [← heq, ← heq']
    exact hb.lengths d hd d' hd'

theorem Node.isSimple_iff (n : Node) :
    n.isSimple = true ↔ n.index = 0 ∧ ∀ k j, Edge.param k j ∉ n.edges := by
  have hall : ∀ k, k ∈ paramTypes := by
    intro k
    cases k <;> decide
  simp only [isSimple, Bool.and_eq_true, decide_eq_true_eq, List.all_eq_true, Node.param_mem_edges]
  refine and_congr_right fun _ => ⟨fun h k j hj => hj.1 (h k (hall k)), fun h k _ => ?_⟩
  by_contra hk
  exact h k _ ⟨hk, rfl⟩

theorem Renumbered.isSimple (h : Renumbered src u φ) {k : ℕ} (hk : k < u.nodes.length) :
    (u.node k).isSimple = (src.node (φ k)).isSimple := by
  rw [Bool.eq_iff_iff, Node.isSimple_iff, Node.isSimple_iff, (h.nodes k hk).index]
  refine and_congr_right fun _ => ⟨fun hno kind j hj => ?_, fun hno kind j hj => ?_⟩
  · obtain ⟨e, he, heq⟩ := (h.edge hk).mp hj
    cases e with
    | param kind' j' =>
      obtain ⟨rfl, -⟩ := Edge.param.inj heq
      exact hno _ _ he
    | text f j' => simp [Edge.rename] at heq
  · exact hno kind (φ j) ((h.edge hk).mpr ⟨_, hj, rfl⟩)

/-- A copy of a settled trie is settled. -/
theorem Renumbered.done (h : Renumbered src u φ) (hdone : src.Done 0) : u.Done 0 := by
  intro q k hq
  obtain ⟨hk, hlead⟩ := h.leads hq h.pos
  rw [h.head] at hlead
  rcases hdone q _ hlead with hnil | ⟨c, hc, hsimple⟩
  · left
    have hkeys := h.keys hk
    rw [hnil] at hkeys
    exact List.map_eq_nil_iff.mp hkeys
  · right
    obtain ⟨e, he, heq⟩ := (h.edge hk).mp (Node.text_mem_edges.mpr hc)
    cases e with
    | param kind j => simp [Edge.rename] at heq
    | text f j =>
      obtain ⟨rfl, hj⟩ := Edge.text.inj heq
      have hsame : (u.node j).isSimple = (src.node (φ j)).isSimple :=
        h.isSimple (h.upward k _ he).2
      refine ⟨_, Node.text_mem_edges.mp he, ?_⟩
      rw [hsame, hj]
      exact hsimple

end Renumbered

end RoutesTrie

end Suil
