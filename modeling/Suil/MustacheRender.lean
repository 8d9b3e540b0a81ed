/-
Rendering Mustache templates.

`Mustache::renderInternal` walks the fragments and the actions of a template with one
index.  A section over an array is rendered once an element, up to the first action with
its name.  A section over another value is entered at the fragment in front of it and
left at once: that fragment is written again, and the body is rendered by the walk
outside, with the context outside.

* `render_ends` — rendering ends, or throws;
* `Doc.denote` — the meaning of a template in a context;
* `renders_doc` — how far the walk over a tree agrees with its meaning;
* `parse_renders` — the templates and contexts that are rendered as they should be.
-/
import Suil.MustacheTrees
import Suil.Json

open Nesting

namespace Suil

/-- `Object::get`; none when it throws. -/
def Json.get {N : Type} : Json N → Bytes → Option (Json N)
  | .object ms, key => some (((ms.find? fun m => m.1.bytes.length == key.length &&
      strncmpEq key.length m.1.bytes key).map Prod.snd).getD .null)
  | _, _ => none

namespace Mustache

variable {N : Type}

/-- What rendering takes from elsewhere: how numbers are written, and what the template of a name
renders to (none when it throws). -/
structure Env (N : Type) where
  number : N → Bytes
  load : Bytes → Json N → Option Bytes

inductive Fault where
  | thrown
  /-- A fragment is taken that is not there. -/
  | undefined
  | spent
deriving DecidableEq

/-- `escape` -/
def escape (text : Bytes) : Bytes :=
  text.flatMap fun c =>
    if c = 38 then ascii "&amp;"
    else if c = 60 then ascii "&lt;"
    else if c = 62 then ascii "&gt;"
    else if c = 34 then ascii "&quot;"
    else if c = 39 then ascii "&#39;"
    else if c = 47 then ascii "&#x2f;"
    else [c]

/-- What `renderTag` writes for a tag that is no block; none when it throws. -/
def tagText (env : Env N) (kind : ActionType) (name : Bytes) (ctx : Json N) : Option Bytes :=
  match kind with
  | .partialTag => env.load name ctx
  | .tag | .unEscapeTag =>
    match ctx.get name with
    | some (.bool b) => some (if b then ascii "true" else ascii "false")
    | some (.number x) => some (env.number x)
    | some (.string s) => some (if kind = .unEscapeTag then s.bytes else escape s.bytes)
    | _ => none
  | _ => some []

/-- What was written before. -/
def prepend (out : Bytes) (r : Except Fault (Bytes × ℕ)) : Except Fault (Bytes × ℕ) :=
  r.map fun r => (out ++ r.1, r.2)

/-- The loop over the elements of an array: what is written, and the index behind the last. -/
def renderEach (render : Json N → Except Fault (Bytes × ℕ)) :
    List (Json N) → Bytes × ℕ → Except Fault (Bytes × ℕ)
  | [], r => .ok r
  | e :: es, (out, _) =>
    match render e with
    | .error fault => .error fault
    | .ok (text, id) => renderEach render es (out ++ text, id)

section

variable (env : Env N) (data : ℕ → UInt8) (t : Template)

/-- The first closing tag of a name, from an index on. -/
def closing (name : Bytes) (id : ℕ) : ℕ :=
  id + (t.actions.drop id).findIdx fun a => strEq (tagName data a) name && a.tag = .closeBlock

/-- `renderTag`: what is written, and the index behind it. -/
def renderTag (render : Json N → ℕ → Bytes → Except Fault (Bytes × ℕ)) (act : Action)
    (ctx : Json N) (index : ℕ) : Except Fault (Bytes × ℕ) :=
  let name := tagName data act
  match act.tag with
  | .elseBlock =>
    match ctx.get name with
    | none => .error .thrown
    | some val =>
      if val.empty then
        match t.fragments[index + 1]? with
        | some frag => .ok (fragString data frag, index + 1)
        | none => .error .undefined
      else .ok ([], index + 1)
  | .openBlock =>
    match ctx.get name with
    | none => .error .thrown
    | some val =>
      if val.empty then .ok ([], closing data t name index)
      else
        match val with
        | .array es => renderEach (fun e => render e (index + 1) name) es ([], index)
        | val => render val index name
  | kind =>
    match tagText env kind name ctx with
    | none => .error .thrown
    | some text => .ok (text, index)

/-- `renderInternal`, for up to so many turns and calls inside each other. -/
def renderInternal : ℕ → Json N → ℕ → Bytes → Except Fault (Bytes × ℕ)
  | 0, _, _, _ => .error .spent
  | n + 1, ctx, index, stop =>
    match t.fragments[index]?, t.actions[index]? with
    | none, _ => .ok ([], index)
    | some frag, none => prepend (fragString data frag) (renderInternal n ctx (index + 1) stop)
    | some frag, some act =>
      if stop ≠ [] ∧ strEq (tagName data act) stop then .ok (fragString data frag, index)
      else
        match renderTag env data t (renderInternal n) act ctx index with
        | .error fault => .error fault
        | .ok (text, index) =>
          prepend (fragString data frag ++ text) (renderInternal n ctx (index + 1) stop)

/-- `render`; `render_ends` shows that the turns are enough. -/
def render (ctx : Json N) : Except Fault Bytes :=
  (renderInternal env data t (t.fragments.length + 2) ctx 0 []).map Prod.fst

end

/-! ### The meaning of a template -/

namespace Doc

/-- What a section means, by what its body means. -/
def sectionText (body : Json N → Option Bytes) (val : Json N) : Option Bytes :=
  if val.empty then some []
  else
    match val with
    | .array es => (es.mapM body).map List.flatten
    | val => body val

/-- The meaning of a template in a context; none when a tag of it has none. -/
def denote (env : Env N) : Doc → Json N → Option Bytes
  | text t, _ => some t
  | tag t kind name rest, ctx =>
    (tagText env kind name ctx).bind fun out => (rest.denote env ctx).map (t ++ out ++ ·)
  | block t name body rest, ctx =>
    ((ctx.get name).bind (sectionText (body.denote env))).bind fun out =>
      (rest.denote env ctx).map (t ++ out ++ ·)
  | inverted t name body rest, ctx =>
    (ctx.get name).bind fun val =>
      (rest.denote env ctx).map (t ++ (if val.empty then body else []) ++ ·)

/-- Text and comments only. -/
def Constant : Doc → Prop
  | text _ => True
  | tag _ kind _ rest => kind = .ignore ∧ rest.Constant
  | _ => False

/-- The name is not the one that rendering stops at, if any. -/
def Passes (stop name : Bytes) : Prop := stop = [] ∨ strEq name stop = false

/-- The elements of an array, up to the first that a body has no meaning in. -/
def Each (P : Json N → Prop) (body : Json N → Option Bytes) : List (Json N) → Prop
  | [] => True
  | e :: es => P e ∧ ((body e).isSome → Each P body es)

/-- As far as the walk over a template gets in a context, nothing misleads it: within a section
over an array there is no action with its name, in a section over an empty value none that closes
a section with its name, and a section over any other value has no text in front of it and only
text and comments in it. -/
def Plain (env : Env N) : Doc → Bytes → Json N → Prop
  | text _, _, _ => True
  | tag _ kind name rest, stop, ctx =>
    Passes stop name ∧ ((tagText env kind name ctx).isSome → rest.Plain env stop ctx)
  | block t name body rest, stop, ctx =>
    Passes stop name ∧ ∀ val ∈ ctx.get name,
      (if val.empty then ∀ x ∈ body.items, x.kind = .closeBlock → strEq x.name name = false
        else match val with
          | .array es => Each (body.Plain env name) (body.denote env) es
          | _ => t = [] ∧ body.Constant ∧ body.Plain env stop ctx) ∧
        ((sectionText (body.denote env) val).isSome → rest.Plain env stop ctx)
  | inverted _ name _ rest, stop, ctx =>
    Passes stop name ∧ ∀ val ∈ ctx.get name, rest.Plain env stop ctx

instance : DecidableRel Passes := fun stop name =>
  inferInstanceAs (Decidable (stop = [] ∨ strEq name stop = false))

instance decidableConstant : DecidablePred Constant
  | text _ => inferInstanceAs (Decidable True)
  | tag _ kind _ rest =>
    have := decidableConstant rest
    inferInstanceAs (Decidable (kind = .ignore ∧ rest.Constant))
  | block _ _ _ _ => inferInstanceAs (Decidable False)
  | inverted _ _ _ _ => inferInstanceAs (Decidable False)

instance decidableEach {P : Json N → Prop} [DecidablePred P] (body : Json N → Option Bytes) :
    DecidablePred (Each P body)
  | [] => inferInstanceAs (Decidable True)
  | e :: es =>
    have := decidableEach (P := P) body es
    inferInstanceAs (Decidable (P e ∧ ((body e).isSome → Each P body es)))

instance decidablePlain (env : Env N) : ∀ (d : Doc) stop ctx, Decidable (d.Plain env stop ctx)
  | text _, _, _ => inferInstanceAs (Decidable True)
  | tag _ kind name rest, stop, ctx =>
    have := decidablePlain env rest stop ctx
    inferInstanceAs (Decidable (Passes stop name ∧
      ((tagText env kind name ctx).isSome → rest.Plain env stop ctx)))
  | block t name body rest, stop, ctx =>
    have := decidablePlain env rest stop ctx
    have := decidablePlain env body stop ctx
    have : DecidablePred (body.Plain env name) := decidablePlain env body name
    have : ∀ val : Json N, Decidable (match val with
        | .array es => Each (body.Plain env name) (body.denote env) es
        | _ => t = [] ∧ body.Constant ∧ body.Plain env stop ctx)
      | .array es => decidableEach (body.denote env) es
      | .null | .bool _ | .string _ | .number _ | .object _ =>
        inferInstanceAs (Decidable (t = [] ∧ body.Constant ∧ body.Plain env stop ctx))
    inferInstanceAs (Decidable (Passes stop name ∧ ∀ val ∈ ctx.get name,
      (if val.empty then ∀ x ∈ body.items, x.kind = .closeBlock → strEq x.name name = false
        else match val with
          | .array es => Each (body.Plain env name) (body.denote env) es
          | _ => t = [] ∧ body.Constant ∧ body.Plain env stop ctx) ∧
        ((sectionText (body.denote env) val).isSome → rest.Plain env stop ctx)))
  | inverted _ name _ rest, stop, ctx =>
    have := decidablePlain env rest stop ctx
    inferInstanceAs (Decidable (Passes stop name ∧ ∀ val ∈ ctx.get name, rest.Plain env stop ctx))

end Doc

section

variable {env : Env N} {data : ℕ → UInt8} {size : ℕ} {t : Template} {ctx val : Json N}
  {stop out text name : Bytes} {i k n : ℕ} {x : Item} {xs ys : List Item} {frag : ℕ × ℕ}
  {act : Action} {r : Except Fault (Bytes × ℕ)}

/-! ### The walk ends -/

/-- Rendering throws, or ends at the index or behind it. -/
def Ends (i : ℕ) (r : Except Fault (Bytes × ℕ)) : Prop :=
  r = .error .thrown ∨ ∃ out k, r = .ok (out, k) ∧ i ≤ k

theorem Ends.mono (h : Ends k r) (hik : i ≤ k) : Ends i r := by
  obtain h | ⟨out, m, rfl, hk⟩ := h
  · exact Or.inl h
  · exact Or.inr ⟨out, m, rfl, hik.trans hk⟩

theorem Ends.prepend (h : Ends i r) (out : Bytes) : Ends i (prepend out r) := by
  obtain rfl | ⟨text, k, rfl, hk⟩ := h
  · exact Or.inl rfl
  · exact Or.inr ⟨out ++ text, k, rfl, hk⟩

theorem renderEach_ends {each : Json N → Except Fault (Bytes × ℕ)} {es : List (Json N)}
    (heach : ∀ e, Ends i (each e)) (h : i ≤ k) : Ends i (renderEach each es (out, k)) := by
  induction es generalizing out k with
  | nil => exact Or.inr ⟨out, k, rfl, h⟩
  | cons e es ih =>
    obtain hthrown | ⟨text, m, hok, hm⟩ := heach e
    · rw [renderEach, hthrown]
      exact Or.inl rfl
    · rw [renderEach, hok]
      exact ih hm

/-- An inverted section is not the last action. -/
theorem closed_of_nested {w : List Action}
    (h : Nested Action.Inner Action.Opens (Closes data) i w) {j : ℕ} {a : Action}
    (ha : w[j]? = some a) (hopens : a.Opens) : j + 1 < w.length := by
  induction h generalizing j with
  | nil => cases ha
  | @cons i b w hb hw ih =>
    cases j with
    | zero =>
      obtain rfl := Option.some.inj ha
      exact absurd hopens hb.1
    | succ j => exact Nat.succ_lt_succ (ih ha)
  | @block i o c u v ho hc hu hv ihu ihv =>
    rw [List.length_cons, List.length_append, List.length_cons]
    cases j with
    | zero => omega
    | succ j =>
      rw [List.getElem?_cons_succ] at ha
      rcases lt_trichotomy j u.length with hj | rfl | hj
      · rw [List.getElem?_append_left hj] at ha
        have hlt := ihu ha
        omega
      · -- the closing tag opens nothing
        rw [List.getElem?_append_right le_rfl, Nat.sub_self] at ha
        obtain rfl := Option.some.inj ha
        rcases hopens with hopens | hopens <;> rw [hc.1] at hopens <;> cases hopens
      · obtain ⟨m, rfl⟩ := Nat.exists_eq_add_of_lt hj
        rw [List.getElem?_append_right (by omega),
          show u.length + m + 1 - u.length = m + 1 by omega] at ha
        have hlt := ihv ha
        omega

/-- The walk stops at an action with the name. -/
theorem renderInternal_stop (hfrag : t.fragments[i]? = some frag) (hact : t.actions[i]? = some act)
    (hne : stop ≠ []) (hstop : strEq (tagName data act) stop = true) (hpos : 0 < n) :
    renderInternal env data t n ctx i stop = .ok (fragString data frag, i) := by
  obtain ⟨n, rfl⟩ := Nat.exists_eq_add_one_of_ne_zero hpos.ne'
  rw [renderInternal, hfrag, hact]
  exact if_pos ⟨hne, hstop⟩

theorem renderTag_ends (h : Shaped data t) (hact : t.actions[i]? = some act)
    {render : Json N → ℕ → Bytes → Except Fault (Bytes × ℕ)}
    (heach : ∀ e, Ends (i + 1) (render e (i + 1) (tagName data act)))
    (hself : act.tag = .openBlock → ∀ val, Ends i (render val i (tagName data act))) :
    Ends i (renderTag env data t render act ctx i) := by
  rw [renderTag]
  split
  next htag =>
    have hlt : i + 1 < t.fragments.length := by
      have hclosed := closed_of_nested h.blocks hact (Or.inr htag)
      have hcount := h.count
      omega
    rw [List.getElem?_eq_getElem hlt]
    cases ctx.get (tagName data act) with
    | none => exact Or.inl rfl
    | some val =>
      simp only
      split_ifs
      · exact Or.inr ⟨_, i + 1, rfl, Nat.le_succ i⟩
      · exact Or.inr ⟨_, i + 1, rfl, Nat.le_succ i⟩
  next htag =>
    cases ctx.get (tagName data act) with
    | none => exact Or.inl rfl
    | some val =>
      simp only
      split_ifs
      · exact Or.inr ⟨_, _, rfl, Nat.le_add_right i _⟩
      · split
        next es => exact renderEach_ends (fun e => (heach e).mono (Nat.le_succ i)) le_rfl
        next => exact hself htag val
  next =>
    cases tagText env act.tag (tagName data act) ctx with
    | none => exact Or.inl rfl
    | some text => exact Or.inr ⟨text, i, rfl, le_rfl⟩

theorem renderInternal_ends (h : Shaped data t) (hpos : 0 < n)
    (hn : t.fragments.length + 2 ≤ n + i) : Ends i (renderInternal env data t n ctx i stop) := by
  induction n generalizing i ctx stop with
  | zero => exact absurd hpos (lt_irrefl 0)
  | succ n ih =>
    rw [renderInternal]
    rcases hfrag : t.fragments[i]? with _ | frag
    · exact Or.inr ⟨[], i, rfl, le_rfl⟩
    have hlt : i < t.fragments.length := (List.getElem?_eq_some_iff.mp hfrag).1
    have hnext : ∀ k, i ≤ k → Ends (k + 1) (renderInternal env data t n ctx (k + 1) stop) :=
      fun k hik => ih (by omega) (by omega)
    rcases hact : t.actions[i]? with _ | act
    · exact ((hnext i le_rfl).mono (Nat.le_succ i)).prepend _
    simp only
    split_ifs with hstop
    · exact Or.inr ⟨_, i, rfl, le_rfl⟩
    have htag : Ends i (renderTag env data t (renderInternal env data t n) act ctx i) := by
      refine renderTag_ends h hact (fun e => ih (by omega) (by omega)) fun hopen val => ?_
      -- the section is left where it is entered
      have hname := h.names act (List.mem_of_getElem? hact) (by simp [hopen])
      rw [renderInternal_stop hfrag hact hname (strEq_self _) (by omega)]
      exact Or.inr ⟨_, i, rfl, le_rfl⟩
    obtain hthrown | ⟨text, k, hok, hik⟩ := htag
    · rw [hthrown]
      exact Or.inl rfl
    · rw [hok]
      exact ((hnext k hik).mono (hik.trans (Nat.le_succ k))).prepend _

/-- **Rendering ends**: it throws, or writes a text. -/
theorem render_ends (env : Env N) (h : parse data size = some t) (ctx : Json N) :
    render env data t ctx = .error .thrown ∨ ∃ text, render env data t ctx = .ok text := by
  have hends : Ends 0 (renderInternal env data t (t.fragments.length + 2) ctx 0 []) :=
    renderInternal_ends (shaped_of_parse h) (Nat.succ_pos _) le_rfl
  rw [render]
  obtain hthrown | ⟨text, k, hok, -⟩ := hends
  · exact Or.inl (by rw [hthrown]; rfl)
  · exact Or.inr ⟨text, by rw [hok]; rfl⟩

/-! ### The walk over a tree -/

/-- With enough turns, the walk from an index on ends so. -/
def Renders (env : Env N) (data : ℕ → UInt8) (t : Template) (ctx : Json N) (i : ℕ) (stop : Bytes)
    (r : Except Fault (Bytes × ℕ)) : Prop :=
  ∀ n, 0 < n → t.fragments.length + 2 ≤ n + i → renderInternal env data t n ctx i stop = r

/-- The same of one tag. -/
def Writes (env : Env N) (data : ℕ → UInt8) (t : Template) (ctx : Json N) (act : Action) (i : ℕ)
    (r : Except Fault (Bytes × ℕ)) : Prop :=
  ∀ n, 0 < n → t.fragments.length + 1 ≤ n + i →
    renderTag env data t (renderInternal env data t n) act ctx i = r

/-- A fragment and an action of the template, at an index. -/
structure Stands (data : ℕ → UInt8) (t : Template) (i : ℕ) (x : Item) (frag : ℕ × ℕ)
    (act : Action) : Prop where
  fragment : t.fragments[i]? = some frag
  action : t.actions[i]? = some act
  text : fragString data frag = x.text
  kind : act.tag = x.kind
  name : tagName data act = x.name

/-- The items stand one behind the other from an index on. -/
def StandAll (data : ℕ → UInt8) (t : Template) : ℕ → List Item → Prop
  | _, [] => True
  | i, x :: xs => (∃ frag act, Stands data t i x frag act) ∧ StandAll data t (i + 1) xs

theorem standAll_append (i : ℕ) (xs ys : List Item) : StandAll data t i (xs ++ ys) ↔
    StandAll data t i xs ∧ StandAll data t (i + xs.length) ys := by
  induction xs generalizing i with
  | nil => simp [StandAll]
  | cons x xs ih =>
    rw [List.cons_append, StandAll, StandAll, ih, List.length_cons, and_assoc,
      show i + 1 + xs.length = i + (xs.length + 1) by omega]

theorem StandAll.at {j : ℕ} (h : StandAll data t i xs) (hx : xs[j]? = some x) :
    ∃ frag act, Stands data t (i + j) x frag act := by
  induction xs generalizing i j with
  | nil => cases hx
  | cons y xs ih =>
    cases j with
    | zero =>
      obtain rfl := Option.some.inj hx
      exact h.1
    | succ j =>
      obtain ⟨frag, act, hstands⟩ := ih h.2 hx
      exact ⟨frag, act, by rwa [show i + (j + 1) = i + 1 + j by omega]⟩

theorem standAll_of (h : ∀ j x, xs[j]? = some x → ∃ frag act, Stands data t (i + j) x frag act) :
    StandAll data t i xs := by
  induction xs generalizing i with
  | nil => trivial
  | cons x xs ih =>
    refine ⟨h 0 x rfl, ih fun j y hy => ?_⟩
    obtain ⟨frag, act, hstands⟩ := h (j + 1) y hy
    exact ⟨frag, act, by rwa [show i + 1 + j = i + (j + 1) by omega]⟩

theorem standAll_items (data : ℕ → UInt8) (t : Template) : StandAll data t 0 (t.items data) := by
  refine standAll_of fun j x hx => ?_
  rw [Template.items, itemsOf, List.getElem?_zipWith_eq_some] at hx
  obtain ⟨text, act, htext, hact, rfl⟩ := hx
  rw [List.getElem?_map, Option.map_eq_some_iff] at htext
  obtain ⟨frag, hfrag, rfl⟩ := htext
  rw [Nat.zero_add]
  exact ⟨frag, act, hfrag, hact, rfl, rfl, rfl⟩

theorem prepend_prepend (a b : Bytes) (r : Except Fault (Bytes × ℕ)) :
    prepend a (prepend b r) = prepend (a ++ b) r := by
  rcases r with fault | r
  · rfl
  · simp [prepend, Except.map]

theorem elim_map_prepend (o : Option Bytes) (a : Bytes) (r : Except Fault (Bytes × ℕ)) :
    ((o.map (a ++ ·)).elim (.error .thrown) fun out => prepend out r) =
      prepend a (o.elim (.error .thrown) fun out => prepend out r) := by
  rcases o with _ | out
  · rfl
  · exact (prepend_prepend a out r).symm

theorem Stands.renders_stop (h : Stands data t i x frag act) (hne : stop ≠ [])
    (hstop : strEq x.name stop = true) : Renders env data t ctx i stop (.ok (x.text, i)) := by
  intro n hpos _
  rw [renderInternal_stop h.fragment h.action hne (by rwa [h.name]) hpos, h.text]

/-- A turn of the walk, at an action that it passes. -/
theorem Stands.renderInternal_succ (h : Stands data t i x frag act)
    (hpass : Doc.Passes stop x.name) : renderInternal env data t (n + 1) ctx i stop =
      match renderTag env data t (renderInternal env data t n) act ctx i with
      | .error fault => .error fault
      | .ok (text, index) =>
        prepend (x.text ++ text) (renderInternal env data t n ctx (index + 1) stop) := by
  have hgo : ¬(stop ≠ [] ∧ strEq x.name stop = true) := by
    rintro ⟨hne, hstop⟩
    exact hpass.elim hne fun hpass => by simp [hstop] at hpass
  rw [renderInternal, h.fragment, h.action]
  simp only [h.name, h.text]
  rw [if_neg hgo]

/-- The walk goes on behind an action that it passes. -/
theorem Stands.renders_next (h : Stands data t i x frag act) (hpass : Doc.Passes stop x.name)
    (hik : i ≤ k) (hwrites : Writes env data t ctx act i (.ok (out, k)))
    (hnext : Renders env data t ctx (k + 1) stop r) :
    Renders env data t ctx i stop (prepend (x.text ++ out) r) := by
  intro n hpos hn
  obtain ⟨n, rfl⟩ := Nat.exists_eq_add_one_of_ne_zero hpos.ne'
  have hlt : i < t.fragments.length := (List.getElem?_eq_some_iff.mp h.fragment).1
  rw [h.renderInternal_succ hpass, hwrites n (by omega) (by omega)]
  exact congrArg (prepend _) (hnext n (by omega) (by omega))

/-- What is thrown by a tag is thrown. -/
theorem Stands.renders_throw (h : Stands data t i x frag act) (hpass : Doc.Passes stop x.name)
    (hwrites : Writes env data t ctx act i (.error .thrown)) :
    Renders env data t ctx i stop (.error .thrown) := by
  intro n hpos hn
  obtain ⟨n, rfl⟩ := Nat.exists_eq_add_one_of_ne_zero hpos.ne'
  have hlt : i < t.fragments.length := (List.getElem?_eq_some_iff.mp h.fragment).1
  rw [h.renderInternal_succ hpass, hwrites n (by omega) (by omega)]

/-! ### One tag -/

/-- A tag that is no block. -/
theorem writes_tag (i : ℕ) (hkind : act.tag ≠ .openBlock ∧ act.tag ≠ .elseBlock) :
    Writes env data t ctx act i ((tagText env act.tag (tagName data act) ctx).elim
      (.error .thrown) fun out => .ok (out, i)) := by
  intro n _ _
  rw [renderTag]
  split
  next htag => exact absurd htag hkind.2
  next htag => exact absurd htag hkind.1
  next => cases tagText env act.tag (tagName data act) ctx <;> rfl

/-- A block whose name is looked up in no object. -/
theorem writes_missing (hkind : act.tag = .openBlock ∨ act.tag = .elseBlock)
    (hval : ctx.get (tagName data act) = none) :
    Writes env data t ctx act i (.error .thrown) := by
  intro n _ _
  rcases hkind with hkind | hkind
  · rw [renderTag, hkind]
    simp only [hval]
  · rw [renderTag, hkind]
    simp only [hval]

/-- An inverted section writes the fragment in it, or passes it. -/
theorem writes_inverted (hkind : act.tag = .elseBlock)
    (hval : ctx.get (tagName data act) = some val) (hfrag : t.fragments[i + 1]? = some frag) :
    Writes env data t ctx act i (.ok (if val.empty then fragString data frag else [], i + 1)) := by
  intro n _ _
  rw [renderTag, hkind]
  simp only [hval, hfrag]
  split_ifs <;> rfl

/-- A section over an empty value is passed up to its closing tag. -/
theorem writes_empty (hkind : act.tag = .openBlock) (hval : ctx.get (tagName data act) = some val)
    (hempty : val.empty = true) (hclosing : closing data t (tagName data act) i = k) :
    Writes env data t ctx act i (.ok ([], k)) := by
  intro n _ _
  rw [renderTag, hkind]
  simp only [hval, hempty, if_true, hclosing]

/-- A section over another value is left where it is entered. -/
theorem Stands.writes_value (h : Stands data t i x frag act) (hkind : act.tag = .openBlock)
    (hne : x.name ≠ []) (hval : ctx.get (tagName data act) = some val) (hempty : val.empty = false)
    (harray : val.type ≠ .array) : Writes env data t ctx act i (.ok (x.text, i)) := by
  intro n hpos hn
  have hstop : renderInternal env data t n val i (tagName data act) = .ok (x.text, i) := by
    rw [h.name, ← h.text]
    exact renderInternal_stop h.fragment h.action hne (by rw [h.name, strEq_self]) hpos
  rw [renderTag, hkind]
  simp only [hval, hempty, Bool.false_eq_true, if_false]
  rw [← hstop]
  cases val with
  | array es => exact absurd rfl harray
  | _ => rfl

/-- The loop over an array, when what is walked for its elements ends at one index. -/
theorem renderEach_eq {each : Json N → Except Fault (Bytes × ℕ)} {body : Json N → Option Bytes}
    {P : Json N → Prop} {es : List (Json N)} (hP : Doc.Each P body es)
    (heach : ∀ e, P e → each e = (body e).elim (.error .thrown) fun out => .ok (out, k))
    (out : Bytes) (hne : es ≠ []) :
    renderEach each es (out, i) =
      ((es.mapM body).map List.flatten).elim (.error .thrown) fun text => .ok (out ++ text, k) := by
  induction es generalizing out i with
  | nil => exact absurd rfl hne
  | cons e es ih =>
    rw [renderEach, heach e hP.1, List.mapM_cons]
    rcases hd : body e with _ | text
    · rfl
    have hrest := hP.2 (by rw [hd]; rfl)
    rcases es with _ | ⟨e', es⟩
    · simp [renderEach]
    · simp only [Option.elim_some]
      rw [ih hrest _ (List.cons_ne_nil _ _)]
      rcases List.mapM body (e' :: es) with _ | texts
      · rfl
      · simp [List.append_assoc]

/-- A section over an array. -/
theorem writes_array {es : List (Json N)} {body : Json N → Option Bytes} {P : Json N → Prop}
    (hkind : act.tag = .openBlock) (hval : ctx.get (tagName data act) = some (.array es))
    (hne : es ≠ []) (hP : Doc.Each P body es)
    (heach : ∀ e, P e → Renders env data t e (i + 1) (tagName data act)
      ((body e).elim (.error .thrown) fun out => .ok (out, k))) :
    Writes env data t ctx act i (((es.mapM body).map List.flatten).elim (.error .thrown)
      fun out => .ok (out, k)) := by
  intro n hpos hn
  have hempty : (Json.array es).empty = false := by simpa [Json.empty] using hne
  rw [renderTag, hkind]
  simp only [hval, hempty, Bool.false_eq_true, if_false]
  rw [renderEach_eq hP (fun e he => heach e he n hpos (by omega)) [] hne]
  rfl

theorem closing_eq (hik : i ≤ k)
    (hbefore : ∀ j, i ≤ j → j < k → ∃ a, t.actions[j]? = some a ∧
      (strEq (tagName data a) name && a.tag = .closeBlock) = false)
    (hat : ∃ a, t.actions[k]? = some a ∧
      (strEq (tagName data a) name && a.tag = .closeBlock) = true) :
    closing data t name i = k := by
  obtain ⟨a, ha, hclose⟩ := hat
  have hlen : k < t.actions.length := (List.getElem?_eq_some_iff.mp ha).1
  have hdrop : k - i < (t.actions.drop i).length := by
    rw [List.length_drop]
    omega
  have hfind : (t.actions.drop i).findIdx
      (fun a => strEq (tagName data a) name && a.tag = .closeBlock) = k - i := by
    rw [List.findIdx_eq hdrop]
    constructor
    · rw [List.getElem_drop, ← hclose]
      have hget := List.getElem?_eq_getElem hlen
      rw [ha] at hget
      simp only [show i + (k - i) = k by omega]
      rw [← Option.some.inj hget]
    · intro j hj
      obtain ⟨b, hb, hno⟩ := hbefore (i + j) (by omega) (by omega)
      rw [List.getElem_drop, ← hno]
      have hget := List.getElem?_eq_getElem (show i + j < t.actions.length by omega)
      rw [hb] at hget
      rw [← Option.some.inj hget]
  rw [closing, hfind]
  omega

/-- The first closing tag of a name is that of the block, when none in it has the name. -/
theorem StandAll.closing_eq {items : List Item}
    (hx : Stands data t i ⟨text, .openBlock, name⟩ frag act) (hbody : StandAll data t (i + 1) items)
    (hclose : ∃ frag act, Stands data t (i + 1 + items.length) ⟨out, .closeBlock, name⟩ frag act)
    (hapart : ∀ x ∈ items, x.kind = .closeBlock → strEq x.name name = false) :
    closing data t name i = i + 1 + items.length := by
  obtain ⟨frag', act', hc⟩ := hclose
  refine Mustache.closing_eq (by omega) (fun j hij hjk => ?_) ⟨act', hc.action, ?_⟩
  · rcases Nat.eq_or_lt_of_le hij with rfl | hij
    · refine ⟨act, hx.action, ?_⟩
      rw [hx.kind]
      simp
    · have hlt : j - (i + 1) < items.length := by omega
      obtain ⟨frag', act', hy⟩ := hbody.at (List.getElem?_eq_getElem hlt)
      rw [show i + 1 + (j - (i + 1)) = j by omega] at hy
      refine ⟨act', hy.action, ?_⟩
      rw [hy.kind, hy.name, Bool.and_eq_false_iff, decide_eq_false_iff_not]
      by_cases hkind : (items[j - (i + 1)]).kind = .closeBlock
      · exact Or.inl (hapart _ (List.getElem_mem hlt) hkind)
      · exact Or.inr hkind
  · rw [hc.kind, hc.name, strEq_self]
    rfl

/-! ### Rendering a tree -/

theorem Doc.sectionText_array {body : Json N → Option Bytes} {es : List (Json N)} (hne : es ≠ []) :
    sectionText body (.array es) = (es.mapM body).map List.flatten :=
  if_neg (by simpa [Json.empty] using hne)

theorem Doc.sectionText_value {body : Json N → Option Bytes} (hempty : val.empty = false)
    (harray : val.type ≠ .array) : sectionText body val = body val := by
  rw [sectionText, if_neg (Bool.eq_false_iff.mp hempty)]
  rintro es rfl
  exact harray rfl

/-- Text and comments mean the same everywhere. -/
theorem Doc.Constant.denote {d : Doc} (h : d.Constant) (env : Env N) :
    ∃ out, ∀ ctx, d.denote env ctx = some out := by
  induction d with
  | text t => exact ⟨t, fun ctx => rfl⟩
  | tag t kind name rest ih =>
    obtain ⟨rfl, hrest⟩ := h
    obtain ⟨out, hout⟩ := ih hrest
    refine ⟨t ++ [] ++ out, fun ctx => ?_⟩
    rw [Doc.denote, hout]
    rfl
  | block t name body rest ihb ihr => exact absurd h id
  | inverted t name body rest ih => exact absurd h id

/-- **The walk over a tree** that is plain in a context writes its meaning, or throws as it does. -/
theorem renders_doc (d : Doc) (hproper : d.Proper) (hstand : StandAll data t i d.items)
    (hplain : d.Plain env stop ctx)
    (hnext : Renders env data t ctx (i + d.items.length) stop (prepend d.last r)) :
    Renders env data t ctx i stop
      ((d.denote env ctx).elim (.error .thrown) fun out => prepend out r) := by
  induction d generalizing i stop ctx r with
  | text t => exact hnext
  | tag text kind name rest ih =>
    obtain ⟨⟨frag, act, hx⟩, hrest⟩ := hstand
    obtain ⟨hopen, helse, -, hproper⟩ := hproper
    obtain ⟨hpass, hplain⟩ := hplain
    have hwrites : Writes env data t ctx act i ((tagText env act.tag (tagName data act) ctx).elim
        (.error .thrown) fun out => .ok (out, i)) :=
      writes_tag i ⟨hx.kind.trans_ne hopen, hx.kind.trans_ne helse⟩
    rw [hx.kind, hx.name] at hwrites
    rw [Doc.denote]
    rcases hout : tagText env kind name ctx with _ | out
    · rw [hout] at hwrites
      exact hx.renders_throw hpass hwrites
    · rw [hout] at hwrites
      have hgo := ih hproper hrest (hplain (by rw [hout]; rfl))
        (by rwa [show i + 1 + rest.items.length = i + (rest.items.length + 1) by omega])
      rw [Option.bind_some, elim_map_prepend]
      exact hx.renders_next hpass le_rfl hwrites hgo
  | block text name body rest ihb ihr =>
    obtain ⟨⟨frag, act, hx⟩, hstand⟩ := hstand
    rw [standAll_append] at hstand
    obtain ⟨hbody, hclose, hrest⟩ := hstand
    obtain ⟨hname, hproperb, hproper⟩ := hproper
    obtain ⟨hpass, hplain⟩ := hplain
    set m := i + 1 + body.items.length with hm
    have hactname : tagName data act = name := hx.name
    rw [Doc.denote]
    rcases hval : ctx.get name with _ | val
    · exact hx.renders_throw hpass (writes_missing (Or.inl hx.kind) (by rw [hactname, hval]))
    obtain ⟨hsection, hplain⟩ := hplain val hval
    rw [← hactname] at hval
    rw [Option.bind_some]
    -- what comes behind the section
    have hgo : (Doc.sectionText (body.denote env) val).isSome → Renders env data t ctx (m + 1) stop
        ((rest.denote env ctx).elim (.error .thrown) fun out => prepend out r) := by
      intro hsome
      have hlen : i + (Doc.block text name body rest).items.length = m + 1 + rest.items.length := by
        rw [Doc.items, List.length_cons, List.length_append, List.length_cons]
        omega
      exact ihr hproper hrest (hplain hsome) (by rwa [← hlen])
    by_cases hempty : val.empty = true
    · rw [if_pos hempty] at hsection
      have hmeans : Doc.sectionText (body.denote env) val = some [] := if_pos hempty
      rw [hmeans] at hgo ⊢
      have hclosing := StandAll.closing_eq hx hbody hclose hsection
      rw [← hactname] at hclosing
      rw [Option.bind_some, elim_map_prepend]
      exact hx.renders_next hpass (by omega) (writes_empty hx.kind hval hempty hclosing) (hgo rfl)
    rw [if_neg hempty] at hsection
    obtain ⟨frag', act', hc⟩ := hclose
    have hvalue : val.type ≠ .array → (text = [] ∧ body.Constant ∧ body.Plain env stop ctx) →
        Renders env data t ctx i stop (((Doc.sectionText (body.denote env) val).bind fun out =>
          (rest.denote env ctx).map (text ++ out ++ ·)).elim (.error .thrown)
            fun out => prepend out r) := by
      rintro harray ⟨rfl, hconst, hplainb⟩
      obtain ⟨out, hout⟩ := hconst.denote env
      have hmeans : Doc.sectionText (body.denote env) val = some out :=
        (Doc.sectionText_value (Bool.eq_false_iff.mpr hempty) harray).trans (hout val)
      rw [hmeans] at hgo ⊢
      -- the body is rendered by this walk, and its closing tag is passed
      have hend : Writes env data t ctx act' m (.ok ([], m)) := by
        have hwrites : Writes env data t ctx act' m _ :=
          writes_tag m ⟨hc.kind.trans_ne (by simp), hc.kind.trans_ne (by simp)⟩
        rwa [hc.kind] at hwrites
      have hbehind := hc.renders_next hpass le_rfl hend (hgo rfl)
      rw [List.append_nil] at hbehind
      have hwalk := ihb hproperb hbody hplainb hbehind
      rw [hout ctx] at hwalk
      have hwrites : Writes env data t ctx act i (.ok ([], i)) :=
        hx.writes_value hx.kind hname hval (Bool.eq_false_iff.mpr hempty) harray
      have hone := hx.renders_next hpass le_rfl hwrites hwalk
      rw [Option.elim_some, prepend_prepend] at hone
      rw [Option.bind_some, elim_map_prepend]
      exact hone
    cases val with
    | null => exact absurd rfl hempty
    | bool b => exact hvalue (by simp [Json.type]) hsection
    | string s => exact hvalue (by simp [Json.type]) hsection
    | number x => exact hvalue (by simp [Json.type]) hsection
    | object ms => exact hvalue (by simp [Json.type]) hsection
    | array es =>
      have hne : es ≠ [] := by
        rintro rfl
        exact hempty rfl
      have heach : ∀ e, body.Plain env name e → Renders env data t e (i + 1) (tagName data act)
          ((body.denote env e).elim (.error .thrown) fun out => .ok (out, m)) := by
        intro e he
        have hstop : Renders env data t e m name (prepend body.last (.ok ([], m))) := by
          rw [prepend, Except.map, List.append_nil]
          exact hc.renders_stop hname (strEq_self name)
        have hwalk := ihb hproperb hbody he hstop
        rw [hactname]
        simpa [prepend, Except.map] using hwalk
      have hwrites := writes_array hx.kind hval hne hsection heach
      rw [Doc.sectionText_array hne] at hgo ⊢
      rcases hout : (es.mapM (body.denote env)).map List.flatten with _ | out
      · rw [hout] at hwrites
        exact hx.renders_throw hpass hwrites
      · rw [hout] at hwrites hgo
        rw [Option.bind_some, elim_map_prepend]
        exact hx.renders_next hpass (by omega) hwrites (hgo rfl)
  | inverted text name body rest ih =>
    obtain ⟨⟨frag, act, hx⟩, ⟨frag', act', hc⟩, hrest⟩ := hstand
    obtain ⟨hpass, hplain⟩ := hplain
    have hactname : tagName data act = name := hx.name
    rw [Doc.denote]
    rcases hval : ctx.get name with _ | val
    · exact hx.renders_throw hpass (writes_missing (Or.inr hx.kind) (by rw [hactname, hval]))
    have hgo := ih hproper hrest (hplain val hval)
      (by rwa [show i + 1 + 1 + rest.items.length = i + (rest.items.length + 1 + 1) by omega])
    rw [← hactname] at hval
    have hwrites : Writes env data t ctx act i
        (.ok (if val.empty then fragString data frag' else [], i + 1)) :=
      writes_inverted hx.kind hval hc.fragment
    rw [hc.text] at hwrites
    rw [Option.bind_some, elim_map_prepend]
    exact hx.renders_next hpass (Nat.le_succ i) hwrites hgo

/-- Behind the last tag there is one fragment at most. -/
theorem Shaped.renders_end (h : Shaped data t) (ctx : Json N) :
    Renders env data t ctx t.actions.length stop
      (prepend (t.last data) (.ok ([], t.fragments.length))) := by
  have hnone : ∀ n, renderInternal env data t (n + 1) ctx t.fragments.length stop =
      .ok ([], t.fragments.length) := by
    intro n
    rw [renderInternal, List.getElem?_eq_none le_rfl]
  intro n hpos hn
  obtain ⟨n, rfl⟩ := Nat.exists_eq_add_one_of_ne_zero hpos.ne'
  rcases h.count with hlen | hlen
  · rw [Template.last, ← hlen, hnone, List.getElem?_eq_none le_rfl]
    rfl
  · obtain ⟨n, rfl⟩ := Nat.exists_eq_add_one_of_ne_zero (show n ≠ 0 by omega)
    have hlast := List.getElem?_eq_getElem (show t.actions.length < t.fragments.length by omega)
    rw [Template.last, renderInternal, hlast, List.getElem?_eq_none le_rfl]
    simp only [← hlen, hnone]
    rfl

theorem IsTree.renders {d : Doc} (h : IsTree data t d) (hshaped : Shaped data t)
    (hplain : d.Plain env [] ctx) :
    render env data t ctx = (d.denote env ctx).elim (.error .thrown) .ok := by
  have hlen : d.items.length = t.actions.length := by
    have hcount := hshaped.count
    rw [h.items, Template.items, itemsOf, List.length_zipWith, List.length_map]
    omega
  have hend : Renders env data t ctx (0 + d.items.length) []
      (prepend d.last (.ok ([], t.fragments.length))) := by
    rw [Nat.zero_add, hlen, h.last]
    exact hshaped.renders_end ctx
  have hstand : StandAll data t 0 d.items := h.items ▸ standAll_items data t
  rw [render, renders_doc d h.proper hstand hplain hend _ (Nat.succ_pos _) le_rfl]
  rcases d.denote env ctx with _ | out
  · rfl
  · simp [prepend, Except.map]

/-- **The templates and contexts that are rendered** as they should be. -/
theorem parse_renders (env : Env N) (h : parse data size = some t) :
    ∃ d, t.tree data = some d ∧ ∀ ctx, d.Plain env [] ctx →
      render env data t ctx = (d.denote env ctx).elim (.error .thrown) .ok := by
  have hshaped := shaped_of_parse h
  obtain ⟨d, hd, htree⟩ := hshaped.tree
  exact ⟨d, hd, fun ctx hplain => htree.renders hshaped hplain⟩

end

/-! ### A page -/

namespace Sample

/-- Whole numbers, and no other templates. -/
def env : Env ℕ := ⟨decimalText, fun _ _ => none⟩

/-- A body in memory. -/
def memory (body : Bytes) (i : ℕ) : UInt8 := body.getD i 0

def x : CString := ⟨ascii "x", by decide⟩

def y : CString := ⟨ascii "y", by decide⟩

/-- A text between the braces of a tag. -/
def braced (text : String) : Bytes := 123 :: 123 :: (ascii text ++ [125, 125])

/-- A tag, a comment, a section over an array, one over another value, and an inverted one. -/
def page : Bytes :=
  ascii "a " ++ braced "x" ++ braced "! note " ++ ascii ": " ++
    braced "#y" ++ ascii "-" ++ braced "x" ++ braced "/y" ++
    braced "#x" ++ ascii "!" ++ braced "/x" ++ braced "^z" ++ ascii "?" ++ braced "/z"

def context : Json ℕ :=
  .object [(x, .string ⟨ascii "<", by decide⟩),
    (y, .array [.object [(x, .number 1)], .object [(x, .number 2)]])]

/-- A section over an object, behind a text. -/
def inner : Bytes := ascii "a" ++ braced "#y" ++ braced "x" ++ braced "/y"

def innerContext : Json ℕ := .object [(x, .number 2), (y, .object [(x, .number 1)])]

/-- A section over an array, with a comment that says its name. -/
def noted : Bytes := braced "#y" ++ braced "!y" ++ ascii "b" ++ braced "/y"

def notedContext : Json ℕ := .object [(y, .array [.null, .null])]

end Sample

open Sample in
theorem parse_renders_page :
    ∃ t d, parse (memory page) page.length = some t ∧ t.tree (memory page) = some d ∧
      d.Plain env [] context ∧
      render env (memory page) t context = .ok (ascii "a &lt;: -1-2!?") := by
  obtain ⟨t, ht⟩ : ∃ t, parse (memory page) page.length = some t :=
    Option.isSome_iff_exists.mp (by decide +kernel)
  obtain ⟨d, hd, hrenders⟩ := parse_renders env ht
  have hd' : (parse (memory page) page.length).bind (·.tree (memory page)) = some d := by
    rw [ht, Option.bind_some, hd]
  have hplain : ((parse (memory page) page.length).bind (·.tree (memory page))).all
      (fun d => Doc.Plain env d [] context) = true := by decide +kernel
  have htext : ((parse (memory page) page.length).bind (·.tree (memory page))).bind
      (fun d => Doc.denote env d context) = some (ascii "a &lt;: -1-2!?") := by decide +kernel
  rw [hd'] at hplain htext
  replace hplain : d.Plain env [] context := by simpa using hplain
  refine ⟨t, d, ht, hd, hplain, ?_⟩
  rw [hrenders context hplain, show d.denote env context = _ from htext]
  rfl

open Sample in
/-- The text in front of a section over an object is written twice, and its body is rendered with
the context outside; a section over an array ends for each element at a comment with its name. -/
theorem not_parse_renders :
    (∃ t d, parse (memory inner) inner.length = some t ∧ t.tree (memory inner) = some d ∧
      d.denote env innerContext = some (ascii "a1") ∧
      render env (memory inner) t innerContext = .ok (ascii "aa2")) ∧
    ∃ t d, parse (memory noted) noted.length = some t ∧ t.tree (memory noted) = some d ∧
      d.denote env notedContext = some (ascii "bb") ∧
      render env (memory noted) t notedContext = .ok (ascii "b") := by
  refine ⟨⟨⟨[(0, 1), (7, 7), (12, 12)],
      [⟨.openBlock, 4, 5, 0⟩, ⟨.tag, 9, 10, 0⟩, ⟨.closeBlock, 15, 16, 0⟩], 18⟩,
    .block (ascii "a") (ascii "y") (.tag [] .tag (ascii "x") (.text [])) (.text []),
    by decide +kernel, by decide +kernel, by decide +kernel, by decide +kernel⟩,
    ⟨[(0, 0), (6, 6), (12, 13)],
      [⟨.openBlock, 3, 4, 0⟩, ⟨.ignore, 9, 10, 0⟩, ⟨.closeBlock, 16, 17, 0⟩], 19⟩,
    .block [] (ascii "y") (.tag [] .ignore (ascii "y") (.text (ascii "b"))) (.text []),
    by decide +kernel, by decide +kernel, by decide +kernel, by decide +kernel⟩

end Mustache
end Suil
