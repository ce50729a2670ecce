import SceneGraph.Proofs.Cycles

/-!
Compiling two graphs side by side.

A node is idle if it needs nothing, contributes nothing and has no children: it makes no
difference to a list whether such a node is required, or another one instead, or none.  Two
graphs that agree up to idle nodes, and up to what is replaced in their commands, have lists that
agree up to what is replaced.  Main statement: `RenderGraph.Beside.compileNested`.
-/

namespace SceneGraph

variable {ν κ : Type}

/-- Two compiles end together: with the same failure, or with related results.  Where one of them
is cut off, nothing is said. -/
inductive Together {α β : Type} (r : α → β → Prop) :
    Except (CompileFailure ν) α → Except (CompileFailure ν) β → Prop
  | cut (y : Except (CompileFailure ν) β) : Together r (.error .tooDeep) y
  | cut' (x : Except (CompileFailure ν) α) : Together r x (.error .tooDeep)
  | error (e : CompileFailure ν) : Together r (.error e) (.error e)
  | ok {a : α} {b : β} (h : r a b) : Together r (.ok a) (.ok b)

namespace Together

variable {α β α' β' : Type} {r : α → β → Prop} {r' : α' → β' → Prop}

theorem bind {x : Compiling ν κ α} {y : Compiling ν κ β} {f : α → Compiling ν κ α'}
    {f' : β → Compiling ν κ β'} (h : Together r x.result y.result)
    (hf : ∀ a b, r a b → Together r' (f a).result (f' b).result) :
    Together r' (x >>= f).result (y >>= f').result := by
  rw [Traced.result_bind, Traced.result_bind]
  generalize x.result = x at h
  generalize y.result = y at h
  cases h with
  | cut => exact .cut _
  | cut' => exact .cut' _
  | error e => exact .error e
  | ok h => exact hf _ _ h

theorem map {x : Except (CompileFailure ν) α} {y : Except (CompileFailure ν) β} {f : α → α'}
    {f' : β → β'} (h : Together r x y) (hf : ∀ a b, r a b → r' (f a) (f' b)) :
    Together r' (x.map f) (y.map f') := by
  cases h with
  | cut => exact .cut _
  | cut' => exact .cut' _
  | error e => exact .error e
  | ok h => exact .ok (hf _ _ h)

/-- Loops over lists that are related entry by entry. -/
theorem foldlM {γ γ' : Type} {e : γ → γ' → Prop} {f : α → γ → Compiling ν κ α}
    {f' : β → γ' → Compiling ν κ β} {l : List γ} {l' : List γ'} (hl : List.Forall₂ e l l')
    (hf : ∀ a b c c', r a b → e c c' → Together r (f a c).result (f' b c').result)
    {a : α} {b : β} (h : r a b) : Together r (l.foldlM f a).result (l'.foldlM f' b).result := by
  induction hl generalizing a b with
  | nil => exact .ok h
  | cons hfirst _ ih =>
      rw [List.foldlM_cons, List.foldlM_cons]
      exact (hf _ _ _ _ h hfirst).bind fun _ _ => ih

theorem mapM {γ γ' : Type} {e : γ → γ' → Prop} {f : γ → Compiling ν κ α}
    {f' : γ' → Compiling ν κ β} {l : List γ} {l' : List γ'} (hl : List.Forall₂ e l l')
    (hf : ∀ c c', e c c' → Together r (f c).result (f' c').result) :
    Together (List.Forall₂ r) (l.mapM f).result (l'.mapM f').result := by
  induction hl with
  | nil => exact .ok .nil
  | cons hfirst _ ih =>
      rw [List.mapM_cons, List.mapM_cons]
      exact (hf _ _ hfirst).bind fun _ _ h => ih.bind fun _ _ hrest => .ok (.cons h hrest)

end Together

/-- Two lists with the same root and the same inputs, and related commands. -/
structure CommandList.Like (k : κ → κ → Prop) (list list' : CommandList ν κ) : Prop where
  root : list'.root = list.root
  commands : List.Forall₂ k list.commands list'.commands
  inputs : list'.inputs = list.inputs

/-- An entry that brings nothing into a list. -/
def Requirement.Skips (idle : ν → Prop) : Requirement ν κ → Prop
  | .gap => True
  | .node m => idle m
  | .command _ => False

namespace RenderGraph

variable {g g' : RenderGraph ν κ} {idle : ν → Prop} {k : κ → κ → Prop}
  {isolated pending : List ν} {root n m : ν}

/-- A node that makes no difference to a list. -/
structure Inert (g : RenderGraph ν κ) (isolated : List ν) (n : ν) : Prop where
  requirements : ∀ r ∈ g.requirements isolated n, r = .gap
  contributions : g.contributions isolated n = []
  inputIndex : g.inputIndex n = none

/-- Two compiles may differ in such entries of the requirements of a node. -/
inductive SimilarNeed (idle : ν → Prop) (k : κ → κ → Prop) :
    Requirement ν κ → Requirement ν κ → Prop
  | node (m : ν) : SimilarNeed idle k (.node m) (.node m)
  | command {c c' : κ} (hc : k c c') : SimilarNeed idle k (.command c) (.command c')
  | skips {r r' : Requirement ν κ} (hr : r.Skips idle) (hr' : r'.Skips idle) :
      SimilarNeed idle k r r'

/-- Contributions of one node in two graphs. -/
inductive SimilarContribution (g : RenderGraph ν κ) (k : κ → κ → Prop) :
    Contribution ν κ → Contribution ν κ → Prop
  | command {c c' : κ} (hc : k c c') : SimilarContribution g k (.command c) (.command c')
  | embed {m : ν} (hm : m ∈ g.nodes) : SimilarContribution g k (.embed m) (.embed m)

/-- The second graph answers like the first one up to idle nodes and replaced commands. -/
structure Beside (g g' : RenderGraph ν κ) (idle : ν → Prop) (k : κ → κ → Prop) : Prop where
  nodes : g.nodes ⊆ g'.nodes
  inert : ∀ isolated n, idle n → g.Inert isolated n
  inert' : ∀ isolated n, idle n → g'.Inert isolated n
  nodes' : ∀ n, idle n → n ∈ g'.nodes
  closed : ∀ isolated, g.Closed isolated
  requirements : ∀ isolated, ∀ n ∈ g.nodes, List.Forall₂ (SimilarNeed idle k)
    (g.requirements isolated n) (g'.requirements isolated n)
  contributions : ∀ isolated, ∀ n ∈ g.nodes, List.Forall₂ (SimilarContribution g k)
    (g.contributions isolated n) (g'.contributions isolated n)
  children : ∀ isolated, ∀ n ∈ g.nodes, g'.children isolated n = g.children isolated n
  inputIndex : g'.inputIndex = g.inputIndex
  embed : ∀ list list', CommandList.Like k list list' → k (g.embed list) (g'.embed list')

variable [DecidablePred idle]

/-- Two states of compiles that have come equally far. -/
structure Level (idle : ν → Prop) [DecidablePred idle] (k : κ → κ → Prop)
    (s t : CompileState ν κ) : Prop where
  added : t.added.filter (¬ idle ·) = s.added.filter (¬ idle ·)
  expanded : t.expanded = s.expanded
  commands : List.Forall₂ k (s.emissions.flatMap Emission.commands)
    (t.emissions.flatMap Emission.commands)

/-- From one state of a compile to the other, nothing was added but idle nodes. -/
structure Idles (idle : ν → Prop) [DecidablePred idle] (s t : CompileState ν κ) : Prop where
  added : t.added.filter (¬ idle ·) = s.added.filter (¬ idle ·)
  expanded : t.expanded = s.expanded
  commands : t.emissions.flatMap Emission.commands = s.emissions.flatMap Emission.commands

variable {s t s' t' : CompileState ν κ}

theorem Idles.refl (s : CompileState ν κ) : Idles idle s s :=
  ⟨rfl, rfl, rfl⟩

theorem Level.idles (h : Level idle k s t) (hs : Idles idle s s') (ht : Idles idle t t') :
    Level idle k s' t' where
  added := ht.added.trans (h.added.trans hs.added.symm)
  expanded := ht.expanded.trans (h.expanded.trans hs.expanded.symm)
  commands := by
    rw [hs.commands, ht.commands]
    exact h.commands

theorem Level.mem_added (h : Level idle k s t) (hn : ¬ idle n) : n ∈ t.added ↔ n ∈ s.added := by
  have hmem : ∀ l : List ν, n ∈ l.filter (¬ idle ·) ↔ n ∈ l := fun l => by
    simp [List.mem_filter, hn]
  rw [← hmem t.added, h.added, hmem]

theorem Level.emit (h : Level idle k s t) {e e' : Emission ν κ}
    (he : List.Forall₂ k e.commands e'.commands) : Level idle k (s.emit e) (t.emit e') where
  added := h.added
  expanded := h.expanded
  commands := by
    simp only [CompileState.emissions_emit, List.flatMap_append, List.flatMap_singleton]
    exact List.rel_append h.commands he

theorem Level.complete (h : Level idle k s t) {own own' : List κ}
    (hown : List.Forall₂ k own own') (hn : ¬ idle n) :
    Level idle k (s.complete n own) (t.complete n own') where
  added := by
    simp only [CompileState.added_complete, List.filter_cons, hn, not_false_eq_true, decide_true,
      if_true, h.added]
  expanded := h.expanded
  commands := by
    have he : List.Forall₂ k (Emission.own n own).commands (Emission.own n own').commands := hown
    exact (h.emit he).commands

theorem Level.expand (h : Level idle k s t) : Level idle k (s.expand n) (t.expand n) where
  added := h.added
  expanded := congrArg (n :: ·) h.expanded
  commands := h.commands

/-- The inputs of a list do not depend on idle nodes. -/
theorem Level.bindings (h : Level idle k s t) (hindex : g'.inputIndex = g.inputIndex)
    (hidle : ∀ n, idle n → g.inputIndex n = none) : g'.bindings t = g.bindings s := by
  have hfilter : ∀ l : List ν, l.filterMap (fun n => (g.inputIndex n).map (InputBinding.mk n)) =
      (l.filter (¬ idle ·)).filterMap fun n => (g.inputIndex n).map (InputBinding.mk n) := by
    intro l
    rw [List.filterMap_filter]
    refine List.filterMap_congr fun n _ => ?_
    by_cases hn : idle n
    · simp [hn, hidle n hn]
    · simp [hn]
  rw [RenderGraph.bindings, RenderGraph.bindings, hindex, hfilter t.added.reverse,
    hfilter s.added.reverse, List.filter_reverse, List.filter_reverse, h.added]

/-- A compile that adds nothing but idle nodes, if it is not cut off. -/
inductive Passes (idle : ν → Prop) [DecidablePred idle] (s : CompileState ν κ) :
    Except (CompileFailure ν) (CompileState ν κ) → Prop
  | cut : Passes idle s (.error .tooDeep)
  | ok {s' : CompileState ν κ} (h : Idles idle s s') : Passes idle s (.ok s')

theorem Level.passes (h : Level idle k s t) {x y : Except (CompileFailure ν) (CompileState ν κ)}
    (hx : Passes idle s x) (hy : Passes idle t y) : Together (Level idle k) x y := by
  cases hx with
  | cut => exact .cut _
  | ok hs =>
      cases hy with
      | cut => exact .cut' _
      | ok ht => exact .ok (h.idles hs ht)

variable {nested nested' : Nested ν κ}

/-- Adding a node takes its own commands and nothing else. -/
theorem result_add : (g.add nested isolated s n).result =
    ((g.contributions isolated n).mapM (g.contribute nested isolated)).result.map
      (s.complete n) := by
  rw [add, Traced.result_bind]
  cases ((g.contributions isolated n).mapM (g.contribute nested isolated)).result with
  | error e => rfl
  | ok own =>
      simp only [Except.bind, Except.map]
      split <;> rfl

theorem Beside.add (h : g.Beside g' idle k)
    (hnested : ∀ isolated, ∀ m ∈ g.nodes, Together (CommandList.Like k)
      (nested isolated m).result (nested' isolated m).result)
    (hlevel : Level idle k s t) (hn : n ∈ g.nodes) (hidle : ¬ idle n) :
    Together (Level idle k) (g.add nested isolated s n).result
      (g'.add nested' isolated t n).result := by
  have hown : Together (List.Forall₂ k)
      ((g.contributions isolated n).mapM (g.contribute nested isolated)).result
      ((g'.contributions isolated n).mapM (g'.contribute nested' isolated)).result := by
    refine .mapM (h.contributions isolated n hn) fun c c' hc => ?_
    cases hc with
    | command hc => exact .ok hc
    | embed hm => exact (hnested _ _ hm).bind fun list list' hlike => .ok (h.embed list list' hlike)
  rw [result_add, result_add]
  exact hown.map fun own own' hown => hlevel.complete hown hidle

theorem foldlM_gaps {require : CompileState ν κ → ν → Compiling ν κ (CompileState ν κ)}
    {rs : List (Requirement ν κ)} (h : ∀ r ∈ rs, r = .gap) :
    rs.foldlM (meet require n) s = pure s := by
  induction rs with
  | nil => rfl
  | cons r rs ih =>
      rw [List.forall_mem_cons] at h
      rw [List.foldlM_cons, h.1, meet, pure_bind, ih h.2]

variable [DecidableEq ν]

/-- Requiring an idle node. -/
theorem require_passes {depth : Nat} (hinert : g.Inert isolated n) (hidle : idle n)
    (hn : n ∈ g.nodes) (hpending : ∀ p ∈ pending, ¬ idle p) :
    Passes idle s (g.require nested isolated root depth pending s n).result := by
  cases depth with
  | zero => exact .cut
  | succ depth =>
      have hwaits : n ∉ pending := fun hmem => hpending n hmem hidle
      rw [require]
      by_cases hadded : n ∈ s.added
      · rw [if_pos hadded]
        exact .ok (.refl s)
      · have hown : g.Contributes nested isolated n [] := by
          rw [Contributes, hinert.contributions]
          rfl
        rw [if_neg hadded, if_neg hwaits, if_pos hn, foldlM_gaps hinert.requirements,
          pure_bind, add_eq_ok.2 ⟨[], hown, rfl⟩]
        refine .ok ⟨?_, rfl, ?_⟩
        · simp [hidle]
        · simp [Emission.commands]

theorem meet_passes {depth : Nat} {r : Requirement ν κ}
    (hinert : ∀ n, idle n → g.Inert isolated n) (hr : r.Skips idle)
    (hnodes : ∀ m, r = .node m → m ∈ g.nodes) (hpending : ∀ p ∈ pending, ¬ idle p) :
    Passes idle s (meet (g.require nested isolated root depth pending) n s r).result := by
  cases r with
  | gap => exact .ok (.refl s)
  | command c => exact hr.elim
  | node m => exact require_passes (hinert m hr) hr (hnodes m rfl) hpending

namespace Beside

variable (h : g.Beside g' idle k)
  (hnested : ∀ isolated, ∀ m ∈ g.nodes, Together (CommandList.Like k)
    (nested isolated m).result (nested' isolated m).result)
include h hnested

/-- Requiring a node in both graphs. -/
theorem require {depth depth' : Nat} (hlevel : Level idle k s t) (hn : n ∈ g.nodes)
    (hpending : ∀ p ∈ pending, ¬ idle p) :
    Together (Level idle k) (g.require nested isolated root depth pending s n).result
      (g'.require nested' isolated root depth' pending t n).result := by
  induction depth generalizing depth' pending s t n with
  | zero => exact .cut _
  | succ depth ih =>
      obtain _ | depth' := depth'
      · exact .cut' _
      by_cases hidle : idle n
      · exact hlevel.passes (require_passes (h.inert isolated n hidle) hidle hn hpending)
          (require_passes (h.inert' isolated n hidle) hidle (h.nodes hn) hpending)
      have hpending' : ∀ p ∈ pending ++ [n], ¬ idle p := by
        simpa [or_imp, forall_and] using ⟨hpending, hidle⟩
      rw [RenderGraph.require, RenderGraph.require]
      by_cases hadded : n ∈ s.added
      · rw [if_pos hadded, if_pos ((hlevel.mem_added hidle).2 hadded)]
        exact .ok hlevel
      have hadded' : n ∉ t.added := fun hmem => hadded ((hlevel.mem_added hidle).1 hmem)
      by_cases hwaits : n ∈ pending
      · rw [if_neg hadded, if_neg hadded', if_pos hwaits, if_pos hwaits]
        exact .error _
      rw [if_neg hadded, if_neg hadded', if_neg hwaits, if_neg hwaits, if_pos hn,
        if_pos (h.nodes hn)]
      have hentries : List.Forall₂
          (fun r r' => (∀ m, r = .node m → m ∈ g.nodes) ∧ SimilarNeed idle k r r')
          (g.requirements isolated n) (g'.requirements isolated n) :=
        (List.forall₂_and_left _ _).2 ⟨fun r hr m heq => by
          subst heq
          exact (h.closed isolated).requirements n hn m hr, h.requirements isolated n hn⟩
      refine (Together.foldlM hentries (fun s t r r' hlevel hr => ?_) hlevel).bind
        fun s t hlevel => h.add hnested hlevel hn hidle
      obtain ⟨hnodes, hr⟩ := hr
      cases hr with
      | node m => exact ih hlevel (hnodes m rfl) hpending'
      | command hc => exact .ok (hlevel.emit (.cons hc .nil))
      | skips hr hr' =>
          have hnodes' : ∀ m, r' = .node m → m ∈ g'.nodes := fun m heq =>
            h.nodes' m (heq ▸ hr' : (Requirement.node m).Skips idle)
          exact hlevel.passes (meet_passes (h.inert isolated) hr hnodes hpending')
            (meet_passes (h.inert' isolated) hr' hnodes' hpending')

theorem resolve {depth depth' : Nat} (hlevel : Level idle k s t) (hn : n ∈ g.nodes) :
    Together (Level idle k) (g.resolve nested isolated root depth s n).result
      (g'.resolve nested' isolated root depth' t n).result := by
  induction depth generalizing depth' s t n with
  | zero => exact .cut _
  | succ depth ih =>
      obtain _ | depth' := depth'
      · exact .cut' _
      rw [RenderGraph.resolve, RenderGraph.resolve]
      refine (h.require hnested hlevel hn (by simp)).bind fun s t hlevel => ?_
      by_cases hexpanded : n ∈ s.expanded
      · rw [if_pos hexpanded, if_pos (hlevel.expanded ▸ hexpanded)]
        exact .ok hlevel
      rw [if_neg hexpanded, if_neg (hlevel.expanded ▸ hexpanded), h.children isolated n hn]
      have hsame : List.Forall₂ (fun m m' => m = m' ∧ m ∈ g.nodes) (g.children isolated n)
          (g.children isolated n) :=
        List.forall₂_same.2 fun m hm => ⟨rfl, (h.closed isolated).children n hn m hm⟩
      refine .foldlM hsame (fun s t m m' hlevel hm => ?_) hlevel.expand
      exact hm.1 ▸ ih hlevel hm.2

theorem compileWith (hroot : root ∈ g.nodes) :
    Together (CommandList.Like k) (g.compileWith nested isolated root).result
      (g'.compileWith nested' isolated root).result := by
  have hstart : Level idle k ({} : CompileState ν κ) {} := ⟨rfl, rfl, .nil⟩
  have hreport : Together (fun _ _ => True)
      (Traced.report (.started root isolated) : Compiling ν κ Unit).result
      (Traced.report (.started root isolated) : Compiling ν κ Unit).result := .ok trivial
  rw [RenderGraph.compileWith, RenderGraph.compileWith]
  refine hreport.bind fun _ _ _ => (h.resolve hnested hstart hroot).bind fun s t hlevel => ?_
  exact .ok ⟨rfl, hlevel.commands,
    hlevel.bindings h.inputIndex fun n hn => (h.inert isolated n hn).inputIndex⟩

end Beside

/-- Where neither compile is cut off, both fail alike or both yield lists that are alike. -/
theorem Beside.compileNested (h : g.Beside g' idle k) {nesting nesting' : Nat}
    (hroot : root ∈ g.nodes) :
    Together (CommandList.Like k) (g.compileNested nesting isolated root).result
      (g'.compileNested nesting' isolated root).result := by
  induction nesting generalizing nesting' isolated root with
  | zero => exact .cut _
  | succ nesting ih =>
      obtain _ | nesting' := nesting'
      · exact .cut' _
      exact h.compileWith (fun isolated m hm => ih hm) hroot

end RenderGraph

end SceneGraph
