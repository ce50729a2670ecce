import SceneGraph.Proofs.Seclusion

/-!
Compiles come to an end by themselves.

The recursions of a compile are cut off at depths that only the recursion itself needs.  Here the
depths are made free: any that exceed the measure of a recursion lead to the same result.
Waiting nodes are pairwise different, and so are nodes whose children are in hand; the lists that
are being made within each other belong to pairwise different nodes with a list of their own.
Main statement: every compile of a scene ends with a list or with a cycle, wherever its
recursions would be cut off (`Session.compile_terminates`).
-/

namespace SceneGraph

namespace Traced

variable {ε φ α β : Type}

/-- What follows a computation matters only for what the computation can yield. -/
theorem bind_congr_of_ok {x : Traced ε φ α} {f f' : α → Traced ε φ β}
    (h : ∀ a, x.result = .ok a → f a = f' a) : x >>= f = x >>= f' := by
  cases hx : x.result with
  | error e => simp [bind, hx]
  | ok a => simp [bind, hx, h a hx]

/-- Two loops that do the same in all states that they can get into. -/
theorem foldlM_congr_of_invariant {f f' : β → α → Traced ε φ β} (inv : β → Prop)
    (hf : ∀ b a, inv b → f b a = f' b a) {l : List α}
    (hinv : ∀ b a b', inv b → (f b a).result = .ok b' → inv b') {b : β} (hb : inv b) :
    l.foldlM f b = l.foldlM f' b := by
  induction l generalizing b with
  | nil => rfl
  | cons a l ih =>
      rw [List.foldlM_cons, List.foldlM_cons, ← hf b a hb]
      exact bind_congr_of_ok fun b' hb' => ih (hinv b a b' hb hb')

end Traced

namespace RenderGraph

variable {ν κ : Type} {g : RenderGraph ν κ} {nested nested' : Nested ν κ}
  {isolated pending : List ν} {root n : ν} {s : CompileState ν κ}

/-- A state of a compile in which so many nodes at least have their children in hand. -/
structure Expands (g : RenderGraph ν κ) (least : Nat) (s : CompileState ν κ) : Prop where
  nodup : s.expanded.Nodup
  added : s.expanded ⊆ s.added
  nodes : s.added ⊆ g.nodes
  least : least ≤ s.expanded.length

namespace Expands

variable {least : Nat} {task : Task ν κ} {t : CompileState ν κ}

theorem start : g.Expands 0 {} :=
  ⟨List.nodup_nil, List.nil_subset _, List.nil_subset _, Nat.zero_le _⟩

theorem length_le (hs : g.Expands least s) : least ≤ g.nodes.length :=
  hs.least.trans (hs.nodup.length_le_of_subset (List.Subset.trans hs.added hs.nodes))

theorem search (hs : g.Expands least s) (h : g.Search nested isolated pending task s t) :
    g.Expands least t where
  nodup := h.expanded_nodup hs.nodup
  added := h.expanded_added hs.added
  nodes := h.added_nodes hs.nodes
  least := hs.least.trans (hs.nodup.length_le_of_subset h.expanded_subset)

theorem expand (hs : g.Expands least s) (hadded : n ∈ s.added) (hexpanded : n ∉ s.expanded) :
    g.Expands (least + 1) (s.expand n) where
  nodup := List.nodup_cons.2 ⟨hexpanded, hs.nodup⟩
  added := List.cons_subset.2 ⟨hadded, hs.added⟩
  nodes := hs.nodes
  least := Nat.succ_le_succ hs.least

end Expands

/-- One more element of a list that has no element twice. -/
theorem nodup_concat {l l' : List ν} (hnodup : l.Nodup) (hl : l ⊆ l') (hnew : n ∉ l)
    (hn : n ∈ l') : (l ++ [n]).Nodup ∧ l ++ [n] ⊆ l' := by
  exact ⟨List.concat_eq_append ▸ hnodup.concat hnew,
    List.append_subset.2 ⟨hl, List.cons_subset.2 ⟨hn, List.nil_subset _⟩⟩⟩

/-- Two ways of making the lists that nodes embed while some nodes are isolated. -/
def SameLists (g : RenderGraph ν κ) (isolated : List ν) (nested nested' : Nested ν κ) : Prop :=
  ∀ n ∈ g.nodes, ∀ m, .embed m ∈ g.contributions isolated n →
    nested (isolated ++ [m]) m = nested' (isolated ++ [m]) m

theorem contribute_all_congr {cs : List (Contribution ν κ)}
    (h : ∀ m, .embed m ∈ cs → nested (isolated ++ [m]) m = nested' (isolated ++ [m]) m) :
    cs.mapM (g.contribute nested isolated) = cs.mapM (g.contribute nested' isolated) := by
  induction cs with
  | nil => rfl
  | cons c cs ih =>
      have hfirst : g.contribute nested isolated c = g.contribute nested' isolated c := by
        cases c with
        | command c => rfl
        | embed m => rw [contribute, contribute, h m List.mem_cons_self]
      rw [List.mapM_cons, List.mapM_cons, hfirst, ih fun m hm => h m (List.mem_cons_of_mem _ hm)]

theorem add_congr (h : g.SameLists isolated nested nested') (hn : n ∈ g.nodes) :
    g.add nested isolated s n = g.add nested' isolated s n := by
  rw [add, add, contribute_all_congr (h n hn)]

variable [DecidableEq ν]

/-- Resolving, with a bound on chains of waiting nodes as well. -/
def resolveWithin (g : RenderGraph ν κ) (nested : Nested ν κ) (isolated : List ν) (root : ν)
    (waiting : Nat) : (depth : Nat) → CompileState ν κ → ν → Compiling ν κ (CompileState ν κ)
  | 0, _, _ => Traced.fail .tooDeep
  | depth + 1, s, n => do
    let s ← g.require nested isolated root waiting [] s n
    if n ∈ s.expanded then
      pure s
    else
      (g.children isolated n).foldlM (resolveWithin g nested isolated root waiting depth)
        { s with expanded := n :: s.expanded }

/-- A compile whose recursions are cut off at any depths: chains of waiting nodes, chains of
children, and lists within lists. -/
def compileWithin (g : RenderGraph ν κ) (waiting depth : Nat) : (nesting : Nat) → Nested ν κ
  | 0 => fun _ _ => Traced.fail .tooDeep
  | nesting + 1 => fun isolated root => do
    Traced.report (.started root isolated)
    let s ← g.resolveWithin (compileWithin g waiting depth nesting) isolated root waiting depth {}
      root
    let list := g.finish root s
    Traced.report (.finished list)
    pure list

/-- The measure of requiring is how many nodes do not wait yet. -/
theorem require_congr (h : g.SameLists isolated nested nested') {depth depth' : Nat}
    (hnodup : pending.Nodup) (hpending : pending ⊆ g.nodes)
    (hdepth : g.nodes.length < depth + pending.length)
    (hdepth' : g.nodes.length < depth' + pending.length) :
    g.require nested isolated root depth pending s n =
      g.require nested' isolated root depth' pending s n := by
  have hlength := hnodup.length_le_of_subset hpending
  induction depth generalizing depth' pending s n with
  | zero => omega
  | succ depth ih =>
      obtain _ | depth' := depth'
      · omega
      rw [require, require]
      by_cases hadded : n ∈ s.added
      · rw [if_pos hadded, if_pos hadded]
      by_cases hwaits : n ∈ pending
      · rw [if_neg hadded, if_neg hadded, if_pos hwaits, if_pos hwaits]
      by_cases hnode : n ∈ g.nodes
      · obtain ⟨hnodup', hpending'⟩ := nodup_concat hnodup hpending hwaits hnode
        have hgrown : (pending ++ [n]).length = pending.length + 1 := List.length_append
        have hmeet : meet (g.require nested isolated root depth (pending ++ [n])) n =
            meet (g.require nested' isolated root depth' (pending ++ [n])) n := by
          funext s r
          cases r with
          | gap | command c => rfl
          | node m =>
              exact ih hnodup' hpending' (by omega) (by omega)
                (hnodup'.length_le_of_subset hpending')
        rw [if_neg hadded, if_neg hadded, if_neg hwaits, if_neg hwaits, if_pos hnode,
          if_pos hnode, hmeet]
        exact Traced.bind_congr_of_ok fun t _ => add_congr h hnode
      · rw [if_neg hadded, if_neg hadded, if_neg hwaits, if_neg hwaits, if_neg hnode,
          if_neg hnode]

/-- The measure of resolving is how many nodes do not have their children in hand. -/
theorem resolve_congr (h : g.SameLists isolated nested nested') {depth depth' least : Nat}
    (hs : g.Expands least s) (hdepth : g.nodes.length < depth + least)
    (hdepth' : g.nodes.length < depth' + least) :
    g.resolve nested isolated root depth s n = g.resolve nested' isolated root depth' s n := by
  have hlength := hs.length_le
  induction depth generalizing depth' least s n with
  | zero => omega
  | succ depth ih =>
      obtain _ | depth' := depth'
      · omega
      rw [resolve, resolve, ← require_congr h List.nodup_nil (List.nil_subset _)
        (Nat.lt_succ_self _) (Nat.lt_succ_self _)]
      refine Traced.bind_congr_of_ok fun t ht => ?_
      by_cases hexpanded : n ∈ t.expanded
      · rw [if_pos hexpanded, if_pos hexpanded]
      have hsearch := search_of_require ht
      have ht : g.Expands (least + 1) (t.expand n) :=
        (hs.search hsearch).expand hsearch.achieved hexpanded
      rw [if_neg hexpanded, if_neg hexpanded]
      exact Traced.foldlM_congr_of_invariant (g.Expands (least + 1))
        (fun u m hu => ih hu (by omega) (by omega) hu.length_le)
        (fun u m u' hu hm => hu.search (search_of_resolve hm)) ht

/-- A bound on chains of waiting nodes has no effect if it exceeds the number of nodes. -/
theorem resolveWithin_eq_resolve {waiting depth : Nat} (hwaiting : g.nodes.length < waiting) :
    g.resolveWithin nested isolated root waiting depth s n =
      g.resolve nested isolated root depth s n := by
  induction depth generalizing s n with
  | zero => rfl
  | succ depth ih =>
      have hsame : g.SameLists isolated nested nested := fun _ _ _ _ => rfl
      have hresolve : g.resolveWithin nested isolated root waiting depth =
          g.resolve nested isolated root depth := by
        funext s n
        exact ih
      rw [resolveWithin, resolve, hresolve,
        require_congr hsame List.nodup_nil (List.nil_subset _) hwaiting (Nat.lt_succ_self _)]

/-- The measure of nesting is how many of the nodes with a list of their own are not isolated. -/
theorem compileWithin_congr {waiting depth nesting nesting' : Nat} (hnests : g.Nests)
    {owners : List ν} (howners : ∀ n ∈ g.nodes, g.OwnsList n → n ∈ owners)
    (hwaiting : g.nodes.length < waiting) (hdepth : g.nodes.length < depth)
    (hnodup : isolated.Nodup) (hisolated : isolated ⊆ owners)
    (hnesting : owners.length < nesting + isolated.length)
    (hnesting' : owners.length < nesting' + isolated.length) :
    g.compileWithin waiting depth nesting isolated root =
      g.compileNested nesting' isolated root := by
  have hlength := hnodup.length_le_of_subset hisolated
  induction nesting generalizing nesting' isolated root with
  | zero => omega
  | succ nesting ih =>
      obtain _ | nesting' := nesting'
      · omega
      have hsame : g.SameLists isolated (g.compileWithin waiting depth nesting)
          (g.compileNested nesting') := by
        intro n hn m hm
        obtain ⟨rfl, howns, hnew⟩ := (hnests.embeds isolated n m).1 hm
        obtain ⟨hnodup', hisolated'⟩ :=
          nodup_concat hnodup hisolated hnew (howners m hn howns)
        have hgrown : (isolated ++ [m]).length = isolated.length + 1 := List.length_append
        exact ih hnodup' hisolated' (by omega) (by omega)
          (hnodup'.length_le_of_subset hisolated')
      have hresolve :
          g.resolve (g.compileWithin waiting depth nesting) isolated root depth {} root =
            g.resolve (g.compileNested nesting') isolated root (g.nodes.length + 1) {} root :=
        resolve_congr hsame Expands.start hdepth (Nat.lt_succ_self _)
      simp only [compileWithin, compileNested, compileWith, resolveWithin_eq_resolve hwaiting,
        hresolve]

end RenderGraph

namespace Session

open Scene

variable {σ : Session} {root : NodeId}

/-- Every compile of a scene ends, with a list or with a cycle, whatever the scene is like.  Its
recursions end by themselves: it makes no difference where they would be cut off, as long as
chains within a list may be longer than there are nodes, and lists nested deeper than there are
models. -/
theorem compile_terminates (hσ : Reachable σ) (hroot : root < σ.scene.count) :
    ((∃ list, (σ.scene.compile root).result = .ok list) ∨
      ∃ c, (σ.scene.compile root).result = .error (.cycle c)) ∧
    ∀ waiting depth nesting, σ.scene.count < waiting → σ.scene.count < depth →
      σ.scene.models.length < nesting →
      (σ.scene.graph.compileWithin waiting depth nesting [] root).rename .compile σ.scene.failure =
        σ.scene.compile root := by
  refine ⟨outcome_of_compile hσ.sound.wellFormed hroot,
    fun waiting depth nesting hwaiting hdepth hnesting => ?_⟩
  have hnodes : σ.scene.graph.nodes.length = σ.scene.count := List.length_range
  have howners : ∀ n ∈ σ.scene.graph.nodes, σ.scene.graph.OwnsList n → n ∈ σ.scene.models :=
    fun n hn howns => List.mem_filter.mpr
      ⟨hn, decide_eq_true (congrArg Except.toOption (ownsList_iff.mp howns))⟩
  have hmodels : σ.scene.models.length ≤ σ.scene.count :=
    (List.length_filter_le _ _).trans (Nat.le_of_eq List.length_range)
  have hbound : σ.scene.models.length < σ.scene.graph.nestingBound := by
    rw [RenderGraph.nestingBound, Nat.succ_mul, hnodes]
    omega
  have hsame : σ.scene.graph.compileWithin waiting depth nesting [] root =
      σ.scene.graph.compileNested σ.scene.graph.nestingBound [] root :=
    RenderGraph.compileWithin_congr σ.scene.nests howners (hnodes ▸ hwaiting) (hnodes ▸ hdepth)
      List.nodup_nil (List.nil_subset _) hnesting hbound
  rw [Scene.compile, RenderGraph.compile, hsame]

/-- Two models, each the parent of the other. -/
def mutualParents : List Operation :=
  [.model, .model, .addChild 3 4, .addChild 4 3]

/-- Recursions that are cut off as early as can be. -/
theorem compile_terminates_mutualParents : ∃ σ c, Reachable σ ∧
    (start 100.0).runAll mutualParents = some σ ∧
    (σ.scene.compile 3).result = .error (.cycle c) ∧
    (σ.scene.graph.compileWithin 6 6 3 [] 3).rename .compile σ.scene.failure =
      σ.scene.compile 3 := by
  have hrun : ∃ σ ∈ (start 100.0).runAll mutualParents,
      σ.scene.count = 5 ∧ σ.scene.models.length = 2 ∧
      (σ.scene.compile 3).result.toOption.isNone := by
    decide +kernel
  obtain ⟨σ, hσ, hcount, hmodels, hfails⟩ := hrun
  have hreach : Reachable σ := ⟨100.0, runs_of_runAll hσ⟩
  obtain ⟨hends, hwithin⟩ := compile_terminates hreach (hcount ▸ (by decide : 3 < 5))
  rcases hends with ⟨list, hlist⟩ | ⟨c, hc⟩
  · rw [hlist] at hfails
    cases hfails
  · exact ⟨σ, c, hreach, hσ, hc, hwithin 6 6 3 (by omega) (by omega) (by omega)⟩

end Session

end SceneGraph
