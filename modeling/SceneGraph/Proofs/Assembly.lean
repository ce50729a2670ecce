import SceneGraph.Proofs.Order

/-!
What a compiled list is made of.

Main statement: a list holds exactly the visited nodes, each of them once and each emission in
its turn (`compile_order`).
-/

namespace SceneGraph

variable {ν κ : Type}

namespace RenderGraph

open Relation Requirement Emission

variable [DecidableEq ν]

/-- The state at the end of a compile. -/
structure Assembled (g : RenderGraph ν κ) (nested : Nested ν κ) (isolated : List ν) (root : ν)
    (s : CompileState ν κ) : Prop where
  mem_added : ∀ n, n ∈ s.added ↔ g.Visited isolated root n
  mem_expanded : ∀ n, n ∈ s.expanded ↔ g.Resolved isolated root n
  nodup : s.added.Nodup
  /-- Nothing is in the list but what its nodes emit. -/
  owners : ∀ e ∈ s.emissions, e.owner ∈ s.added
  settled : ∀ n ∈ s.added, ∃ own, g.Settled isolated nested s n own

variable {g : RenderGraph ν κ} {nested : Nested ν κ} {isolated : List ν} {root n : ν}
  {s : CompileState ν κ}

/-- A search from an empty state ends with an assembled one. -/
theorem Search.assembled (h : g.Search nested isolated [] (.resolve root) {} s) :
    g.Assembled nested isolated root s := by
  have hexpanded : ∀ n, g.Resolved isolated root n → n ∈ s.expanded := by
    intro n hn
    induction hn with
    | root => exact h.achieved.2
    | child _ hm ih =>
        rcases h.children_expanded _ ih with hstart | hchildren
        · simp at hstart
        · exact hchildren _ hm
  have hstanding : g.Standing nested isolated [] s :=
    (h.standing ⟨by simp, by simp, by simp, by simp⟩ (by simp [Task.waiting?])).1
  refine ⟨fun n => ⟨fun hn => ?_, fun hn => ?_⟩, fun n => ⟨fun hn => ?_, hexpanded n⟩,
    h.added_nodup (by simp) (by simp), ?_, hstanding.settled⟩
  · exact (h.leadsTo n hn).resolve_left (by simp)
  · induction hn with
    | resolved hn => exact h.expanded_added (by simp) (hexpanded _ hn)
    | required _ hm ih => exact hstanding.closed _ ih _ hm
  · exact (h.resolves n hn).resolve_left (by simp)
  · simpa using hstanding.owners

theorem compileWith_eq_ok {list : CommandList ν κ} :
    (g.compileWith nested isolated root).result = .ok list ↔
      ∃ s, (g.resolve nested isolated root (g.nodes.length + 1) {} root).result = .ok s ∧
        g.finish root s = list := by
  simp only [compileWith, Traced.result_bind_eq_ok, Traced.result_report, Traced.result_pure,
    Except.ok.injEq, exists_const, true_and]

theorem compile_eq_compileWith (g : RenderGraph ν κ) (root : ν) :
    g.compile root = g.compileWith (g.compileNested (g.nestingBound - 1)) [] root := by
  obtain ⟨nesting, hnesting⟩ : ∃ nesting, g.nestingBound = nesting + 1 :=
    Nat.exists_eq_add_one_of_ne_zero (by simp [nestingBound])
  rw [compile, hnesting, compileNested, Nat.add_sub_cancel]

/-- A compiled list is read off an assembled state. -/
theorem assembled_of_compile {list : CommandList ν κ} (h : (g.compile root).result = .ok list) :
    ∃ s, g.Assembled (g.compileNested (g.nestingBound - 1)) [] root s ∧ g.finish root s = list := by
  rw [compile_eq_compileWith, compileWith_eq_ok] at h
  obtain ⟨s, hs, rfl⟩ := h
  exact ⟨s, (search_of_resolve hs).assembled, rfl⟩

omit [DecidableEq ν] in
theorem mem_bindings {b : InputBinding ν} :
    b ∈ g.bindings s ↔ b.node ∈ s.added ∧ g.inputIndex b.node = some b.index := by
  simp only [bindings, List.mem_filterMap, List.mem_reverse, Option.map_eq_some_iff]
  constructor
  · rintro ⟨n, hn, i, hi, rfl⟩
    exact ⟨hn, hi⟩
  · rintro ⟨hn, hi⟩
    exact ⟨b.node, hn, b.index, hi, rfl⟩

namespace Assembled

variable (h : g.Assembled nested isolated root s)
include h

/-- No node in the list leads back to itself. -/
theorem acyclic (hn : n ∈ s.added) : ¬ TransGen (g.Requires isolated) n n := by
  intro hcycle
  obtain ⟨m, hm, hmn⟩ := TransGen.head'_iff.1 hcycle
  obtain ⟨own, hown⟩ := h.settled n hn
  obtain ⟨before, after, -, -, hdue⟩ := hown.ownInTurn
  exact hdue m (mem_nodes.2 hm) n hmn (.own n own) List.mem_cons_self rfl

/-- What is in the list was emitted by one of its nodes. -/
theorem mem_emissions {e : Emission ν κ} (he : e ∈ s.emissions) :
    (∃ n c, e = .inline n c ∧ n ∈ s.added ∧ .command c ∈ g.requirements isolated n) ∨
      ∃ n own, e = .own n own ∧ n ∈ s.added ∧ g.Contributes nested isolated n own := by
  have howner := h.owners e he
  obtain ⟨own, hown⟩ := h.settled _ howner
  have hmem : e ∈ ofNode e.owner s.emissions := List.mem_filter.2 ⟨he, by simp⟩
  rw [hown.trace, List.mem_append, mem_inlined, List.mem_singleton] at hmem
  rcases hmem with ⟨c, hc, heq⟩ | heq
  · exact .inl ⟨_, c, heq, howner, hc⟩
  · exact .inr ⟨_, own, heq, howner, hown.contributes⟩

theorem bindings_nodup : ((g.bindings s).map InputBinding.node).Nodup := by
  rw [bindings, List.map_filterMap]
  refine List.Nodup.filterMap ?_ (List.nodup_reverse.2 h.nodup)
  intro n n' m hm hm'
  simp only [Option.map_map, Option.mem_def, Option.map_eq_some_iff] at hm hm'
  obtain ⟨i, -, rfl⟩ := hm
  obtain ⟨i', -, heq⟩ := hm'
  exact heq.symm

end Assembled

omit [DecidableEq ν] in
/-- Input nodes are recorded in the order in which they were added. -/
theorem bindings_sublist (g : RenderGraph ν κ) (s : CompileState ν κ) :
    ((g.bindings s).map InputBinding.node).Sublist s.added.reverse := by
  rw [bindings]
  generalize s.added.reverse = ns
  induction ns with
  | nil => simp
  | cons n ns ih =>
      cases hn : g.inputIndex n with
      | none => simpa [hn] using ih.cons n
      | some i => simpa [hn] using ih.cons_cons n

/-- A compiled list holds exactly the visited nodes, the resolved ones with their children.
Each node contributes its own commands once, in one block, and each of its inline commands
once; each of these comes in its turn, after all that the requirements before it lead to.
Nothing else is in the list, and exactly the nodes with an input index are bound to it. -/
theorem compile_order (g : RenderGraph ν κ) (root : ν) {list : CommandList ν κ}
    (hlist : (g.compile root).result = .ok list) :
    ∃ s, g.Assembled (g.compileNested (g.nestingBound - 1)) [] root s ∧
      list.root = root ∧
      list.commands = s.emissions.flatMap Emission.commands ∧
      (list.inputs.map InputBinding.node).Nodup ∧
      (list.inputs.map InputBinding.node).Sublist s.added.reverse ∧
      ∀ b, b ∈ list.inputs ↔ b.node ∈ s.added ∧ g.inputIndex b.node = some b.index := by
  obtain ⟨s, hassembled, rfl⟩ := assembled_of_compile hlist
  exact ⟨s, hassembled, rfl, rfl, hassembled.bindings_nodup, bindings_sublist g s,
    fun _ => mem_bindings⟩

/-- Node 4 requires 2 and 3, which share 1, and has the child 5 twice, which requires 4. -/
def diamond : RenderGraph Nat Nat where
  nodes := [1, 2, 3, 4, 5]
  requirements _ n :=
    match n with
    | 2 | 3 => [.node 1]
    | 4 => [.node 2, .gap, .command 23, .node 3]
    | 5 => [.node 4]
    | _ => []
  contributions _ n := [.command n, .command (10 * n)]
  children _ n := if n = 4 then [5, 5] else if n = 5 then [4] else []
  inputIndex n := if n = 1 then some 7 else none
  embed _ := 0

theorem compile_order_diamond :
    (diamond.compile 4).result =
        .ok ⟨4, [1, 10, 2, 20, 23, 3, 30, 4, 40, 5, 50], [⟨1, 7⟩]⟩ ∧
      ∃ s, diamond.Assembled (diamond.compileNested (diamond.nestingBound - 1)) [] 4 s ∧
        [1, 10, 2, 20, 23, 3, 30, 4, 40, 5, 50] = s.emissions.flatMap Emission.commands := by
  have hlist : (diamond.compile 4).result =
      .ok ⟨4, [1, 10, 2, 20, 23, 3, 30, 4, 40, 5, 50], [⟨1, 7⟩]⟩ := by rfl
  obtain ⟨s, hassembled, -, hcommands, -⟩ := compile_order diamond 4 hlist
  exact ⟨hlist, s, hassembled, hcommands⟩

end RenderGraph

end SceneGraph
