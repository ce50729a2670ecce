import SceneGraph.Proofs.Cycles

/-!
Lists within lists.

A node that has a list of its own is compiled afresh, isolated, wherever it is added, and with
it the stack of isolated nodes grows.  Isolated nodes require nothing, so a cycle through one
of them cannot be seen from within; but the node was in the list around it before its own list
was begun, with all that it requires, so such a cycle was met there.
-/

namespace SceneGraph

open Relation

/-- A path avoids some nodes up to its end, or one of them leads there. -/
theorem transGen_avoids {α : Type} {r : α → α → Prop} (avoided : List α) {a b : α}
    (h : TransGen r a b) :
    TransGen (fun x y => x ∉ avoided ∧ r x y) a b ∨ ∃ i ∈ avoided, ReflTransGen r i b := by
  induction h with
  | @single b hab =>
      by_cases ha : a ∈ avoided
      · exact .inr ⟨a, ha, .single hab⟩
      · exact .inl (.single ⟨ha, hab⟩)
  | @tail b c _ hbc ih =>
      by_cases hb : b ∈ avoided
      · exact .inr ⟨b, hb, .single hbc⟩
      · rcases ih with hab | ⟨i, hi, hib⟩
        · exact .inl (hab.tail ⟨hb, hbc⟩)
        · exact .inr ⟨i, hi, hib.tail hbc⟩

namespace RenderGraph

variable {ν κ : Type} {g : RenderGraph ν κ} {nested : Nested ν κ} {isolated : List ν}
  {root r n m : ν}

/-- A node contributes its own list. -/
def OwnsList (g : RenderGraph ν κ) (n : ν) : Prop :=
  .embed n ∈ g.contributions [] n

/-- How a graph answers for isolated nodes.  Only nodes with a list of their own answer
differently while they are isolated: then they require nothing and leave out the list. -/
structure Nests (g : RenderGraph ν κ) : Prop where
  embeds : ∀ isolated n m, .embed m ∈ g.contributions isolated n ↔
    m = n ∧ g.OwnsList n ∧ n ∉ isolated
  isolated : ∀ isolated n, g.OwnsList n → n ∈ isolated → g.requirements isolated n = []
  ordinary : ∀ isolated n, ¬ (g.OwnsList n ∧ n ∈ isolated) →
    g.requirements isolated n = g.requirements [] n

/-- The lists that compiling a root takes: its own, and one for every node with a list of its
own that is visited and is not isolated yet. -/
inductive Includes (g : RenderGraph ν κ) (root : ν) : List ν → ν → Prop
  | outermost : Includes g root [] root
  | nested {isolated : List ν} {r n : ν} (h : Includes g root isolated r)
      (hn : g.Visited isolated r n) (howns : g.OwnsList n) (hnew : n ∉ isolated) :
      Includes g root (isolated ++ [n]) n

/-- The nodes that a list visits, or a list within it. -/
inductive Within (g : RenderGraph ν κ) : List ν → ν → ν → Prop
  | visited {isolated : List ν} {r n : ν} (hn : g.Visited isolated r n) : Within g isolated r n
  | nested {isolated : List ν} {r m n : ν} (hm : g.Visited isolated r m) (howns : g.OwnsList m)
      (hnew : m ∉ isolated) (hn : Within g (isolated ++ [m]) m n) : Within g isolated r n

/-- No cycle can be reached from a node. -/
def Grounded (g : RenderGraph ν κ) (n : ν) : Prop :=
  ∀ m, ReflTransGen (g.Requires []) n m → ¬ TransGen (g.Requires []) m m

theorem Grounded.of_requires (h : g.Grounded n) (hm : ReflTransGen (g.Requires []) n m) :
    g.Grounded m :=
  fun k hk => h k (hm.trans hk)

/-- What a node requires does not lead back to the node. -/
theorem Grounded.not_leads (h : g.Grounded n) (hm : g.Requires [] n m) :
    ¬ ReflTransGen (g.Requires []) m n :=
  fun hback => h n .refl (.head' hm hback)

namespace Includes

theorem owns (h : g.Includes root isolated r) : ∀ i ∈ isolated, g.OwnsList i := by
  induction h with
  | outermost => simp
  | nested _ _ howns _ ih =>
      intro i hi
      rcases List.mem_append.1 hi with hi | hi
      · exact ih i hi
      · obtain rfl := List.mem_singleton.1 hi
        exact howns

theorem nodup (h : g.Includes root isolated r) : isolated.Nodup := by
  induction h with
  | outermost => exact List.nodup_nil
  | nested _ _ _ hnew ih =>
      refine List.nodup_append.2 ⟨ih, List.nodup_singleton _, fun i hi k hk heq => hnew ?_⟩
      rwa [← List.mem_singleton.1 hk, ← heq]

/-- An isolated node was visited by a list around, in which it was not isolated yet. -/
theorem around (h : g.Includes root isolated r) {i : ν} (hi : i ∈ isolated) :
    ∃ isolated' r', g.Includes root isolated' r' ∧ g.Visited isolated' r' i ∧ i ∉ isolated' := by
  induction h with
  | outermost => simp at hi
  | nested h hn _ hnew ih =>
      rcases List.mem_append.1 hi with hi | hi
      · exact ih hi
      · obtain rfl := List.mem_singleton.1 hi
        exact ⟨_, _, h, hn, hnew⟩

/-- A node with a list of its own has it compiled wherever it is visited, unless it is
isolated there; and then it was compiled around. -/
theorem own (h : g.Includes root isolated r) (hn : g.Visited isolated r n)
    (howns : g.OwnsList n) : ∃ isolated', g.Includes root (isolated' ++ [n]) n := by
  by_cases hmem : n ∈ isolated
  · obtain ⟨isolated', r', h', hn', hnew⟩ := h.around hmem
    exact ⟨isolated', h'.nested hn' howns hnew⟩
  · exact ⟨isolated, h.nested hn howns hmem⟩

/-- A list that a root takes is within the list of the root. -/
theorem within (h : g.Includes root isolated r) (hn : g.Within isolated r n) :
    g.Within [] root n := by
  induction h with
  | outermost => exact hn
  | nested _ hm howns hnew ih => exact ih (.nested hm howns hnew hn)

theorem nodes (h : g.Includes root isolated r) (hclosed : ∀ isolated, g.Closed isolated)
    (hroot : root ∈ g.nodes) : r ∈ g.nodes ∧ isolated ⊆ g.nodes := by
  induction h with
  | outermost => exact ⟨hroot, by simp⟩
  | @nested isolated r n _ hn _ _ ih =>
      have hn := hn.mem_nodes (hclosed isolated) ih.1
      exact ⟨hn, by simpa using ⟨ih.2, hn⟩⟩

end Includes

@[simp] theorem contribute_command_eq_ok {c k : κ} :
    (g.contribute nested isolated (.command c)).result = .ok k ↔ c = k := by
  simp [contribute]

@[simp] theorem contribute_embed_eq_ok {k : κ} :
    (g.contribute nested isolated (.embed n)).result = .ok k ↔
      ∃ list, (nested (isolated ++ [n]) n).result = .ok list ∧ g.embed list = k := by
  rw [contribute, Traced.result_bind_eq_ok]
  simp

section

variable (hnests : g.Nests)
include hnests

/-- Isolation takes away what isolated nodes require and nothing else. -/
theorem Nests.requires_iff (howns : ∀ i ∈ isolated, g.OwnsList i) :
    g.Requires isolated n m ↔ n ∉ isolated ∧ g.Requires [] n m := by
  unfold Requires
  by_cases hn : n ∈ isolated
  · simp [hnests.isolated isolated n (howns n hn) hn, hn]
  · rw [hnests.ordinary isolated n fun h => hn h.2]
    simp [hn]

theorem Nests.requires_mono (howns : ∀ i ∈ isolated, g.OwnsList i)
    (h : g.Requires isolated n m) : g.Requires [] n m :=
  ((hnests.requires_iff howns).1 h).2

/-- What is visited by a list is visited with all that it requires, by this list or by one
around. -/
theorem Includes.required (h : g.Includes root isolated r) (hn : g.Visited isolated r n)
    (hm : g.Requires [] n m) :
    ∃ isolated' r', g.Includes root isolated' r' ∧ g.Visited isolated' r' m := by
  by_cases hmem : n ∈ isolated
  · obtain ⟨isolated', r', h', hn', hnew⟩ := h.around hmem
    exact ⟨isolated', r', h', hn'.required ((hnests.requires_iff h'.owns).2 ⟨hnew, hm⟩)⟩
  · exact ⟨isolated, r, h, hn.required ((hnests.requires_iff h.owns).2 ⟨hmem, hm⟩)⟩

variable [DecidableEq ν]

/-- If no cycle can be reached from the isolated nodes, none can be reached from the nodes of
the list. -/
theorem Assembled.grounded {s : CompileState ν κ} (hs : g.Assembled nested isolated r s)
    (howns : ∀ i ∈ isolated, g.OwnsList i) (hgrounded : ∀ i ∈ isolated, g.Grounded i)
    (hn : g.Visited isolated r n) : g.Grounded n := by
  have hrequires : (fun x y => x ∉ isolated ∧ g.Requires [] x y) = g.Requires isolated := by
    funext x y
    exact propext (hnests.requires_iff howns).symm
  intro m hm hcycle
  -- Neither the way to the cycle nor the cycle itself meets an isolated node.
  have hm' : g.Visited isolated r m := by
    rcases reflTransGen_iff_eq_or_transGen.1 hm with rfl | hpath
    · exact hn
    · rcases transGen_avoids isolated hpath with hpath | ⟨i, hi, him⟩
      · exact hn.of_requires (hrequires ▸ hpath).to_reflTransGen
      · exact (hgrounded i hi m him hcycle).elim
  rcases transGen_avoids isolated hcycle with hcycle' | ⟨i, hi, him⟩
  · exact hs.acyclic ((hs.mem_added m).2 hm') (hrequires ▸ hcycle')
  · exact hgrounded i hi m him hcycle

end

section

variable [DecidableEq ν]

/-- A list that a compile makes for a root while some nodes are isolated. -/
def Makes (g : RenderGraph ν κ) (isolated : List ν) (root : ν) (list : CommandList ν κ) : Prop :=
  ∃ nesting, (g.compileNested nesting isolated root).result = .ok list

/-- A list that is made is read off an assembled state, and the lists in it were made too. -/
theorem Makes.assembled {list : CommandList ν κ} (h : g.Makes isolated r list) :
    ∃ nested s, g.Assembled nested isolated r s ∧ g.finish r s = list ∧
      ∀ isolated' r' inner, (nested isolated' r').result = .ok inner →
        g.Makes isolated' r' inner := by
  obtain ⟨nesting, h⟩ := h
  cases nesting with
  | zero => simp [compileNested] at h
  | succ nesting =>
      rw [compileNested, compileWith_eq_ok] at h
      obtain ⟨s, hs, hlist⟩ := h
      exact ⟨_, s, (search_of_resolve hs).assembled, hlist, fun _ _ _ hinner => ⟨nesting, hinner⟩⟩

namespace Makes

variable {list : CommandList ν κ} (h : g.Makes isolated r list)
include h

theorem root_eq : list.root = r := by
  obtain ⟨_, s, -, rfl, -⟩ := h.assembled
  rfl

/-- A command of a list comes from one of the nodes that the list visits. -/
theorem mem_commands {c : κ} (hc : c ∈ list.commands) : ∃ n, g.Visited isolated r n ∧
    (.command c ∈ g.requirements isolated n ∨ .command c ∈ g.contributions isolated n ∨
      ∃ m inner, .embed m ∈ g.contributions isolated n ∧
        g.Makes (isolated ++ [m]) m inner ∧ g.embed inner = c) := by
  obtain ⟨nested, s, hs, rfl, hmade⟩ := h.assembled
  obtain ⟨e, he, hc⟩ := List.mem_flatMap.1 hc
  rcases hs.mem_emissions he with ⟨n, c', rfl, hn, hc'⟩ | ⟨n, own, rfl, hn, hown⟩
  · obtain rfl : c = c' := by simpa [Emission.commands] using hc
    exact ⟨n, (hs.mem_added n).1 hn, .inl hc'⟩
  · obtain ⟨k, hk, hresult⟩ := Traced.exists_of_mem_mapM hown hc
    refine ⟨n, (hs.mem_added n).1 hn, .inr ?_⟩
    cases k with
    | command c' =>
        obtain rfl := contribute_command_eq_ok.1 hresult
        exact .inl hk
    | embed m =>
        obtain ⟨inner, hinner, heq⟩ := contribute_embed_eq_ok.1 hresult
        exact .inr ⟨m, inner, hk, hmade _ _ _ hinner, heq⟩

/-- A command among the requirements of a visited node is in the list. -/
theorem mem_of_required {c : κ} (hn : g.Visited isolated r n)
    (hc : .command c ∈ g.requirements isolated n) : c ∈ list.commands := by
  obtain ⟨nested, s, hs, rfl, -⟩ := h.assembled
  obtain ⟨own, hown⟩ := hs.settled n ((hs.mem_added n).2 hn)
  have hmem : .inline n c ∈ Emission.ofNode n s.emissions := by
    rw [hown.trace]
    exact List.mem_append_left _ (Requirement.mem_inlined.2 ⟨c, hc, rfl⟩)
  exact List.mem_flatMap.2 ⟨_, List.mem_of_mem_filter hmem, List.mem_singleton_self c⟩

/-- Exactly the visited nodes with an input index are bound to it. -/
theorem mem_inputs {b : InputBinding ν} :
    b ∈ list.inputs ↔ g.Visited isolated r b.node ∧ g.inputIndex b.node = some b.index := by
  obtain ⟨_, s, hs, rfl, -⟩ := h.assembled
  rw [← hs.mem_added]
  exact mem_bindings

theorem inputs_nodup : (list.inputs.map InputBinding.node).Nodup := by
  obtain ⟨_, s, hs, rfl, -⟩ := h.assembled
  exact hs.bindings_nodup

end Makes

theorem makes_of_compile {list : CommandList ν κ} (h : (g.compile root).result = .ok list) :
    g.Makes [] root list :=
  ⟨_, h⟩

variable (hnests : g.Nests)
include hnests

/-- If the list of a root is made, so is every list that it takes. -/
theorem Includes.made (h : g.Includes root isolated r) {list : CommandList ν κ}
    (hlist : (g.compile root).result = .ok list) : ∃ list', g.Makes isolated r list' := by
  induction h with
  | outermost => exact ⟨list, makes_of_compile hlist⟩
  | @nested isolated r n _ hn howns hnew ih =>
      obtain ⟨list', hlist'⟩ := ih
      obtain ⟨nested, s, hs, -, hmade⟩ := hlist'.assembled
      obtain ⟨own, hown⟩ := hs.settled n ((hs.mem_added n).2 hn)
      obtain ⟨k, -, hk⟩ := Traced.exists_mem_of_mapM hown.contributes
        ((hnests.embeds isolated n n).2 ⟨rfl, howns, hnew⟩)
      obtain ⟨inner, hinner, -⟩ := contribute_embed_eq_ok.1 hk
      exact ⟨inner, hmade _ _ _ hinner⟩

/-- If the list of a root is made, no list that it takes has a node that leads to a cycle. -/
theorem Includes.grounded (h : g.Includes root isolated r) {list : CommandList ν κ}
    (hlist : (g.compile root).result = .ok list) (hn : g.Visited isolated r n) :
    g.Grounded n := by
  have hstep : ∀ {isolated r n}, g.Includes root isolated r →
      (∀ i ∈ isolated, g.Grounded i) → g.Visited isolated r n → g.Grounded n := by
    intro isolated r n h hisolated hn
    obtain ⟨list', hlist'⟩ := h.made hnests hlist
    obtain ⟨_, s, hs, -⟩ := hlist'.assembled
    exact hs.grounded hnests h.owns hisolated hn
  refine hstep h ?_ hn
  clear hn
  induction h with
  | outermost => simp
  | nested h hn _ _ ih => simpa [or_imp, forall_and] using ⟨ih, hstep h ih hn⟩

variable (hclosed : ∀ isolated, g.Closed isolated) (hroot : root ∈ g.nodes)
include hclosed hroot

/-- Making a list that a root takes fails with a cycle only, one that some such list visits. -/
theorem Includes.eq_cycle {nesting : Nat} {e : CompileFailure ν}
    (h : g.Includes root isolated r) (hnesting : g.nodes.length < nesting + isolated.length)
    (he : (g.compileNested nesting isolated r).result = .error e) :
    ∃ c, e = .cycle c ∧ c.ClosedBy (g.Requires []) ∧
      ∃ isolated' r', g.Includes root isolated' r' ∧ g.Visited isolated' r' c.node := by
  obtain ⟨hr, hisolated⟩ := h.nodes hclosed hroot
  induction nesting generalizing isolated r with
  | zero =>
      -- Isolated nodes are pairwise distinct, so there are no more of them than nodes.
      have hlength := h.nodup.length_le_of_subset hisolated
      omega
  | succ nesting ih =>
      rw [compileNested] at he
      cases failing_of_compileWith (hclosed isolated) hr he with
      | cycle hc hn =>
          exact ⟨_, rfl, hc.mono fun _ _ => hnests.requires_mono h.owns, isolated, r, h, hn⟩
      | embed hn hm he =>
          obtain ⟨rfl, howns, hnew⟩ := (hnests.embeds _ _ _).1 hm
          have h' := h.nested hn howns hnew
          obtain ⟨hr', hisolated'⟩ := h'.nodes hclosed hroot
          refine ih h' ?_ he hr' hisolated'
          simp only [List.length_append, List.length_singleton]
          omega

/-- A graph whose isolated nodes require nothing fails to compile exactly if the requirements
of all its nodes, isolated or not, form a cycle among the nodes that some list visits. -/
theorem compile_fails_iff_includes_cycle :
    ((∃ e, (g.compile root).result = .error e) ↔ ∃ isolated r n, g.Includes root isolated r ∧
        g.Visited isolated r n ∧ TransGen (g.Requires []) n n) ∧
      ∀ e, (g.compile root).result = .error e → ∃ c, e = .cycle c ∧ c.ClosedBy (g.Requires []) ∧
        ∃ isolated r, g.Includes root isolated r ∧ g.Visited isolated r c.node := by
  have herror : ∀ e, (g.compile root).result = .error e → ∃ c, e = .cycle c ∧
      c.ClosedBy (g.Requires []) ∧
        ∃ isolated r, g.Includes root isolated r ∧ g.Visited isolated r c.node := by
    intro e he
    refine Includes.outermost.eq_cycle hnests hclosed hroot ?_ he
    rw [nestingBound, Nat.succ_mul]
    simp only [List.length_nil]
    omega
  refine ⟨⟨?_, ?_⟩, herror⟩
  · rintro ⟨e, he⟩
    obtain ⟨c, -, hc, isolated, r, h, hn⟩ := herror e he
    exact ⟨isolated, r, c.node, h, hn, hc.transGen⟩
  · rintro ⟨isolated, r, n, h, hn, hcycle⟩
    cases hresult : (g.compile root).result with
    | error e => exact ⟨e, rfl⟩
    | ok list => exact (h.grounded hnests hresult hn n .refl hcycle).elim

end

end RenderGraph

end SceneGraph
