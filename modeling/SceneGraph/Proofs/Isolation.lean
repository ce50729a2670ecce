import SceneGraph.Proofs.Nesting
import SceneGraph.Proofs.Rendering

/-!
Cycles through models.

Main statement: a compile fails exactly if the requirements of a scene, those of its models
included, lead in a cycle from a node that the compile gets to, and it reports such a cycle
(`Session.compile_fails_iff_reaches_cycle`).  Being isolated hides no cycle and makes none up.
-/

namespace SceneGraph

open Relation

/-- How a compile gets to a node. -/
inductive Access where
  /-- Something needs the node. -/
  | required
  /-- The node is a root or a child, so that its own children follow. -/
  | resolved
  deriving DecidableEq

namespace Scene

variable {s : Scene} {root id m : NodeId} {isolated : List NodeId} {n : Node}

/-- The nodes that compiling a root gets to, in whatever list.  The children of a model follow
however the compile got to the model. -/
inductive Reaches (s : Scene) (root : NodeId) : Access → NodeId → Prop
  | root : Reaches s root .resolved root
  | required {access : Access} {n m : NodeId} (hn : Reaches s root access n)
      (hm : s.graph.Requires [] n m) : Reaches s root .required m
  | child {n m : NodeId} {children : List NodeId} (hn : Reaches s root .resolved n)
      (hkind : s.kind n ≠ .ok .model) (hchildren : s.children n = .ok children)
      (hm : m ∈ children) : Reaches s root .resolved m
  | modelChild {access : Access} {n m : NodeId} {children : List NodeId}
      (hn : Reaches s root access n) (hkind : s.kind n = .ok .model)
      (hchildren : s.children n = .ok children) (hm : m ∈ children) :
      Reaches s root .resolved m

theorem kind_eq_model (hn : s.node id = .ok n) :
    s.kind id = .ok .model ↔ n.model?.isSome = true := by
  have hkind : s.kind id = .ok n.kind := by
    unfold kind
    rw [hn]
    rfl
  rw [hkind, Except.ok.injEq]
  exact n.kind_eq_model_iff

/-- Only models contribute a list, their own, and not while they are isolated. -/
theorem embed_mem_contributions {isolated : List NodeId} :
    .embed m ∈ contributions isolated id n ↔ m = id ∧ n.model?.isSome = true ∧ id ∉ isolated := by
  cases n with
  | part p =>
      cases hmodel : p.model <;> by_cases hid : id ∈ isolated <;>
        simp [contributions, Node.model?, hmodel, hid]
  | _ => simp [contributions, Node.model?]

/-- What is said of a node of a graph is said of a node of the scene. -/
theorem mem_getD_map {α : Type} {f : Node → List α} {a : α} :
    a ∈ (s.nodes[id]?.map f).getD [] ↔ ∃ n, s.node id = .ok n ∧ a ∈ f n := by
  simp only [node_eq_ok]
  cases s.nodes[id]? <;> simp

/-- Models have lists of their own, and no other nodes. -/
theorem ownsList_iff : s.graph.OwnsList id ↔ s.kind id = .ok .model := by
  refine mem_getD_map.trans ⟨?_, fun h => ?_⟩
  · rintro ⟨n, hn, hmem⟩
    exact (kind_eq_model hn).mpr (embed_mem_contributions.mp hmem).2.1
  · obtain ⟨n, hn, -⟩ := except_bind_eq_ok.mp h
    have hmodel := (kind_eq_model hn).mp h
    exact ⟨n, hn, embed_mem_contributions.mpr ⟨rfl, hmodel, List.not_mem_nil⟩⟩

theorem mem_children_iff : m ∈ s.graph.children isolated id ↔
    (s.kind id = .ok .model → id ∈ isolated) ∧
      ∃ children, s.children id = .ok children ∧ m ∈ children := by
  refine mem_getD_map.trans ⟨?_, ?_⟩
  · rintro ⟨n, hn, hmem⟩
    obtain ⟨hisolated, hmem⟩ := mem_resolvedAfter.mp hmem
    refine ⟨fun h => hisolated ((kind_eq_model hn).mp h), _, ?_, hmem⟩
    unfold children
    rw [hn]
    rfl
  · rintro ⟨hisolated, children, hchildren, hmem⟩
    obtain ⟨n, hn, heq⟩ := except_bind_eq_ok.mp hchildren
    obtain rfl := Except.ok.inj heq
    exact ⟨n, hn, mem_resolvedAfter.mpr
      ⟨fun h => hisolated ((kind_eq_model hn).mpr h), hmem⟩⟩

theorem nests (s : Scene) : s.graph.Nests where
  embeds isolated id m := by
    refine mem_getD_map.trans ⟨?_, ?_⟩
    · rintro ⟨n, hn, hmem⟩
      obtain ⟨rfl, hmodel, hid⟩ := embed_mem_contributions.mp hmem
      exact ⟨rfl, ownsList_iff.mpr ((kind_eq_model hn).mpr hmodel), hid⟩
    · rintro ⟨rfl, howns, hid⟩
      obtain ⟨n, hn, -⟩ := except_bind_eq_ok.mp (ownsList_iff.mp howns)
      exact ⟨n, hn, embed_mem_contributions.mpr
        ⟨rfl, (kind_eq_model hn).mp (ownsList_iff.mp howns), hid⟩⟩
  isolated isolated id howns hid := by
    obtain ⟨n, hn, -⟩ := except_bind_eq_ok.mp (ownsList_iff.mp howns)
    have hmodel := (kind_eq_model hn).mp (ownsList_iff.mp howns)
    rw [requirements_of_node hn, needs_eq, if_pos ⟨hmodel, hid⟩]
  ordinary isolated id h := by
    cases hn : s.nodes[id]? with
    | none => simp [graph, hn]
    | some n =>
        have hn := node_eq_ok.mpr hn
        rw [requirements_of_node hn, requirements_of_node hn, needs_eq isolated, if_neg]
        exact fun hmodel => h ⟨ownsList_iff.mpr ((kind_eq_model hn).mpr hmodel.1), hmodel.2⟩

/-- A command among the contributions of a node is a step of it. -/
theorem emits_of_contributions (hn : s.node id = .ok n) {isolated : List NodeId} {c : Command}
    (hc : .command c ∈ contributions isolated id n) : ∃ step, c = .step step ∧ Emits s id step := by
  cases n with
  | scalar | input => cases hc
  | calculated k =>
      obtain ⟨tail, htail, heq⟩ := Option.map_eq_some_iff.mp (Option.mem_toList.mp hc)
      obtain rfl := Contribution.command.inj heq
      exact ⟨_, rfl, .assign hn htail⟩
  | modified k =>
      obtain rfl : c = _ := by simpa [contributions] using hc
      exact ⟨_, rfl, .modify hn⟩
  | transformation step =>
      obtain rfl : c = _ := by simpa [contributions] using hc
      exact ⟨_, rfl, .transform hn⟩
  | part p =>
      have hc : c = .step (.showPart id) := by
        by_cases hmodel : p.model.isNone = true <;> by_cases hid : id ∈ isolated <;>
          simp [contributions, hmodel, hid] at hc <;> exact hc
      exact ⟨_, hc, .showPart hn⟩
  | pin p =>
      obtain rfl : c = _ := by simpa [contributions] using hc
      exact ⟨_, rfl, .showPin hn⟩
  | pinnedPart p =>
      obtain rfl : c = _ := by simpa [contributions] using hc
      exact ⟨_, rfl, .showPinnedPart hn⟩

/-- Isolated models contribute nothing. -/
theorem not_isolated_of_contributions (hn : s.node id = .ok n) {isolated : List NodeId}
    {k : Contribution NodeId Command} (hk : k ∈ contributions isolated id n)
    (hmodel : s.kind id = .ok .model) : id ∉ isolated := by
  rw [kind_eq_model hn] at hmodel
  intro hid
  cases n with
  | part p =>
      obtain ⟨state, hstate⟩ := Option.isSome_iff_exists.mp hmodel
      have hstate : p.model = some state := hstate
      simp [contributions, hstate, hid] at hk
  | _ => cases hmodel

/-- A command of a list is a step of a node that the list visits and that is no isolated model,
or it replays the list of a model that the list visits. -/
theorem command_of_makes {r : NodeId} {list : SceneList} (h : s.graph.Makes isolated r list)
    {c : Command} (hc : c ∈ list.commands) :
    (∃ x step, s.graph.Visited isolated r x ∧ (s.kind x = .ok .model → x ∉ isolated) ∧
        c = .step step ∧ Emits s x step) ∨
      ∃ m inner, s.graph.Visited isolated r m ∧ m ∉ isolated ∧
        s.graph.Makes (isolated ++ [m]) m inner ∧ c = .replayModel m inner := by
  obtain ⟨x, hx, hc | hc | ⟨m, inner, hm, hinner, rfl⟩⟩ := h.mem_commands hc
  · obtain ⟨n, hn, hc⟩ := mem_getD_map.mp hc
    rw [needs_eq] at hc
    split at hc
    · cases hc
    · next hordinary =>
        obtain ⟨step, rfl, hstep⟩ := emits_of_needs hn hc
        exact .inl ⟨x, step, hx,
          fun hmodel hid => hordinary ⟨(kind_eq_model hn).mp hmodel, hid⟩, rfl, hstep⟩
  · obtain ⟨n, hn, hc⟩ := mem_getD_map.mp hc
    obtain ⟨step, rfl, hstep⟩ := emits_of_contributions hn hc
    exact .inl ⟨x, step, hx, not_isolated_of_contributions hn hc, rfl, hstep⟩
  · obtain ⟨rfl, -, hnew⟩ := (s.nests.embeds _ _ _).mp hm
    refine .inr ⟨m, inner, hx, hnew, hinner, ?_⟩
    show Command.replayModel inner.root inner = _
    rw [hinner.root_eq]

/-- A command that compiling a scene makes: a step of a node, or a replay of the list that was
made for a model. -/
def Has (s : Scene) : Command → Prop
  | .step step => ∃ x, Emits s x step
  | .replayModel model list => ∃ isolated, s.graph.Makes isolated model list

theorem has_of_makes {r : NodeId} {list : SceneList} (h : s.graph.Makes isolated r list) :
    ∀ c ∈ list.commands, s.Has c := by
  intro c hc
  rcases command_of_makes h hc with ⟨x, step, -, -, rfl, hstep⟩ | ⟨m, inner, -, -, hinner, rfl⟩
  · exact ⟨x, hstep⟩
  · exact ⟨_, hinner⟩

theorem closed (hs : s.WellFormed) (isolated : List NodeId) : s.graph.Closed isolated where
  requirements id _ m hm := by
    obtain ⟨n, hn, hmem⟩ := mem_getD_map.mp hm
    rw [needs_eq] at hmem
    split at hmem
    · cases hmem
    · exact List.mem_range.mpr (lt_count_of_needs hs hn hmem)
  children id _ m hm := by
    obtain ⟨n, hn, hmem⟩ := mem_getD_map.mp hm
    have hfits := hs.fits id n hn
    have hmem := (mem_resolvedAfter.mp hmem).2
    cases n with
    | part p | pinnedPart p => exact List.mem_range.mpr (hfits.1.children m hmem).lt_count
    | _ => cases hmem

/-- The compile gets to a node in such a way that its children follow. -/
def Opens (s : Scene) (root id : NodeId) : Prop :=
  ∃ access, s.Reaches root access id ∧ (access = .resolved ∨ s.kind id = .ok .model)

theorem Opens.resolved {r : NodeId} (hr : s.Opens root r)
    (h : s.graph.Resolved isolated r id) : s.Opens root id := by
  induction h with
  | root => exact hr
  | @child n m _ hm ih =>
      obtain ⟨access, hn, haccess⟩ := ih
      obtain ⟨-, children, hchildren, hm⟩ := mem_children_iff.mp hm
      refine ⟨.resolved, ?_, Or.inl rfl⟩
      by_cases hkind : s.kind n = .ok .model
      · exact hn.modelChild hkind hchildren hm
      · obtain rfl := haccess.resolve_right hkind
        exact hn.child hkind hchildren hm

theorem Opens.visited {r : NodeId} (hr : s.Opens root r)
    (howns : ∀ i ∈ isolated, s.graph.OwnsList i) (h : s.graph.Visited isolated r id) :
    ∃ access, s.Reaches root access id := by
  induction h with
  | resolved hn => exact (hr.resolved hn).imp fun _ h => h.1
  | required _ hm ih =>
      obtain ⟨access, hn⟩ := ih
      exact ⟨_, hn.required (s.nests.requires_mono howns hm)⟩

/-- Whatever a list visits, the compile gets to it. -/
theorem reaches_of_includes {r : NodeId} (h : s.graph.Includes root isolated r)
    (hid : s.graph.Visited isolated r id) : ∃ access, s.Reaches root access id := by
  refine Opens.visited ?_ h.owns hid
  clear hid
  induction h with
  | outermost => exact ⟨.resolved, .root, Or.inl rfl⟩
  | nested h hn howns _ ih =>
      obtain ⟨access, hreaches⟩ := ih.visited h.owns hn
      exact ⟨access, hreaches, Or.inr (ownsList_iff.mp howns)⟩

/-- Whatever the compile gets to, some list visits it, and resolves it if it is to be
resolved. -/
theorem includes_of_reaches {access : Access} (h : s.Reaches root access id) :
    ∃ isolated r, s.graph.Includes root isolated r ∧ s.graph.Visited isolated r id ∧
      (access = .resolved → s.graph.Resolved isolated r id) := by
  induction h with
  | root => exact ⟨[], root, .outermost, .resolved .root, fun _ => .root⟩
  | required _ hm ih =>
      obtain ⟨isolated, r, h, hn, -⟩ := ih
      obtain ⟨isolated', r', h', hm'⟩ := h.required s.nests hn hm
      exact ⟨isolated', r', h', hm', nofun⟩
  | child _ hkind hchildren hm ih =>
      obtain ⟨isolated, r, h, -, hresolved⟩ := ih
      have hm' := (hresolved rfl).child
        (mem_children_iff.mpr ⟨fun h => absurd h hkind, _, hchildren, hm⟩)
      exact ⟨isolated, r, h, .resolved hm', fun _ => hm'⟩
  | @modelChild _ n m _ _ hkind hchildren hm ih =>
      obtain ⟨isolated, r, h, hn, -⟩ := ih
      obtain ⟨isolated', h'⟩ := h.own hn (ownsList_iff.mpr hkind)
      have hm' : s.graph.Resolved (isolated' ++ [n]) n m :=
        .child .root (mem_children_iff.mpr ⟨fun _ => by simp, _, hchildren, hm⟩)
      exact ⟨_, n, h', .resolved hm', fun _ => hm'⟩

/-- What a compile of a scene fails with. -/
theorem compile_eq_error {e : SceneFailure} : (s.compile root).result = .error e ↔
    ∃ e', (s.graph.compile root).result = .error e' ∧ s.failure e' = e := by
  show (s.graph.compile root).result.mapError s.failure = _ ↔ _
  cases (s.graph.compile root).result <;> simp

end Scene

namespace Session

variable {σ : Session} {root : NodeId}

/-- Isolation neither hides nor invents cycles.  Compiling any node of a scene fails exactly if
the requirements of the scene, with those of all its models, lead in a cycle from some node that
the compile gets to.  What it fails with is such a cycle: its path leads along requirements from
a node that the compile gets to back to itself. -/
theorem compile_fails_iff_reaches_cycle (hσ : Reachable σ) (hroot : root < σ.scene.count) :
    ((∃ e, (σ.scene.compile root).result = .error e) ↔ ∃ access n,
        σ.scene.Reaches root access n ∧ TransGen (σ.scene.graph.Requires []) n n) ∧
      ∀ e, (σ.scene.compile root).result = .error e → ∃ c access, e = .cycle c ∧
        c.ClosedBy (σ.scene.graph.Requires []) ∧ σ.scene.Reaches root access c.node := by
  obtain ⟨hiff, herror⟩ := RenderGraph.compile_fails_iff_includes_cycle σ.scene.nests
    (Scene.closed hσ.sound.wellFormed) (List.mem_range.mpr hroot)
  refine ⟨⟨?_, ?_⟩, ?_⟩
  · rintro ⟨e, he⟩
    obtain ⟨e', he', -⟩ := Scene.compile_eq_error.mp he
    obtain ⟨isolated, r, n, h, hn, hcycle⟩ := hiff.mp ⟨e', he'⟩
    obtain ⟨access, hreaches⟩ := Scene.reaches_of_includes h hn
    exact ⟨access, n, hreaches, hcycle⟩
  · rintro ⟨access, n, hreaches, hcycle⟩
    obtain ⟨isolated, r, h, hn, -⟩ := Scene.includes_of_reaches hreaches
    obtain ⟨e', he'⟩ := hiff.mpr ⟨isolated, r, n, h, hn, hcycle⟩
    exact ⟨_, Scene.compile_eq_error.mpr ⟨e', he', rfl⟩⟩
  · intro e he
    obtain ⟨e', he', rfl⟩ := Scene.compile_eq_error.mp he
    obtain ⟨c, rfl, hc, isolated, r, h, hn⟩ := herror e' he'
    obtain ⟨access, hreaches⟩ := Scene.reaches_of_includes h hn
    exact ⟨c, access, rfl, hc, hreaches⟩

/-- A model with a child that is placed where it is itself. -/
def ownReader : List Operation :=
  [.model, .part, .addChild 3 4, .partAttribute 4 .x, .readback 4 .x,
    .modify 6 [⟨.add, some (.cell 7), rfl⟩]]

theorem compile_fails_iff_reaches_cycle_ownReader : ∃ σ, Reachable σ ∧ 3 < σ.scene.count ∧
    (σ.scene.compile 3).result = .error (.cycle ⟨4, [4, 6, 8, 7, 4]⟩) ∧
    (∃ access n, σ.scene.Reaches 3 access n ∧ TransGen (σ.scene.graph.Requires []) n n) ∧
    Cycle.ClosedBy (σ.scene.graph.Requires []) ⟨4, [4, 6, 8, 7, 4]⟩ := by
  have hrun : ∃ σ ∈ (start 100.0).runAll ownReader, 3 < σ.scene.count ∧
      (σ.scene.compile 3).result.map (fun _ => ()) = .error (.cycle ⟨4, [4, 6, 8, 7, 4]⟩) := by
    decide +kernel
  obtain ⟨σ, hσ, hroot, hresult⟩ := hrun
  have hresult := except_map_eq_error.mp hresult
  have hreach : Reachable σ := ⟨100.0, runs_of_runAll hσ⟩
  obtain ⟨hiff, hcycle⟩ := compile_fails_iff_reaches_cycle hreach hroot
  obtain ⟨c, access, hc, hclosed, -⟩ := hcycle _ hresult
  obtain rfl : ⟨4, [4, 6, 8, 7, 4]⟩ = c := by simpa using hc
  exact ⟨σ, hreach, hroot, hresult, hiff.mp ⟨_, hresult⟩, hclosed⟩

end Session

end SceneGraph
