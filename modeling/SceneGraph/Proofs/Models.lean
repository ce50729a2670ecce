import SceneGraph.Proofs.Frames

/-!
The scene at the end of a frame with models in it.

Main statement: if no extra motion gets back to the container that it moves, replaying a
compiled list brings all nodes up to date that the list visits or some list within, just as if
the models among them were parts (`Session.models_up_to_date`).  Otherwise a container may be
moved twice (`Session.moved_twice`).
-/

namespace SceneGraph

namespace Scene

variable {s : Scene} {root id : NodeId} {access : Access}

/-- A compile does not leave a set of nodes that holds what its nodes need, and their children. -/
theorem Reaches.mem {l : List NodeId} (h : s.Reaches root access id) (hroot : root ∈ l)
    (hl : ∀ x ∈ l, ∀ m ∈ Requirement.nodes (s.graph.requirements [] x) ++
      (s.children x).toOption.getD [], m ∈ l) : id ∈ l := by
  have hchild : ∀ {x m : NodeId} {children : List NodeId}, x ∈ l → s.children x = .ok children →
      m ∈ children → m ∈ l := by
    intro x m children hx hchildren hm
    refine hl x hx m (List.mem_append_right _ ?_)
    rw [hchildren]
    exact hm
  induction h with
  | root => exact hroot
  | required _ hm ih => exact hl _ ih _ (List.mem_append_left _ (RenderGraph.mem_nodes.mpr hm))
  | child _ _ hchildren hm ih | modelChild _ _ hchildren hm ih => exact hchild ih hchildren hm

theorem moves_iff {m owner : NodeId} : s.Moves m owner ↔
    (s.nodes[m]?.bind Node.transformation?).map Transformation.owner = some owner := by
  simp only [Option.map_eq_some_iff, Option.bind_eq_some_iff, ← node_eq_ok]
  constructor
  · rintro ⟨motion, amount, hm⟩
    exact ⟨_, ⟨_, hm, rfl⟩, rfl⟩
  · rintro ⟨⟨owner, motion, amount⟩, ⟨n, hm, hn⟩, rfl⟩
    cases n with
    | transformation t => exact ⟨motion, amount, Option.some.inj hn ▸ hm⟩
    | _ => cases hn

end Scene

namespace Session

/-- At the end of a frame everything is up to date, models or not.  Take a list that was compiled
for a node of a scene, no input being among the nodes that the list or some list within visits,
and no extra motion of these nodes leading back to the container that it moves.  Replay it after
any edits of values.  The replay succeeds, and in the scene that it leaves all these nodes satisfy
their equations, with all that the equations read taken from that same scene. -/
theorem models_up_to_date {σ τ : Session} (hσ : Reachable σ) {h : Handle} (hh : h ∈ σ.handles)
    {list : SceneList} (hlist : (σ.scene.compile h.id).result = .ok list)
    (hinputs : ∀ access x, σ.scene.Reaches h.id access x → σ.scene.kind x ≠ .ok .input)
    (hmotions : ∀ access owner, σ.scene.Reaches h.id access owner → ∀ m, σ.scene.Moves m owner →
      ∀ access', ¬ σ.scene.Reaches m access' owner)
    (hedits : Edits σ τ) (inputs : List (Option Float)) :
    ∃ f, τ.scene.replay list (suppliedBy inputs) = .ok f ∧
      ∀ access x, σ.scene.Reaches h.id access x →
        ∃ n, f.scene.node x = .ok n ∧ f.scene.Satisfied x n := by
  have hsound := hσ.sound
  have hcompile := mapError_eq_ok.mp hlist
  have hroot : σ.scene.IsStill h.id := Scene.HasKind.isStill (hsound.handles h hh) <| by
    cases h <;> simp [Handle.Names, NodeKind.IsNumber]
  have hcalm : σ.scene.Calm h.id := by
    refine ⟨fun access x hx => ?_, hinputs, hmotions, fun model entry hentry => ?_⟩
    · obtain ⟨isolated, r, hincludes, hvisited, -⟩ := Scene.includes_of_reaches hx
      exact hincludes.grounded σ.scene.nests hcompile hvisited
    · exact (hσ.sourced model entry hentry).lt_count
  have halike := alike_of_edits hedits
  exact Scene.replay_solved hsound.wellFormed hcalm hroot hcompile halike.wiring halike.sources
    (suppliedBy inputs)

/-- A pinned part in a model, with a motion whose amount is given. -/
def movedInModel : List Operation :=
  [.pinnedPart, .addTransformation 3 .translateX, .model, .addChild 7 3, .setBaseValue 5 2.5]

theorem models_up_to_date_movedInModel : ∃ σ list f n, Reachable σ ∧
    (σ.scene.compile 7).result = .ok list ∧ σ.scene.replay list (suppliedBy []) = .ok f ∧
    σ.scene.Moves 6 3 ∧ f.scene.node 3 = .ok n ∧ f.scene.Satisfied 3 n := by
  have hrun : ∃ σ ∈ (start 100.0).runAll movedInModel,
      ∃ list ∈ (σ.scene.compile 7).result.toOption,
        Handle.model 7 ∈ σ.handles ∧ NodeKind.input ∉ σ.scene.nodes.toList.map Node.kind ∧
        6 < σ.scene.count ∧ (∀ m ∈ List.range σ.scene.count,
          (σ.scene.nodes[m]?.bind Node.transformation?).map Transformation.owner =
            if m = 6 then some 3 else none) ∧
        (∀ x ∈ [6, 5], ∀ m ∈ Requirement.nodes (σ.scene.graph.requirements [] x) ++
          (σ.scene.children x).toOption.getD [], m ∈ [6, 5]) ∧
        (σ.scene.kind 7).toOption = some .model ∧
        (σ.scene.children 7).toOption = some [3] := by
    decide +kernel
  obtain ⟨σ, hσ, list, hlist, hhandle, hinput, hcount, howners, hclosed, hmodel, hchildren⟩ := hrun
  have hreach : Reachable σ := ⟨100.0, runs_of_runAll hσ⟩
  have howner : ∀ m owner, σ.scene.Moves m owner → m = 6 ∧ owner = 3 := by
    intro m owner hmoves
    have hlt : m < σ.scene.count := by
      obtain ⟨_, _, hm⟩ := hmoves
      exact Scene.lt_count_of_node hm
    have heq := howners m (List.mem_range.mpr hlt)
    rw [Scene.moves_iff.mp hmoves] at heq
    split at heq
    · exact ⟨by assumption, Option.some.inj heq⟩
    · cases heq
  have hmotions : ∀ access owner, σ.scene.Reaches 7 access owner → ∀ m, σ.scene.Moves m owner →
      ∀ access', ¬ σ.scene.Reaches m access' owner := by
    intro access owner _ m hmoves access' hback
    obtain ⟨rfl, rfl⟩ := howner m owner hmoves
    exact absurd (hback.mem (l := [6, 5]) List.mem_cons_self hclosed) (by decide)
  obtain ⟨f, hf, hsatisfied⟩ := models_up_to_date hreach hhandle (toOption_eq_some.mp hlist)
    (fun _ x _ => Scene.kind_ne hinput x) hmotions .refl []
  obtain ⟨n, hn, heq⟩ := hsatisfied .resolved 3
    (.modelChild .root (toOption_eq_some.mp hmodel) (toOption_eq_some.mp hchildren)
      List.mem_cons_self)
  exact ⟨σ, list, f, n, hreach, toOption_eq_some.mp hlist, hf,
    Scene.moves_iff.mpr (howners 6 (List.mem_range.mpr hcount)), hn, heq⟩

/-- A pinned part in a model, with a motion whose amount is five, after it was the place of the
model. -/
def movedByModel : List Operation :=
  [.pinnedPart, .addTransformation 3 .translateX, .model, .addChild 7 3, .readback 7 .x,
    .modify 5 [⟨.add, some (.cell 8), rfl⟩, ⟨.assign, some (.constant 5.0), rfl⟩]]

/-- The list of the model puts the part together while the part waits for its motion; then the
motion is appended to a matrix that has it already. -/
theorem moved_twice : ∃ σ list f p, Reachable σ ∧ (∀ id, σ.scene.kind id ≠ .ok .input) ∧
    (σ.scene.compile 3).result = .ok list ∧ σ.scene.replay list (suppliedBy []) = .ok f ∧
    f.scene.node 3 = .ok (.pinnedPart p) ∧ (f.scene.matrix 3).x = 10.0 ∧
    (f.scene.solved p).x = 5.0 ∧ ¬ f.scene.Satisfied 3 (.pinnedPart p) := by
  have hrun : ∃ σ ∈ (start 100.0).runAll movedByModel, ∃ f ∈ σ.frame? 3,
      ∃ p ∈ f.scene.nodes[3]?.bind Node.pinnedPart?,
        .input ∉ σ.scene.nodes.toList.map Node.kind ∧ (f.scene.matrix 3).x = 10.0 ∧
        (f.scene.solved p).x = 5.0 := by
    decide +kernel
  obtain ⟨σ, hσ, f, hf, p, hp, hinput, hmatrix, hsolved⟩ := hrun
  obtain ⟨list, hlist, hreplay⟩ := frame?_eq_some.mp hf
  refine ⟨σ, list, f, p, ⟨100.0, runs_of_runAll hσ⟩, Scene.kind_ne hinput, hlist, hreplay, ?_,
    hmatrix, hsolved, fun hsatisfied => ?_⟩
  · exact Scene.node_of_bind Node.pinnedPart?_eq_some hp
  · rw [Scene.matrix_of_working hsatisfied.1, hsolved] at hmatrix
    exact absurd hmatrix (by decide +kernel)

end Session

end SceneGraph
