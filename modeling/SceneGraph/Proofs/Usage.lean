import SceneGraph.Proofs.Naming

/-!
Using a scene never leads out of it.

Main statement: in every state of a run, all positions that are stored anywhere stand for nodes
of the kinds they are stored as, and so do those that lists name, however old; and so every
operation on handles of the scene has an outcome (`Session.stays_in_range`).  One thing is
beyond the scene: a model's sources fill a table that is as long as the largest index, and an
index that no table can reach cannot be registered.
-/

namespace SceneGraph

namespace Scene

variable {s t u : Scene} {id cell owner root model : NodeId}

section Operations

theorem setBaseValue_succeeds (hs : s.WellFormed) (hid : id < s.count) (v : Float) :
    ∃ t, s.setBaseValue id v = .ok t := by
  obtain ⟨n, hn⟩ := node_of_lt_count hid
  refine bind_succeeds hn ?_
  cases n with
  | calculated c =>
      have hbase : c.base < s.count := HasKind.lt_count (hs.fits id _ hn).1
      obtain ⟨t, ht⟩ := update_of_lt_count hid (Node.setValue v)
      exact bind_succeeds ht (update_of_lt_count (count_update ht ▸ hbase) _)
  | _ => exact ⟨s, rfl⟩

theorem appendModifier_succeeds (hid : id < s.count) (link : ChainLink) :
    ∃ t, s.appendModifier id link = .ok t ∧ id < t.count := by
  have hgrown : id < (s.operandCell link.operand).2.count := by
    match link.operand with
    | none | some (.cell _) => exact hid
    | some (.constant v) => exact (count_push s _).symm ▸ Nat.lt_succ_of_lt hid
  obtain ⟨n, hn⟩ := node_of_lt_count hgrown
  unfold appendModifier
  simp only [hn, ok_bind]
  cases n with
  | calculated c =>
      have hlt : id < ((s.operandCell link.operand).2.push (.modified
          ⟨link.op, c.tail, (s.operandCell link.operand).1, 0.0⟩)).count :=
        (count_push _ _).symm ▸ Nat.lt_succ_of_lt hgrown
      obtain ⟨t, ht⟩ :=
        update_of_lt_count hlt (Node.appendLink (s.operandCell link.operand).2.count)
      exact ⟨t, ht, count_update ht ▸ hlt⟩
  | _ => exact ⟨_, rfl, hgrown⟩

theorem modify_succeeds (hid : id < s.count) (links : List ChainLink) :
    ∃ t, s.modify id links = .ok t := by
  obtain ⟨t, ht, -⟩ := foldlM_succeeds (P := fun s : Scene => id < s.count) (l := links)
    (fun _ link _ hid => appendModifier_succeeds hid link) hid
  exact ⟨t, ht⟩

theorem materialize_succeeds (howner : owner < s.count) (slot : Node → Option NodeId)
    (fill : NodeId → Node → Node) (base : Float) :
    ∃ r, s.materialize owner slot fill base = .ok r := by
  obtain ⟨n, hn⟩ := node_of_lt_count howner
  refine bind_succeeds hn ?_
  cases slot n with
  | some found => exact ⟨_, rfl⟩
  | none =>
      have hlt : owner < (s.calculated base).2.count :=
        calculated_count s base ▸ Nat.lt_add_right 2 howner
      obtain ⟨u, hu⟩ := update_of_lt_count hlt (fill (s.calculated base).1)
      exact bind_succeeds hu ⟨_, rfl⟩

theorem setBaseOf_succeeds {access : Except OutOfRange (NodeId × Scene)}
    (haccess : ∃ r, access = .ok r)
    (hbuilds : ∀ cell t, access = .ok (cell, t) → Builds s t ∧ t.IsCalculated cell)
    (v : Float) : ∃ r, setBaseOf access v = .ok r := by
  obtain ⟨⟨cell, t⟩, ht⟩ := haccess
  obtain ⟨hbuilt, hcell⟩ := hbuilds cell t ht
  obtain ⟨u, hu⟩ := setBaseValue_succeeds hbuilt.wellFormed hcell.lt_count v
  exact bind_succeeds ht (bind_succeeds hu ⟨_, rfl⟩)

theorem addTransformation_succeeds (howner : owner < s.count) (motion : Motion) :
    ∃ r, s.addTransformation owner motion = .ok r := by
  have hlt : owner < ((s.calculated 0.0).2.push
      (.transformation ⟨owner, motion, (s.calculated 0.0).1⟩)).count := by
    rw [count_push, calculated_count]
    exact Nat.lt_add_right 3 howner
  obtain ⟨u, hu⟩ :=
    update_of_lt_count hlt (Node.appendTransformation (s.calculated 0.0).2.count)
  exact bind_succeeds hu ⟨_, rfl⟩

theorem readback_succeeds (hs : s.WellFormed) (howner : owner < s.count) (r : Readback) :
    ∃ x, s.readback owner r = .ok x := by
  obtain ⟨n, hn⟩ := node_of_lt_count howner
  refine bind_succeeds hn ?_
  cases n.readback? r with
  | some found => exact ⟨_, rfl⟩
  | none =>
      obtain ⟨v, hv⟩ := readbackValue_succeeds hs rfl hn r
      have hlt : owner < (s.push (.scalar v (some owner))).count :=
        (count_push s _).symm ▸ Nat.lt_succ_of_lt howner
      obtain ⟨u, hu⟩ := update_of_lt_count hlt (Node.fillReadback r s.count)
      exact bind_succeeds hv (bind_succeeds hu ⟨_, rfl⟩)

theorem pinReadback_succeeds (hs : s.WellFormed) (hpin : s.HasKind (· = .pin) owner)
    (axis : Axis) : ∃ x, s.pinReadback owner axis = .ok x := by
  obtain ⟨n, hn, hkind⟩ := hpin
  have howner := lt_count_of_node hn
  refine bind_succeeds hn ?_
  cases hslot : n.pinReadback? axis with
  | some found => exact ⟨_, rfl⟩
  | none =>
      have hlt : owner < (s.push (.scalar 0.0 (some owner))).count :=
        (count_push s _).symm ▸ Nat.lt_succ_of_lt howner
      obtain ⟨u, hu⟩ := update_of_lt_count hlt (Node.fillPinReadback axis s.count)
      have hbuilds := fillPinReadback_builds hs hn hkind hslot hu
      obtain ⟨v, hv⟩ := refreshPin_of_lt_count hbuilds.1.wellFormed rfl
        (count_update hu ▸ hlt)
      exact bind_succeeds hu (bind_succeeds hv ⟨_, rfl⟩)

theorem attachPin_succeeds (howner : owner < s.count) (slot : PinSlot) (origin : Point Float) :
    ∃ t, s.attachPin owner slot origin = .ok t := by
  obtain ⟨n, hn⟩ := node_of_lt_count howner
  refine bind_succeeds hn ?_
  cases n.attachment? slot with
  | some a => exact ⟨s, rfl⟩
  | none =>
      refine update_of_lt_count ?_ _
      show owner < ((s.calculated origin.x).2.calculated origin.y).2.count
      rw [calculated_count, calculated_count]
      exact Nat.lt_add_right 4 howner

theorem pinOrigin?_succeeds (howner : owner < s.count) (slot : PinSlot) (axis : Axis) :
    ∃ r, s.pinOrigin? owner slot axis = .ok r := by
  obtain ⟨n, hn⟩ := node_of_lt_count howner
  exact bind_succeeds hn ⟨_, rfl⟩

theorem pinTarget?_succeeds (howner : owner < s.count) (slot : PinSlot) (axis : Axis) :
    ∃ r, s.pinTarget? owner slot axis = .ok r := by
  obtain ⟨n, hn⟩ := node_of_lt_count howner
  refine bind_succeeds hn ?_
  cases n.attachment? slot with
  | none => exact ⟨_, rfl⟩
  | some a =>
      obtain ⟨r, hr⟩ := materialize_succeeds howner (Node.target? slot axis)
        (Node.fillTarget slot axis) 0.0
      exact bind_succeeds hr ⟨_, rfl⟩

theorem setPinTargetAxis_succeeds (hs : s.WellFormed) (howner : owner < s.count)
    (slot : PinSlot) (axis : Axis) (v : Float) :
    ∃ t, s.setPinTargetAxis owner slot axis v = .ok t := by
  obtain ⟨⟨cell?, t⟩, ht⟩ := pinTarget?_succeeds howner slot axis
  obtain ⟨hbuilds, hcell⟩ := pinTarget?_builds hs ht
  refine bind_succeeds ht ?_
  cases cell? with
  | none => exact ⟨t, rfl⟩
  | some cell => exact setBaseValue_succeeds hbuilds.wellFormed (hcell cell rfl).lt_count v

theorem setPinTarget_succeeds (hs : s.WellFormed) (howner : owner < s.count) (slot : PinSlot)
    (target : Point Float) : ∃ t, s.setPinTarget owner slot target = .ok t := by
  obtain ⟨t, ht⟩ := setPinTargetAxis_succeeds hs howner slot .x target.x
  have hbuilds := setPinTargetAxis_builds hs ht
  exact bind_succeeds ht (setPinTargetAxis_succeeds hbuilds.wellFormed
    (hbuilds.develops.lt_count howner) slot .y target.y)

theorem detach_succeeds (hs : s.WellFormed) {child : NodeId} (hchild : child < s.count) :
    ∃ t, s.detach child = .ok t := by
  obtain ⟨n, hn⟩ := node_of_lt_count hchild
  have hparent : s.parent? child = .ok n.parent? := by
    unfold parent?
    rw [hn]
    rfl
  refine bind_succeeds hparent ?_
  cases hold : n.parent? with
  | none => exact ⟨s, rfl⟩
  | some old =>
      obtain ⟨r, hr⟩ := unlink_succeeds (parent_isContainer hs hn hold).lt_count hchild
      exact bind_succeeds hr ⟨_, rfl⟩

theorem addChild_succeeds (hs : s.WellFormed) {parent child : NodeId}
    (hparent : parent < s.count) (hchild : child < s.count) :
    ∃ t, s.addChild parent child = .ok t := by
  obtain ⟨s₁, h₁⟩ := detach_succeeds hs hchild
  have hst := (detach_builds hs h₁).develops
  obtain ⟨s₂, h₂⟩ := update_of_lt_count (hst.lt_count hchild) (Node.setParent (some parent))
  obtain ⟨s₃, h₃⟩ := update_of_lt_count (count_update h₂ ▸ hst.lt_count hparent)
    (Node.mapContainer fun c => { c with children := c.children ++ [child] })
  exact bind_succeeds h₁ (bind_succeeds h₂ (bind_succeeds h₃ ⟨_, rfl⟩))

theorem addChildren_succeeds (hs : s.WellFormed) {parent : NodeId} {children : List NodeId}
    (hparent : s.IsContainer parent) (hchildren : ∀ child ∈ children, s.IsPlaced child) :
    ∃ t, s.addChildren parent children = .ok t := by
  have hround : ∀ u, ∀ child ∈ children, Builds s u →
      ∃ v, u.addChild parent child = .ok v ∧ Builds s v := by
    intro u child hchild hu
    have hparent := hparent.mono hu.develops
    have hchild := (hchildren child hchild).mono hu.develops
    obtain ⟨v, hv⟩ := addChild_succeeds hu.wellFormed hparent.lt_count hchild.lt_count
    exact ⟨v, hv, hu.trans (addChild_builds hu.wellFormed hparent hchild hv)⟩
  obtain ⟨t, ht, -⟩ := foldlM_succeeds hround (.refl hs)
  exact ⟨t, ht⟩

/-- The graph of a scene is compiled, or a cycle is found. -/
theorem outcome_of_graph (hs : s.WellFormed) (hroot : root < s.count) :
    (∃ list, (s.graph.compile root).result = .ok list) ∨
      ∃ c, (s.graph.compile root).result = .error (.cycle c) := by
  cases h : (s.graph.compile root).result with
  | ok list => exact .inl ⟨list, rfl⟩
  | error e =>
      obtain ⟨c, rfl, -⟩ := (RenderGraph.compile_fails_iff_includes_cycle s.nests (closed hs)
        (List.mem_range.mpr hroot)).2 e h
      exact .inr ⟨c, rfl⟩

theorem outcome_of_compile (hs : s.WellFormed) (hroot : root < s.count) :
    (∃ list, (s.compile root).result = .ok list) ∨
      ∃ c, (s.compile root).result = .error (.cycle c) :=
  (outcome_of_graph hs hroot).imp (fun ⟨list, h⟩ => ⟨list, mapError_eq_ok.mpr h⟩)
    fun ⟨c, h⟩ => ⟨c, compile_eq_error.mpr ⟨_, h, rfl⟩⟩

theorem setSource_succeeds (hmodel : model < s.count) {index : InputIndex}
    (hindex : index.toNat + 1 < SourceTable.placeLimit) (source : NodeId) :
    ∃ t, s.setSource model index source = .ok t := by
  obtain ⟨n, hn⟩ := node_of_lt_count hmodel
  unfold setSource
  simp only [hn, mapError_ok, ok_bind]
  cases n.model? with
  | none => exact ⟨s, rfl⟩
  | some state =>
      have hplaces : (index + 1).toNat = index.toNat + 1 := by
        have hlimit : SourceTable.placeLimit < 2 ^ 64 := by decide
        have hone : (1 : UInt64).toNat = 1 := rfl
        rw [UInt64.toNat_add, hone]
        exact Nat.mod_eq_of_lt (hindex.trans hlimit)
      have hsources : state.sources.register index source =
          .ok (state.sources.insert index source) := by
        have hne : index + 1 ≠ 0 := fun heq => by simp [heq] at hplaces
        simp only [SourceTable.register, hne, if_false, hplaces, hindex, if_true]
      obtain ⟨t, ht⟩ := update_of_lt_count hmodel
        (Node.mapModel fun state' => { state' with sources := state.sources.insert index source })
      exact bind_succeeds hsources ⟨t, mapError_eq_ok.mpr ht⟩

/-- No position is out of range but the one that the very last index would take in a table. -/
theorem setSource_out_of_range_iff (hmodel : s.HasKind (· = .model) model) {index : InputIndex}
    {source : NodeId} {e : OutOfRange} :
    s.setSource model index source = .error (.outOfRange e) ↔
      index + 1 = 0 ∧ e = ⟨0, index.toNat⟩ := by
  obtain ⟨n, hn, hkind⟩ := hmodel
  obtain ⟨state, hstate⟩ := Option.isSome_iff_exists.mp (n.kind_eq_model_iff.mp hkind)
  obtain ⟨t, ht⟩ := update_of_lt_count (lt_count_of_node hn)
    (Node.mapModel fun state' => { state' with sources := state.sources.insert index source })
  unfold setSource
  simp only [hn, mapError_ok, ok_bind, hstate, SourceTable.register]
  split
  · next hplaces => simp [hplaces, bind, Except.bind, eq_comm]
  · next hplaces =>
      split
      · simp [hplaces, ht, bind, Except.bind]
      · simp [hplaces, bind, Except.bind]

theorem replayModel_succeeds (hs : s.WellFormed) (hsources : s.SourcesStand)
    (hmodel : model < s.count) {list : SceneList} (hlist : s.Bears (Command.mentionsOf list)) :
    ∃ f, s.replayModel model list = .ok f := by
  obtain ⟨n, hn⟩ := node_of_lt_count hmodel
  obtain ⟨inputs, hinputs⟩ := suppliedInputs_succeeds hn (hsources model)
  exact bind_succeeds hinputs (replay_succeeds hs hsources hlist _)

theorem outcome_of_compileModel (hs : s.WellFormed) (hmodel : model < s.count) :
    (∃ r, (s.compileModel model).result = .ok r) ∨
      ∃ c, (s.compileModel model).result = .error (.cycle c) := by
  rw [result_compileModel]
  rcases outcome_of_compile hs hmodel with ⟨list, hlist⟩ | ⟨c, hc⟩
  · obtain ⟨t, ht⟩ := keep_eq_ok list hmodel
    exact .inl (bind_succeeds hlist (bind_succeeds (mapError_eq_ok.mpr ht) ⟨_, rfl⟩))
  · rw [hc]
    exact .inr ⟨c, rfl⟩

/-- A model is rendered with the list that it keeps, or with one that is compiled now. -/
theorem outcome_of_renderModel (hs : s.WellFormed) (hnarrow : s.Narrow)
    (hsources : s.SourcesStand) (hmodel : model < s.count)
    (hkept : ∀ c, s.cached? model = some c → s.Bears (Command.mentionsOf c.list)) :
    (∃ f, (s.renderModel model).result = .ok f) ∨
      ∃ c, (s.renderModel model).result = .error (.cycle c) := by
  obtain ⟨kept, h⟩ := keptList?_isOk hmodel
  cases kept with
  | some list =>
      obtain ⟨f, hf⟩ := replayModel_succeeds hs hsources hmodel (hkept _ (cached?_of_keptList? h))
      rw [result_renderModel_of_kept h]
      exact .inl ⟨f, mapError_eq_ok.mpr hf⟩
  | none =>
      rw [result_renderModel_of_stale h]
      rcases outcome_of_compile hs hmodel with ⟨list, hlist⟩ | ⟨c, hc⟩
      · obtain ⟨t, ht⟩ := keep_eq_ok list hmodel
        have hrecompiled := recompiled_of_keep hlist ht
        have hcount : t.count = s.count := count_eq_of_wiring hrecompiled.wiring
        have hbears := bears_of_compile hs hnarrow hlist
        obtain ⟨f, hf⟩ := replayModel_succeeds (hs.of_wiring hrecompiled.wiring)
          (fun id entry hentry => hcount ▸ hsources id entry (hrecompiled.sources ▸ hentry))
          (hcount ▸ hmodel) (hbears.mono (.of_wiring hrecompiled.wiring))
        exact .inl (bind_succeeds hlist ⟨f, mapError_eq_ok.mpr (except_bind_eq_ok.mpr ⟨t, ht, hf⟩)⟩)
      · rw [hc]
        exact .inr ⟨c, rfl⟩

end Operations

end Scene

/-- A question about a node, which leaves the scene as it is. -/
inductive Lookup where
  | kind
  | value
  | baseValue
  | modifierCount
  | children
  | child (index : Nat)
  | parent
  | display
  | placement
  | working
  | position
  | source (index : InputIndex)
  | kept

/-- Looks something up, whatever the answer may be. -/
def Lookup.attempt (s : Scene) (id : NodeId) : Lookup → Except OutOfRange Unit
  | .kind => (s.kind id).map fun _ => ()
  | .value => (s.value id).map fun _ => ()
  | .baseValue => (s.baseValue id).map fun _ => ()
  | .modifierCount => (s.modifierCount id).map fun _ => ()
  | .children => (s.children id).map fun _ => ()
  | .child index => (s.child? id index).map fun _ => ()
  | .parent => (s.parent? id).map fun _ => ()
  | .display => (s.display? id).map fun _ => ()
  | .placement => (s.placement id).map fun _ => ()
  | .working => (s.working id).map fun _ => ()
  | .position => (s.pinPosition? id).map fun _ => ()
  | .source index => (s.source? id index).map fun _ => ()
  | .kept => (s.keptList? id).map fun _ => ()

theorem map_succeeds {ε α β : Type} {x : Except ε α} (h : ∃ a, x = .ok a) (g : α → β) :
    ∃ b, x.map g = .ok b := by
  obtain ⟨a, rfl⟩ := h
  exact ⟨g a, rfl⟩

/-- Every node can be asked everything, though it may have nothing to tell. -/
theorem Lookup.attempt_succeeds {s : Scene} {id : NodeId} (hs : s.WellFormed)
    (hid : id < s.count) (lookup : Lookup) : ∃ u, lookup.attempt s id = .ok u := by
  obtain ⟨n, hn⟩ := Scene.node_of_lt_count hid
  have hchildren : ∃ children, s.children id = .ok children := bind_succeeds hn ⟨_, rfl⟩
  cases lookup with
  | children => exact map_succeeds hchildren _
  | child index =>
      obtain ⟨children, hchildren⟩ := hchildren
      refine map_succeeds ?_ _
      exact bind_succeeds hchildren ⟨_, rfl⟩
  | baseValue =>
      refine map_succeeds (bind_succeeds hn ?_) _
      cases n with
      | calculated c => exact Scene.value_of_lt_count (hs.fits id _ hn).1.lt_count
      | _ => exact ⟨_, rfl⟩
  | modifierCount =>
      refine map_succeeds (bind_succeeds hn ?_) _
      cases n <;> exact ⟨_, rfl⟩
  | position => exact map_succeeds (Scene.pinPosition?_of_lt_count hs rfl hid) _
  | _ =>
      refine map_succeeds ?_ _
      exact bind_succeeds hn ⟨_, rfl⟩

namespace Session

open Scene

variable {σ τ : Session} {list : SceneList}

/-- A list that was compiled on the way to a session. -/
def Knows (σ : Session) (list : SceneList) : Prop :=
  ∃ ρ root, Reachable ρ ∧ Runs ρ σ ∧ (ρ.scene.compile root).result = .ok list

theorem Knows.bears (h : σ.Knows list) : σ.scene.Bears (Command.mentionsOf list) := by
  obtain ⟨ρ, root, hρ, hrun, hlist⟩ := h
  exact (bears_of_compile hρ.sound.wellFormed hρ.strict.links hlist).mono (hrun.develops hρ)

/-- What a model keeps was compiled on the way, for the model. -/
theorem Reachable.compiled (h : Reachable σ) {model : NodeId} {c : CachedList}
    (hc : σ.scene.cached? model = some c) :
    ∃ ρ, Reachable ρ ∧ Runs ρ σ ∧ (ρ.scene.compile model).result = .ok c.list := by
  obtain ⟨defaultSize, hrun⟩ := h
  induction hrun with
  | refl =>
      rw [cached?_start] at hc
      cases hc
  | tail hrun hnext ih =>
      rcases hnext.follows.kept model c hc with ⟨hold, -⟩ | ⟨-, -, hlist⟩
      · obtain ⟨ρ, hρ, hrun, hlist⟩ := ih hold
        exact ⟨ρ, hρ, hrun.tail hnext, hlist⟩
      · exact ⟨_, ⟨defaultSize, hrun⟩, .single hnext, hlist⟩

theorem Reachable.knows (h : Reachable σ) {model : NodeId} {c : CachedList}
    (hc : σ.scene.cached? model = some c) : σ.Knows c.list := by
  obtain ⟨ρ, hρ, hrun, hlist⟩ := h.compiled hc
  exact ⟨ρ, model, hρ, hrun, hlist⟩

theorem Strict.sourcesStand (h : Strict σ) : σ.scene.SourcesStand :=
  fun model entry hentry => (h.sources model entry hentry).lt_count

end Session

namespace Operation

open Scene Session

variable {σ : Session} {op : Operation}

/-- What handles cannot vouch for: a compile starts from a node that the scene has, a list was
compiled on the way, and a table can hold the index of a source. -/
def Supported (σ : Session) : Operation → Prop
  | .compile root => root < σ.scene.count
  | .renderList list _ => σ.Knows list
  | .setSource _ index _ => index.toNat + 1 < SourceTable.placeLimit
  | _ => True

theorem outcome_of_succeeds {ε α : Type} {x : Except ε α} (h : ∃ a, x = .ok a)
    (g : α → Outcome) : ∃ o, x.toOption.map g = some o := by
  obtain ⟨a, rfl⟩ := h
  exact ⟨g a, rfl⟩

theorem outcome_of_orCycle {α : Type} {s : Scene} {x : Except SceneFailure α}
    (h : (∃ a, x = .ok a) ∨ ∃ c, x = .error (.cycle c)) (g : α → Outcome) :
    ∃ o, Outcome.orCycle? s (x.map g) = some o := by
  rcases h with ⟨a, rfl⟩ | ⟨c, rfl⟩ <;> exact ⟨_, rfl⟩

theorem outcome?_succeeds (hσ : Reachable σ) (hallowed : op.Allowed σ)
    (hsupported : op.Supported σ) : ∃ o, op.outcome? σ.scene = some o := by
  have hs := hσ.sound.wellFormed
  have hcontainer := fun {id} (h : σ.HasContainer id) => hσ.sound.isContainer h
  have hplaced := fun {id} (h : σ.HasChild id) => hσ.sound.isPlaced h
  have hlt : ∀ h ∈ σ.handles, h.id < σ.scene.count := fun h hh => (hσ.sound.handles h hh).lt_count
  cases op with
  | scalar | input | calculated | part | model | pin | pinnedPart => exact ⟨_, rfl⟩
  | setValue id v =>
      exact outcome_of_succeeds (update_of_lt_count (hσ.sound.isNumber hallowed).lt_count _) _
  | setBaseValue id v =>
      exact outcome_of_succeeds (setBaseValue_succeeds hs (hlt _ hallowed) v) _
  | modify id links => exact outcome_of_succeeds (modify_succeeds (hlt _ hallowed.1) links) _
  | partAttribute id a =>
      exact outcome_of_succeeds (materialize_succeeds (hcontainer (.inl hallowed)).lt_count _ _ _) _
  | setPartAttribute id a v =>
      exact outcome_of_succeeds (setBaseOf_succeeds
        (materialize_succeeds (hcontainer (.inl hallowed)).lt_count _ _ _)
        (fun cell t => partAttribute_builds hs) v) _
  | addTransformation owner motion =>
      exact outcome_of_succeeds (addTransformation_succeeds (hcontainer hallowed).lt_count motion) _
  | readback owner r =>
      exact outcome_of_succeeds (readback_succeeds hs (hcontainer hallowed).lt_count r) _
  | pinCoordinate id axis =>
      exact outcome_of_succeeds (materialize_succeeds (hlt _ hallowed) _ _ _) _
  | setPinCoordinate id axis v =>
      exact outcome_of_succeeds (setBaseOf_succeeds (materialize_succeeds (hlt _ hallowed) _ _ _)
        (fun cell t => pinCoordinate_builds hs) v) _
  | pinReadback id axis =>
      exact outcome_of_succeeds (pinReadback_succeeds hs (hσ.sound.handles _ hallowed) axis) _
  | pinnedPartDimension id d =>
      exact outcome_of_succeeds (materialize_succeeds (hlt _ hallowed) _ _ _) _
  | setPinnedPartDimension id d v =>
      exact outcome_of_succeeds (setBaseOf_succeeds (materialize_succeeds (hlt _ hallowed) _ _ _)
        (fun cell t => pinnedPartDimension_builds hs) v) _
  | attachPin id slot origin =>
      exact outcome_of_succeeds (attachPin_succeeds (hlt _ hallowed) slot origin) _
  | pinOrigin id slot axis =>
      exact outcome_of_succeeds (pinOrigin?_succeeds (hlt _ hallowed) slot axis) _
  | pinTarget id slot axis =>
      exact outcome_of_succeeds (pinTarget?_succeeds (hlt _ hallowed) slot axis) _
  | setPinTarget id slot target =>
      exact outcome_of_succeeds (setPinTarget_succeeds hs (hlt _ hallowed) slot target) _
  | addChild parent child =>
      exact outcome_of_succeeds (addChild_succeeds hs (hcontainer hallowed.1).lt_count
        (hplaced hallowed.2).lt_count) _
  | addChildren parent children =>
      exact outcome_of_succeeds (addChildren_succeeds hs (hcontainer hallowed.1)
        fun child hchild => hplaced (hallowed.2 child hchild)) _
  | removeChild parent child =>
      exact outcome_of_succeeds (removeChild_succeeds (hcontainer hallowed.1).lt_count
        (hplaced hallowed.2).lt_count) _
  | setDisplay id handle =>
      exact outcome_of_succeeds (update_of_lt_count (hplaced hallowed).lt_count _) _
  | setSource id index source =>
      exact outcome_of_succeeds (setSource_succeeds (hlt _ hallowed.1) hsupported source) _
  | compile root => exact outcome_of_orCycle (outcome_of_compile hs hsupported) _
  | compileModel id => exact outcome_of_orCycle (outcome_of_compileModel hs (hlt _ hallowed)) _
  | renderModel id =>
      exact outcome_of_orCycle (outcome_of_renderModel hs hσ.strict.links hσ.strict.sourcesStand
        (hlt _ hallowed) fun c hc => (hσ.knows hc).bears) _
  | renderList list inputs =>
      exact outcome_of_succeeds
        (replay_succeeds hs hσ.strict.sourcesStand hsupported.bears _) _

end Operation

namespace Session

open Scene

variable {σ : Session}

theorem Runs.mem_handles (h : Runs σ τ) {handle : Handle} (hhandle : handle ∈ σ.handles) :
    handle ∈ τ.handles := by
  induction h with
  | refl => exact hhandle
  | tail _ hnext ih =>
      obtain ⟨op, -, hperform⟩ := hnext
      obtain ⟨o, -, rfl⟩ := perform_eq_some hperform
      exact List.mem_append_right _ ih

/-- All positions that a scene stores stand for nodes of the kinds that they are stored as; all
handles stay what they were given out as; and all nodes that lists name stay what the lists
take them for.  So every operation on handles of the scene has an outcome, and every lookup an
answer.  Only a table of sources may fail to hold an index.  That is out of range for the very
last index, and for no other. -/
theorem stays_in_range (hσ : Reachable σ) :
    (∀ id n role cell, σ.scene.node id = .ok n → n.held? role = some cell →
      cell < σ.scene.count ∧ σ.scene.Serves id n role cell) ∧
    (∀ ρ h, Runs ρ σ → h ∈ ρ.handles → h ∈ σ.handles ∧ σ.scene.HasKind h.Means h.id) ∧
    (∀ list, σ.Knows list → ∀ m ∈ Command.mentionsOf list,
      m.id < σ.scene.count ∧ σ.scene.HasKind m.kinds m.id) ∧
    (∀ model c, σ.scene.cached? model = some c → σ.Knows c.list) ∧
    (∀ op : Operation, op.Allowed σ → op.Supported σ → ∃ o, op.outcome? σ.scene = some o) ∧
    (∀ model index source e, (Operation.setSource model index source).Allowed σ →
      (σ.scene.setSource model index source = .error (.outOfRange e) ↔
        index + 1 = 0 ∧ e = ⟨0, index.toNat⟩)) ∧
    (∀ lookup : Lookup, ∀ h ∈ σ.handles, ∃ u, lookup.attempt σ.scene h.id = .ok u) := by
  refine ⟨fun id n role cell hn hheld => ?_, fun ρ h hrun hh => ?_, fun list hlist m hm => ?_,
    fun model c => hσ.knows, fun op => Operation.outcome?_succeeds hσ,
    fun model index source e h => setSource_out_of_range_iff (hσ.sound.handles _ h.1),
    fun lookup h hh => ?_⟩
  · have hserves := hσ.serves hn hheld
    exact ⟨hserves.lt_count, hserves⟩
  · have hh := hrun.mem_handles hh
    exact ⟨hh, hσ.strict.handles h hh⟩
  · have hmention := hlist.bears m hm
    exact ⟨hmention.lt_count, hmention⟩
  · exact lookup.attempt_succeeds hσ.sound.wellFormed (hσ.sound.handles h hh).lt_count

/-- A part with an attribute, which is compiled and then goes on to grow. -/
def outgrown : List Operation :=
  [.part, .partAttribute 3 .x, .modify 5 [⟨.add, some (.constant 2.0), rfl⟩]]

/-- The list that was compiled before can still be replayed. -/
theorem stays_in_range_outgrown : ∃ ρ σ list, Reachable σ ∧ Runs ρ σ ∧
    (ρ.scene.compile 3).result = .ok list ∧ ρ.scene.count < σ.scene.count ∧
    (∀ m ∈ Command.mentionsOf list, m.id < σ.scene.count) ∧
    ∃ o, (Operation.renderList list []).outcome? σ.scene = some o := by
  have hrun : ∃ ρ ∈ (start 100.0).runAll (outgrown.take 2), ∃ σ ∈ ρ.runAll (outgrown.drop 2),
      ∃ list ∈ (ρ.scene.compile 3).result.toOption, ρ.scene.count < σ.scene.count := by
    decide +kernel
  obtain ⟨ρ, hρ, σ, hσ, list, hlist, hgrown⟩ := hrun
  have hlist := toOption_eq_some.mp hlist
  have hreach : Reachable ρ := ⟨100.0, runs_of_runAll hρ⟩
  have hrun : Runs ρ σ := runs_of_runAll hσ
  have hknows : σ.Knows list := ⟨ρ, 3, hreach, hrun, hlist⟩
  obtain ⟨-, -, hlists, -, hoperations, -⟩ := stays_in_range (hreach.runs hrun)
  exact ⟨ρ, σ, list, hreach.runs hrun, hrun, hlist, hgrown,
    fun m hm => (hlists list hknows m hm).1, hoperations _ trivial hknows⟩

/-- A model, and a source for the last index there is. -/
theorem source_out_of_range : ∃ σ, (start 100.0).runAll [.model, .scalar 1.0] = some σ ∧
    (Operation.setSource 3 18446744073709551615 4).Allowed σ ∧
    σ.scene.setSource 3 18446744073709551615 4 =
      .error (.outOfRange ⟨0, 18446744073709551615⟩) ∧
    (Operation.setSource 3 18446744073709551615 4).outcome? σ.scene = none :=
  ⟨_, rfl, by decide, rfl, rfl⟩

end Session

end SceneGraph
