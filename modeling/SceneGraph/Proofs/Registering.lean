import SceneGraph.Proofs.Cells
import SceneGraph.Proofs.Seclusion

/-!
The sources of a model's inputs, in the course of a run.

A source stays registered until another one takes its place, so a table answers with the source
that was set last.  Every replay of a model's list is given the numbers that these sources have
when it begins.  Main statement: `Session.latest_sources_feed`.
-/

namespace SceneGraph

namespace Operation

variable {model : NodeId} {index : InputIndex}

/-- The source that an operation sets for an input of a model. -/
def sets? (model : NodeId) (index : InputIndex) : Operation → Option NodeId
  | .setSource m i source => if m = model ∧ i = index then some source else none
  | _ => none

/-- The source that was set last for an input of a model. -/
def latest? (model : NodeId) (index : InputIndex) (ops : List Operation) : Option NodeId :=
  ops.reverse.findSome? (sets? model index)

theorem latest?_cons (op : Operation) (ops : List Operation) :
    latest? model index (op :: ops) = (latest? model index ops).or (op.sets? model index) := by
  rw [latest?, List.reverse_cons, List.findSome?_append, List.findSome?_singleton]
  rfl

/-- The scene passes the frame while the operation replays a list. -/
inductive Passes (s : Scene) : Operation → Frame → Prop
  | renderList {list : SceneList} {inputs : List (Option Float)} {f : Frame}
      (h : Command.Passes (suppliedBy inputs) list { scene := s } f) :
      Passes s (.renderList list inputs) f
  | renderModel {model : NodeId} {list : SceneList} {t : Scene}
      {inputs : List (InputIndex × Float)} {f : Frame}
      (hlist : (s.currentList model).result = .ok (list, t))
      (hinputs : t.suppliedInputs model = .ok inputs)
      (h : Command.Passes (fun index => inputs.lookup index) list { scene := t } f) :
      Passes s (.renderModel model) f

end Operation

namespace Scene

variable {s t : Scene} {model source : NodeId} {index : InputIndex}

theorem source?_of_node {n : Node} (hn : s.node model = .ok n) (index : InputIndex) :
    s.source? model index = .ok ((s.sourceTable model).source? index) := by
  rw [source?, hn, ok_bind, sourceTable_eq hn]
  cases n.model? <;> rfl

/-- Registering a source replaces the one before, and discards no other. -/
theorem source?_setSource (hmodel : s.HasKind (· = .model) model)
    (h : s.setSource model index source = .ok t) (m : NodeId) (i : InputIndex) :
    t.source? m i =
      if m = model ∧ i = index then .ok (some source) else s.source? m i := by
  by_cases hm : m = model
  · subst hm
    obtain ⟨n, hn, hkind⟩ := hmodel
    obtain ⟨n', hn', -⟩ := node_of_wiring (setSource_wiring h) hn
    rw [source?_of_node hn', source?_of_node hn, sourceTable_setSource ⟨n, hn, hkind⟩ h,
      if_pos rfl, SourceTable.source?_insert]
    by_cases hi : i = index <;> simp [hi]
  · have hnode : t.node m = s.node m := by
      rcases setSource_cases h with rfl | ⟨_, _, -, -, hupdate⟩
      · rfl
      · exact node_update_of_ne hupdate hm
    rw [if_neg fun h => hm h.1, source?, source?, hnode]

/-- Under any index but the last, a source is registered if there is room for the table. -/
theorem setSource_replaces (hmodel : s.HasKind (· = .model) model) (hlast : index + 1 ≠ 0) :
    (∃ t, s.setSource model index source = .ok t ∧ ∀ m i, t.source? m i =
      if m = model ∧ i = index then .ok (some source) else s.source? m i) ∨
    SourceTable.placeLimit ≤ index.toNat + 1 ∧
      s.setSource model index source = .error .tooManyPlaces := by
  cases hset : s.setSource model index source with
  | ok t => exact .inl ⟨t, rfl, source?_setSource hmodel hset⟩
  | error e =>
      cases e with
      | outOfRange e => exact (hlast ((setSource_out_of_range_iff hmodel).mp hset).1).elim
      | tooManyPlaces =>
          refine .inr ⟨Nat.le_of_not_lt fun hindex => ?_, rfl⟩
          obtain ⟨t, ht⟩ := setSource_succeeds hmodel.lt_count hindex source
          exact nomatch ht.symm.trans hset

/-- Supplying a model reads each of its sources. -/
theorem suppliedInputs_values (hmodel : model < s.count) (hsources : s.SourcesStand) :
    ∃ supplied, s.suppliedInputs model = .ok supplied ∧ ∀ index,
      ((s.sourceTable model).source? index).mapM s.value = .ok (supplied.lookup index) := by
  obtain ⟨n, hn⟩ := node_of_lt_count hmodel
  obtain ⟨supplied, hsupplied⟩ := suppliedInputs_succeeds hn (hsources model)
  refine ⟨supplied, hsupplied, fun index => ?_⟩
  have hlookup := suppliedInputs_lookup hsupplied index
  cases hsource : (s.sourceTable model).source? index with
  | none =>
      rw [hsource] at hlookup
      rw [hlookup]
      rfl
  | some cell =>
      rw [hsource] at hlookup
      obtain ⟨v, hv, hlookup⟩ := hlookup
      rw [hlookup, Option.mapM_some, hv]
      rfl

end Scene

open Scene (Rewrites count_eq_of_wiring currentList_keeps)

theorem Command.Passes.rewrites {inputs : InputIndex → Option Float} {list : SceneList}
    {f g : Frame} (h : Passes inputs list f g) : Rewrites f.scene g.scene := by
  induction h with
  | writing _ hg => exact Frame.writes_rewrites hg
  | between _ hg => exact Command.runList_rewrites _ hg
  | within _ hf _ _ ih => exact (Command.runList_rewrites _ hf).trans ih

/-- No source is set in the middle of a replay. -/
theorem Operation.Passes.sources {s : Scene} {op : Operation} {f : Frame} (h : op.Passes s f) :
    f.scene.sourceTable = s.sourceTable ∧ f.scene.count = s.count := by
  cases h with
  | renderList h => exact ⟨h.rewrites.alike.sources, count_eq_of_wiring h.rewrites.alike.wiring⟩
  | renderModel hlist _ h =>
      obtain ⟨hwiring, hsources, -⟩ := currentList_keeps hlist
      exact ⟨h.rewrites.alike.sources.trans hsources,
        count_eq_of_wiring (h.rewrites.alike.wiring.trans hwiring)⟩

namespace Session

open Scene Operation

variable {σ τ : Session} {op : Operation} {o : Outcome} {model : NodeId} {index : InputIndex}

/-- An operation sets the source that it names, and leaves all others. -/
theorem outcome?_sets? (hσ : Reachable σ) (hallowed : op.Allowed σ)
    (h : op.outcome? σ.scene = some o) :
    (o.scene.sourceTable model).source? index =
      (op.sets? model index).or ((σ.scene.sourceTable model).source? index) := by
  by_cases hop : ∃ m i source, op = .setSource m i source
  · obtain ⟨m, i, source, rfl⟩ := hop
    obtain ⟨t, ht, rfl⟩ := map_toOption_eq_some.mp h
    have hmodel : σ.scene.HasKind (· = .model) m := hσ.sound.handles _ hallowed.1
    rw [show (Outcome.ofScene t).scene = t from rfl, sourceTable_setSource hmodel ht]
    by_cases hm : model = m
    · subst hm
      rw [if_pos rfl, SourceTable.source?_insert]
      by_cases hi : index = i <;> simp [sets?, hi, eq_comm]
    · simp [sets?, hm, Ne.symm hm]
  · have hnone : op.sets? model index = none := by
      cases op with
      | setSource m i source => exact (hop ⟨m, i, source, rfl⟩).elim
      | _ => rfl
    have hsources : o.scene.sourceTable = σ.scene.sourceTable := by
      cases outcome?_progress h with
      | advances _ hadvances => exact hadvances.sources
      | registers m i source hset => exact (hop ⟨m, i, source, hset⟩).elim
      | keeps _ hrecompiled => exact hrecompiled.sources
    rw [hnone, hsources, Option.none_or]

/-- After a run, a table has the sources that were set last in it, and else those from before. -/
theorem runAll_source? {ops : List Operation} (hσ : Reachable σ) (h : σ.runAll ops = some τ) :
    (τ.scene.sourceTable model).source? index =
      (latest? model index ops).or ((σ.scene.sourceTable model).source? index) := by
  induction ops generalizing σ with
  | nil =>
      obtain rfl := Option.some.inj h
      rfl
  | cons op ops ih =>
      obtain ⟨hallowed, υ, hυ, hrest⟩ := runAll_cons.mp h
      have hnext : Next σ υ := ⟨op, hallowed, hυ⟩
      obtain ⟨o, ho, rfl⟩ := perform_eq_some hυ
      rw [ih (hσ.runs (.single hnext)) hrest, latest?_cons, Option.or_assoc]
      exact congrArg _ (outcome?_sets? hσ hallowed ho)

theorem latest_source {defaultSize : Float} {ops : List Operation}
    (h : (start defaultSize).runAll ops = some σ) :
    (σ.scene.sourceTable model).source? index = latest? model index ops := by
  rw [runAll_source? ⟨defaultSize, .refl⟩ h, sourceTable_start]
  exact Option.or_none

/-- A scene with the sources of a run gives a model the numbers of those that were set last. -/
theorem supplied_latest {defaultSize : Float} {ops : List Operation} {s : Scene}
    (h : (start defaultSize).runAll ops = some σ) (hsources : s.sourceTable = σ.scene.sourceTable)
    (hcount : s.count = σ.scene.count) (hmodel : σ.HasModel model) :
    ∃ supplied, s.suppliedInputs model = .ok supplied ∧ ∀ index,
      (latest? model index ops).mapM s.value = .ok (supplied.lookup index) := by
  have hσ : Reachable σ := ⟨defaultSize, runs_of_runAll h⟩
  have hlt : model < s.count := hcount ▸ (hσ.sound.handles _ hmodel).lt_count
  have hstand : s.SourcesStand := by
    intro m entry hentry
    exact hcount ▸ hσ.strict.sourcesStand m entry (hsources ▸ hentry)
  obtain ⟨supplied, hsupplied, hvalues⟩ := suppliedInputs_values hlt hstand
  refine ⟨supplied, hsupplied, fun index => ?_⟩
  rw [← latest_source h, ← hsources]
  exact hvalues index

/-- In a run, any sources may be set for any models under any index but the last, as long as
there is room for the table.  Each input has the source that was set for it last, or none;
setting one more takes nothing away from any other input.  Whenever a replay comes to the list of
a model, the list is given the numbers that these sources have at that moment, each under its own
index. -/
theorem latest_sources_feed {defaultSize : Float} {ops : List Operation}
    (h : (start defaultSize).runAll ops = some σ) :
    (∀ model index, σ.HasModel model →
      σ.scene.source? model index = .ok (latest? model index ops)) ∧
    (∀ model index source, (Operation.setSource model index source).Allowed σ → index + 1 ≠ 0 →
      (∃ t, σ.scene.setSource model index source = .ok t ∧ ∀ m i, t.source? m i =
        if m = model ∧ i = index then .ok (some source) else σ.scene.source? m i) ∨
      SourceTable.placeLimit ≤ index.toNat + 1 ∧
        σ.scene.setSource model index source = .error .tooManyPlaces) ∧
    (∀ (op : Operation) f model, op.Passes σ.scene f → σ.HasModel model →
      ∃ given : InputIndex → Option Float,
        (∀ index, (latest? model index ops).mapM f.scene.value = .ok (given index)) ∧
        ∀ list, (Command.replayModel model list).run f = Command.runList given f list) ∧
    ∀ model list t, σ.HasModel model → (σ.scene.currentList model).result = .ok (list, t) →
      ∃ given : InputIndex → Option Float,
        (∀ index, (latest? model index ops).mapM σ.scene.value = .ok (given index)) ∧
        (σ.scene.renderModel model).result = (t.replay list given).mapError .outOfRange := by
  have hσ : Reachable σ := ⟨defaultSize, runs_of_runAll h⟩
  have hmodel : ∀ {model}, σ.HasModel model → σ.scene.HasKind (· = .model) model := by
    intro model h
    exact hσ.sound.handles _ h
  refine ⟨?_, ?_, ?_, ?_⟩
  · intro model index hhandle
    obtain ⟨n, hn, -⟩ := hmodel hhandle
    rw [source?_of_node hn, latest_source h]
  · intro model index source hallowed hlast
    exact setSource_replaces (hmodel hallowed.1) hlast
  · intro op f model hpasses hhandle
    obtain ⟨hsources, hcount⟩ := hpasses.sources
    obtain ⟨supplied, hsupplied, hvalues⟩ := supplied_latest h hsources hcount hhandle
    refine ⟨fun index => supplied.lookup index, hvalues, fun list => ?_⟩
    rw [Command.run, hsupplied, ok_bind]
  · intro model list t hhandle hlist
    obtain ⟨hwiring, hsources, hvalue⟩ := currentList_keeps hlist
    obtain ⟨supplied, hsupplied, hvalues⟩ :=
      supplied_latest h hsources (count_eq_of_wiring hwiring) hhandle
    refine ⟨fun index => supplied.lookup index, fun index => ?_, ?_⟩
    · rw [← hvalues index, show t.value = σ.scene.value from funext hvalue]
    · rw [Scene.renderModel, Traced.result_bind, hlist]
      simp [hsupplied, Except.bind]

/-- Two models, one in the other, with sources for sparse inputs, one of which is set twice. -/
def sparseSources : List Operation :=
  [.model, .model, .scalar 1.0, .scalar 2.0, .addChild 3 4, .setSource 3 700 5, .setSource 3 2 6,
    .setSource 4 2 5, .setSource 3 700 6]

theorem latest_sources_feed_sparseSources : ∃ σ, (start 100.0).runAll sparseSources = some σ ∧
    σ.scene.source? 3 700 = .ok (some 6) ∧ σ.scene.source? 4 2 = .ok (some 5) ∧
    σ.scene.source? 4 700 = .ok none ∧
    (∃ t, σ.scene.setSource 3 4294967296 5 = .ok t ∧ t.source? 3 2 = .ok (some 6)) ∧
    (∃ given : InputIndex → Option Float, given 2 = some 1.0 ∧ given 700 = none ∧ ∀ list,
      (Command.replayModel 4 list).run { scene := σ.scene } =
        Command.runList given { scene := σ.scene } list) ∧
    ∃ list, ∃ t : Scene, ∃ given : InputIndex → Option Float, given 2 = some 2.0 ∧
      given 700 = some 2.0 ∧
      (σ.scene.renderModel 3).result = (t.replay list given).mapError .outOfRange := by
  have hrun : ∃ σ ∈ (start 100.0).runAll sparseSources,
      ∃ current ∈ (σ.scene.currentList 3).result.toOption,
        σ.HasModel 3 ∧ σ.HasModel 4 ∧ (Operation.setSource 3 4294967296 5).Allowed σ ∧
        σ.scene.value 5 = .ok 1.0 ∧ σ.scene.value 6 = .ok 2.0 := by
    decide +kernel
  obtain ⟨σ, hσ, ⟨list, t⟩, hlist, houter, hinner, hallowed, h5, h6⟩ := hrun
  obtain ⟨hsource, hset, hreplay, hrender⟩ := latest_sources_feed hσ
  obtain ⟨t', ht', hsources⟩ :=
    (hset 3 4294967296 5 hallowed (by decide)).resolve_right fun h => absurd h.1 (by decide)
  have hstart : (Operation.renderList ⟨4, [], []⟩ []).Passes σ.scene { scene := σ.scene } :=
    .renderList (.writing List.prefix_rfl rfl)
  obtain ⟨given, hgiven, hrun⟩ := hreplay _ _ 4 hstart hinner
  obtain ⟨given', hgiven', hresult⟩ := hrender 3 list t houter (toOption_eq_some.mp hlist)
  have hvalue : ∀ {cell v}, σ.scene.value cell = .ok v →
      (some cell).mapM σ.scene.value = .ok (some v) := fun h => by rw [Option.mapM_some, h]; rfl
  refine ⟨σ, hσ, hsource 3 700 houter, hsource 4 2 hinner, hsource 4 700 hinner,
    ⟨t', ht', (hsources 3 2).trans (hsource 3 2 houter)⟩, ⟨given, ?_, ?_, hrun⟩,
    list, t, given', ?_, ?_, hresult⟩
  · exact Except.ok.inj ((hgiven 2).symm.trans (hvalue h5))
  · exact (Except.ok.inj (hgiven 700)).symm
  · exact Except.ok.inj ((hgiven' 2).symm.trans (hvalue h6))
  · exact Except.ok.inj ((hgiven' 700).symm.trans (hvalue h6))

/-- The last index there is cannot be registered: the model has a source, and is to get another
one under that index. -/
theorem last_index_not_registered : ∃ σ,
    (start 100.0).runAll [.model, .scalar 1.0, .setSource 3 0 4] = some σ ∧
    σ.scene.source? 3 0 = .ok (some 4) ∧
    (Operation.setSource 3 18446744073709551615 4).Allowed σ ∧
    (∀ t, σ.scene.setSource 3 18446744073709551615 4 ≠ .ok t) ∧
    (Operation.setSource 3 18446744073709551615 4).outcome? σ.scene = none :=
  ⟨_, rfl, rfl, by decide, nofun, rfl⟩

end Session

end SceneGraph
