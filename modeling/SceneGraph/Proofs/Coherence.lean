import SceneGraph.Proofs.Assembly
import SceneGraph.Proofs.Forgetting
import SceneGraph.Proofs.Generation

/-!
A kept list is as good as a new one.

Two states of a session with the same number of bumps have the same wiring and compile alike.
Generations are numbers of bumps in a machine word, so they tell two states apart unless a
full turn of the word lies between them.
-/

namespace SceneGraph

/-- Numbers less than a full turn apart that agree in a machine word are equal. -/
theorem eq_of_ofNat_eq {a b : Nat} (h : UInt64.ofNat a = UInt64.ofNat b) (hle : a ≤ b)
    (hnear : b < a + UInt64.size) : a = b := by
  have hmod := congrArg UInt64.toNat h
  have hsize : UInt64.size = 18446744073709551616 := rfl
  simp only [UInt64.toNat_ofNat'] at hmod
  omega

namespace Node

theorem eq_of_cached?_mapModel {n : Node} {kept c : CachedList}
    (h : (n.mapModel fun state => { state with cached := some kept }).cached? = some c) :
    c = kept := by
  rw [cached?, model?_mapModel] at h
  cases hmodel : n.model? with
  | none => simp [hmodel] at h
  | some state => simpa [hmodel] using h.symm

theorem sources_mapModel {f : ModelState → ModelState} (hf : ∀ m, (f m).sources = m.sources)
    (n : Node) : (n.mapModel f).model?.map ModelState.sources =
      n.model?.map ModelState.sources := by
  simp [Function.comp_def, hf]

theorem forget_mapModel_cached (kept : Option CachedList) (n : Node) :
    (n.mapModel fun state => { state with cached := kept }).forget = n.forget := by
  cases n with
  | part p => cases h : p.model <;> simp [forget, mapModel, h]
  | _ => rfl

end Node

namespace Scene

variable {s t u : Scene} {model : NodeId}

@[simp] theorem result_reach {α : Type} (x : Except OutOfRange α) :
    (reach x).result = x.mapError .outOfRange :=
  rfl

/-- Replays a list with a model's own inputs. -/
def replayModel (s : Scene) (model : NodeId) (list : SceneList) : Except OutOfRange Frame := do
  let inputs ← s.suppliedInputs model
  s.replay list fun index => inputs.lookup index

/-- Compiles a model and replays its list, whatever the model keeps. -/
def renderAfresh (s : Scene) (model : NodeId) : Rendering Frame := do
  let list ← s.compile model
  reach (s.replayModel model list)

/-- A node that the scene does not have cannot be compiled. -/
theorem compile_of_count_le (h : s.count ≤ model) :
    (s.compile model).result = .error (.outOfRange ⟨s.count, model⟩) := by
  have hmem : model ∉ s.graph.nodes := by simpa [graph] using h
  have hrequire : (s.graph.require (s.graph.compileNested (s.graph.nestingBound - 1)) [] model
      (s.graph.nodes.length + 1) [] {} model).result = .error (.missing model) := by
    simp [RenderGraph.require, hmem]
  have hcompile : (s.graph.compile model).result = .error (.missing model) := by
    rw [RenderGraph.compile_eq_compileWith]
    simp [RenderGraph.compileWith, RenderGraph.resolve, hrequire, Except.bind]
  simp [compile, Traced.rename, hcompile, failure]

theorem keptList?_isOk (h : model < s.count) : ∃ kept, s.keptList? model = .ok kept := by
  obtain ⟨n, hn⟩ := node_of_lt_count h
  unfold keptList?
  rw [hn]
  exact ⟨_, rfl⟩

theorem keptList?_eq_ok {kept : Option SceneList} (h : s.keptList? model = .ok kept) :
    kept = ((s.cached? model).filter fun c => c.generation = s.generation).map
      CachedList.list := by
  obtain ⟨n, hn, hkept⟩ := except_bind_eq_ok.mp h
  cases hkept
  have hnode : s.nodes[model]? = some n := by
    unfold node at hn
    split at hn <;> simp_all
  simp [cached?, hnode, Node.cached?]

/-- A fresh kept list is kept by a model that was given it in this generation. -/
theorem cached?_of_keptList? {list : SceneList} (h : s.keptList? model = .ok (some list)) :
    s.cached? model = some ⟨s.generation, list⟩ := by
  have hkept := keptList?_eq_ok h
  cases hcached : s.cached? model with
  | none => simp [hcached] at hkept
  | some c =>
      rw [hcached, Option.filter_some] at hkept
      split at hkept
      · next hgeneration =>
          have hgeneration : c.generation = s.generation := by simpa using hgeneration
          simp only [Option.map_some, Option.some.injEq] at hkept
          rw [hkept, ← hgeneration]
      · simp at hkept

/-- A model was given the list of a compile to keep, and nothing else of note happened. -/
structure Recompiled (s : Scene) (model : NodeId) (t : Scene) : Prop where
  wiring : t.wiring = s.wiring
  generation : t.generation = s.generation
  sources : t.sourceTable = s.sourceTable
  others : ∀ id, id ≠ model → t.cached? id = s.cached? id
  kept : ∀ c, t.cached? model = some c →
    c.generation = s.generation ∧ (s.compile model).result = .ok c.list
  defaultSize : t.defaultSize = s.defaultSize

theorem Recompiled.then_alike (hst : Recompiled s model t) (htu : Alike t u) :
    Recompiled s model u where
  wiring := htu.wiring.trans hst.wiring
  generation := htu.generation.trans hst.generation
  sources := htu.sources.trans hst.sources
  others id hid := (congrFun htu.cached id).trans (hst.others id hid)
  kept c hc := hst.kept c (htu.cached ▸ hc)
  defaultSize := htu.defaultSize.trans hst.defaultSize

/-- The scene in which a model keeps a list of the present generation. -/
def keep (s : Scene) (model : NodeId) (list : SceneList) : Except OutOfRange Scene :=
  s.update model (Node.mapModel fun state => { state with cached := some ⟨s.generation, list⟩ })

theorem result_compileModel (s : Scene) (model : NodeId) :
    (s.compileModel model).result = (s.compile model).result >>= fun list =>
      (s.keep model list).mapError .outOfRange >>= fun t => .ok (list, t) := by
  simp only [compileModel, Traced.result_bind, Traced.result_report, result_reach,
    Traced.result_pure, keep]
  rfl

/-- What a compile of a model does when it succeeds. -/
theorem result_compileModel_eq_ok {list : SceneList}
    (h : (s.compileModel model).result = .ok (list, t)) :
    (s.compile model).result = .ok list ∧ s.keep model list = .ok t := by
  rw [result_compileModel] at h
  obtain ⟨list', hlist, h⟩ := except_bind_eq_ok.mp h
  obtain ⟨t', ht, h⟩ := except_bind_eq_ok.mp h
  cases h
  exact ⟨hlist, mapError_eq_ok.mp ht⟩

theorem compile_of_compileModel_cycle {c : Cycle NodeId}
    (h : (s.compileModel model).result = .error (.cycle c)) :
    (s.compile model).result = .error (.cycle c) := by
  rw [result_compileModel] at h
  cases hlist : (s.compile model).result with
  | error e => simpa [hlist, bind, Except.bind] using h
  | ok list =>
      rw [hlist] at h
      cases hkeep : s.keep model list <;> simp [hkeep, bind, Except.bind] at h

theorem recompiled_of_keep {list : SceneList} (hlist : (s.compile model).result = .ok list)
    (h : s.keep model list = .ok t) : Recompiled s model t := by
  have hwiring := wiring_update h (Node.wiring_mapModel _)
  have hsources := sourceTable_update h (Node.sources_mapModel fun _ => rfl)
  unfold keep update at h
  split at h <;> cases h
  refine ⟨hwiring, rfl, hsources, ?_, ?_, rfl⟩
  · intro id hid
    simp [cached?, Array.getElem?_modify, hid.symm]
  · intro c hc
    simp only [cached?, Array.getElem?_modify, if_true] at hc
    cases hn : s.nodes[model]? with
    | none => simp [hn] at hc
    | some n =>
        rw [hn, Option.map_some, Option.bind_some] at hc
        obtain rfl := Node.eq_of_cached?_mapModel hc
        exact ⟨rfl, hlist⟩

theorem forget_keep {list : SceneList} (h : s.keep model list = .ok t) :
    t.forget model = s.forget model := by
  unfold keep update at h
  split at h <;> cases h
  simp only [forget, mk.injEq, and_true]
  apply Array.ext_getElem?
  intro i
  simp only [Array.getElem?_modify]
  split
  · next hi =>
      cases s.nodes[i]? with
      | none => rfl
      | some n => simp [Node.forget_mapModel_cached]
  · rfl

/-- A model that keeps a fresh list has it replayed. -/
theorem result_renderModel_of_kept {list : SceneList}
    (h : s.keptList? model = .ok (some list)) :
    (s.renderModel model).result = (s.replayModel model list).mapError .outOfRange := by
  simp only [renderModel, currentList, h, Traced.result_bind, result_reach, mapError_ok,
    Except.bind, Traced.result_pure, replayModel]
  cases s.suppliedInputs model <;> rfl

/-- A model that keeps no fresh list is compiled first. -/
theorem result_renderModel_of_stale (h : s.keptList? model = .ok none) :
    (s.renderModel model).result = (s.compile model).result >>= fun list =>
      (s.keep model list >>= fun t => t.replayModel model list).mapError .outOfRange := by
  simp only [renderModel, currentList, h, Traced.result_bind, result_reach, mapError_ok,
    Except.bind, Traced.result_report, result_compileModel]
  cases (s.compile model).result with
  | error e => rfl
  | ok list =>
      cases hkeep : s.keep model list with
      | error e => simp [hkeep, bind, Except.bind]
      | ok t =>
          simp only [hkeep, replayModel, bind, Except.bind, mapError_ok]
          cases t.suppliedInputs model <;> rfl

theorem keep_eq_ok (list : SceneList) (h : model < s.count) :
    ∃ t, s.keep model list = .ok t := by
  unfold keep update
  rw [if_pos h]
  exact ⟨_, rfl⟩

/-- What a model keeps makes no difference to replaying a list with its sources. -/
theorem replayModel_forget (s : Scene) (model : NodeId) (list : SceneList) :
    (s.forget model).replayModel model list =
      (s.replayModel model list).map (Frame.forget model) := by
  unfold replayModel
  rw [suppliedInputs_forget]
  exact bind_eq_map_bind fun inputs => replay_forget model s list _

theorem map_mapError {ε φ α β : Type} (x : Except ε α) (f : ε → φ) (g : α → β) :
    (x.mapError f).map g = (x.map g).mapError f := by
  cases x <;> rfl

/-- Without a fresh list at hand, rendering amounts to compiling afresh. -/
theorem renderModel_of_stale (h : s.keptList? model = .ok none) :
    (s.renderModel model).result.map (Frame.forget model) =
      (s.renderAfresh model).result.map (Frame.forget model) := by
  have hcount : model < s.count := by
    obtain ⟨n, hn, -⟩ := except_bind_eq_ok.mp h
    exact lt_count_of_node hn
  have hafresh : (s.renderAfresh model).result = (s.compile model).result >>= fun list =>
      (s.replayModel model list).mapError .outOfRange :=
    Traced.result_bind _ _
  rw [result_renderModel_of_stale h, hafresh]
  cases (s.compile model).result with
  | error e => rfl
  | ok list =>
      obtain ⟨t, ht⟩ := keep_eq_ok list hcount
      have hforget : (t.replayModel model list).map (Frame.forget model) =
          (s.replayModel model list).map (Frame.forget model) := by
        rw [← replayModel_forget, forget_keep ht, replayModel_forget]
      change ((s.keep model list >>= fun t => t.replayModel model list).mapError
        SceneFailure.outOfRange).map (Frame.forget model) =
          ((s.replayModel model list).mapError SceneFailure.outOfRange).map (Frame.forget model)
      rw [ht, map_mapError, map_mapError, ← hforget]
      rfl

/-- Outside the scene both fail in the same way. -/
theorem renderModel_of_count_le (h : s.count ≤ model) :
    (s.renderModel model).result = (s.renderAfresh model).result := by
  have hnode : s.node model = .error ⟨s.count, model⟩ := by
    have hsize : s.nodes.size ≤ model := h
    simp [node, hsize]
  simp [renderModel, currentList, renderAfresh, keptList?, hnode, compile_of_count_le h,
    bind, Except.bind]

theorem replayModel_rewrites {list : SceneList} {f : Frame}
    (h : s.replayModel model list = .ok f) : Rewrites s f.scene := by
  obtain ⟨inputs, -, hf⟩ := except_bind_eq_ok.mp h
  exact replay_rewrites hf

end Scene

theorem Outcome.orCycle?_eq_some {s : Scene} {x : Except SceneFailure Outcome} {o : Outcome} :
    Outcome.orCycle? s x = some o ↔
      x = .ok o ∨ ∃ c, x = .error (.cycle c) ∧ o = .ofScene s := by
  match x with
  | .ok o' => simp [Outcome.orCycle?]
  | .error (.cycle c) => simp [Outcome.orCycle?, eq_comm]
  | .error (.outOfRange e) => simp [Outcome.orCycle?]
  | .error .tooDeep => simp [Outcome.orCycle?]

namespace Operation

open Scene

variable {s : Scene} {op : Operation} {o : Outcome}

/-- What an operation does to a scene that compiles depend on: it advances by what it creates
and relinks, or it gives one model a source or a list to keep. -/
inductive Progress (s : Scene) (op : Operation) (o : Outcome) : Prop where
  | advances (created : Nat) (h : Advances s created (op.relinks s) o.scene)
      (hcached : o.cached? = none)
  | registers (model : NodeId) (index : InputIndex) (source : NodeId)
      (hop : op = .setSource model index source)
      (h : s.setSource model index source = .ok o.scene) (hcached : o.cached? = none)
  | keeps (model : NodeId) (h : Recompiled s model o.scene) (hcount : o.scene.count = s.count)
      (hrelinks : op.relinks s = 0) (hcached : o.cached? = some model)

theorem Progress.of_alike (h : Alike s o.scene) (hrelinks : op.relinks s = 0)
    (hcached : o.cached? = none) : Progress s op o :=
  .advances 0 (hrelinks ▸ Advances.of_alike h) hcached

/-- An operation on a model that may compile it: the model gets a new list or keeps what it
has. -/
inductive Renews (s : Scene) (model : NodeId) (o : Outcome) : Prop where
  | alike (h : Alike s o.scene) (hcached : o.cached? = none) (hhandle : o.handle? = none)
  | recompiled (h : Recompiled s model o.scene) (hcount : o.scene.count = s.count)
      (hcached : o.cached? = some model) (hhandle : o.handle? = none)

namespace Renews

variable {model : NodeId}

theorem wiring (h : Renews s model o) : o.scene.wiring = s.wiring := by
  cases h with
  | alike h => exact h.wiring
  | recompiled h => exact h.wiring

theorem handle (h : Renews s model o) : o.handle? = none := by
  cases h with
  | alike _ _ hhandle => exact hhandle
  | recompiled _ _ _ hhandle => exact hhandle

theorem progress (h : Renews s model o) (hrelinks : op.relinks s = 0) : Progress s op o := by
  cases h with
  | alike h hcached => exact .of_alike h hrelinks hcached
  | recompiled h hcount hcached => exact .keeps model h hcount hrelinks hcached

end Renews

theorem outcome?_compile {root : NodeId} (h : outcome? s (.compile root) = some o) :
    o = .ofScene s := by
  rcases Outcome.orCycle?_eq_some.mp h with hok | ⟨c, -, rfl⟩
  · obtain ⟨list, -, rfl⟩ := except_map_eq_ok.mp hok
    rfl
  · rfl

theorem outcome?_compileModel {id : NodeId} (h : outcome? s (.compileModel id) = some o) :
    Renews s id o := by
  rcases Outcome.orCycle?_eq_some.mp h with hok | ⟨c, -, rfl⟩
  · obtain ⟨⟨list, t⟩, ht, rfl⟩ := except_map_eq_ok.mp hok
    obtain ⟨hlist, hkeep⟩ := result_compileModel_eq_ok ht
    exact .recompiled (recompiled_of_keep hlist hkeep) (count_update hkeep) rfl rfl
  · exact .alike (Alike.refl s) rfl rfl

theorem outcome?_renderModel {id : NodeId} (h : outcome? s (.renderModel id) = some o) :
    Renews s id o := by
  rcases Outcome.orCycle?_eq_some.mp h with hok | ⟨c, -, rfl⟩
  · obtain ⟨f, hf, rfl⟩ := except_map_eq_ok.mp hok
    cases hkept : s.keptList? id with
    | error e =>
        simp [Scene.renderModel, currentList, hkept, Except.bind] at hf
    | ok kept =>
        cases kept with
        | some list =>
            rw [result_renderModel_of_kept hkept, mapError_eq_ok] at hf
            exact .alike (replayModel_rewrites hf).alike (by simp [Except.toOption]) rfl
        | none =>
            rw [result_renderModel_of_stale hkept] at hf
            obtain ⟨list, hlist, hf⟩ := except_bind_eq_ok.mp hf
            obtain ⟨t, ht, hf⟩ := except_bind_eq_ok.mp (mapError_eq_ok.mp hf)
            have halike := (replayModel_rewrites hf).alike
            refine .recompiled ((recompiled_of_keep hlist ht).then_alike halike) ?_
              (by simp [Except.toOption]) rfl
            exact (count_eq_of_wiring halike.wiring).trans (count_update ht)
  · exact .alike (Alike.refl s) rfl rfl

/-- An operation that grows the scene, and no more. -/
theorem Progress.of_grows {α ε : Type} {scene : α → Scene} {x : Except ε α} {g : α → Outcome}
    (hx : s.Grows scene x) (h : x.toOption.map g = some o)
    (hg : ∀ a, (g a).scene = scene a ∧ (g a).cached? = none) (hrelinks : op.relinks s = 0) :
    Progress s op o := by
  obtain ⟨a, ha, rfl⟩ := map_toOption_eq_some.mp h
  obtain ⟨created, hcreated⟩ := hx a ha
  refine .advances created ?_ (hg a).2
  rwa [hrelinks, (hg a).1]

theorem outcome?_progress (h : op.outcome? s = some o) : Progress s op o := by
  cases op with
  | scalar v | input index | part | model | pin | pinnedPart =>
      cases h
      exact .advances 1 (Advances.push s rfl) rfl
  | calculated base =>
      cases h
      exact .advances 2 (s.calculated_advances base) rfl
  | setValue id v =>
      obtain ⟨t, ht, rfl⟩ := map_toOption_eq_some.mp h
      exact .of_alike (s.setValue_rewrites id v t ht).alike rfl rfl
  | setBaseValue id v =>
      obtain ⟨t, ht, rfl⟩ := map_toOption_eq_some.mp h
      exact .of_alike (s.setBaseValue_rewrites id v t ht).alike rfl rfl
  | modify id links => exact .of_grows (s.modify_grows id links) h (fun _ => ⟨rfl, rfl⟩) rfl
  | partAttribute id a =>
      exact .of_grows (s.partAttribute_grows id a) h (fun _ => ⟨rfl, rfl⟩) rfl
  | setPartAttribute id a v =>
      exact .of_grows (setBaseOf_grows v (s.partAttribute_grows id a)) h
        (fun _ => ⟨rfl, rfl⟩) rfl
  | addTransformation owner motion =>
      exact .of_grows (s.addTransformation_grows owner motion) h (fun _ => ⟨rfl, rfl⟩) rfl
  | readback owner r => exact .of_grows (s.readback_grows owner r) h (fun _ => ⟨rfl, rfl⟩) rfl
  | pinCoordinate id axis =>
      exact .of_grows (s.pinCoordinate_grows id axis) h (fun _ => ⟨rfl, rfl⟩) rfl
  | setPinCoordinate id axis v =>
      exact .of_grows (setBaseOf_grows v (s.pinCoordinate_grows id axis)) h
        (fun _ => ⟨rfl, rfl⟩) rfl
  | pinReadback id axis =>
      exact .of_grows (s.pinReadback_grows id axis) h (fun _ => ⟨rfl, rfl⟩) rfl
  | pinnedPartDimension id d =>
      exact .of_grows (s.pinnedPartDimension_grows id d) h (fun _ => ⟨rfl, rfl⟩) rfl
  | setPinnedPartDimension id d v =>
      exact .of_grows (setBaseOf_grows v (s.pinnedPartDimension_grows id d)) h
        (fun _ => ⟨rfl, rfl⟩) rfl
  | attachPin id slot origin =>
      exact .of_grows (s.attachPin_grows id slot origin) h (fun _ => ⟨rfl, rfl⟩) rfl
  | pinOrigin id slot axis =>
      obtain ⟨cell?, -, rfl⟩ := map_toOption_eq_some.mp h
      exact .of_alike (Alike.refl s) rfl rfl
  | pinTarget id slot axis =>
      exact .of_grows (s.pinTarget?_grows id slot axis) h (fun _ => ⟨rfl, rfl⟩) rfl
  | setPinTarget id slot target =>
      exact .of_grows (s.setPinTarget_grows id slot target) h (fun _ => ⟨rfl, rfl⟩) rfl
  | addChild parent child =>
      obtain ⟨t, ht, rfl⟩ := map_toOption_eq_some.mp h
      exact .advances 0 (addChild_advances ht) rfl
  | addChildren parent children =>
      obtain ⟨t, ht, rfl⟩ := map_toOption_eq_some.mp h
      exact .advances 0 (addChildren_advances ht) rfl
  | removeChild parent child =>
      obtain ⟨r, hr, rfl⟩ := map_toOption_eq_some.mp h
      exact .advances 0 (removeChild_advances hr) rfl
  | setDisplay id handle =>
      obtain ⟨t, ht, rfl⟩ := map_toOption_eq_some.mp h
      exact .of_alike (setDisplay_alike ht) rfl rfl
  | setSource id index source =>
      obtain ⟨t, ht, rfl⟩ := map_toOption_eq_some.mp h
      exact .registers id index source rfl ht rfl
  | compile root =>
      obtain rfl := outcome?_compile h
      exact .of_alike (Alike.refl s) rfl rfl
  | compileModel id => exact (outcome?_compileModel h).progress rfl
  | renderModel id => exact (outcome?_renderModel h).progress rfl
  | renderList list inputs =>
      obtain ⟨f, hf, rfl⟩ := map_toOption_eq_some.mp h
      exact .of_alike (replay_rewrites hf).alike rfl rfl

end Operation

namespace Session

open Scene (Recompiled)

variable {σ τ : Session}

/-- What one operation makes of bumps and kept lists. -/
structure Follows (σ τ : Session) : Prop where
  bumps : σ.bumps ≤ τ.bumps
  generation : τ.scene.generation = σ.scene.generation + UInt64.ofNat (τ.bumps - σ.bumps)
  wiring : τ.bumps = σ.bumps → τ.scene.wiring = σ.scene.wiring
  kept : ∀ model c, τ.scene.cached? model = some c →
    (σ.scene.cached? model = some c ∧ τ.cachedAt model = σ.cachedAt model) ∨
      (τ.cachedAt model = σ.bumps ∧ c.generation = σ.scene.generation ∧
        (σ.scene.compile model).result = .ok c.list)
  defaultSize : τ.scene.defaultSize = σ.scene.defaultSize

theorem Next.follows (h : Next σ τ) : Follows σ τ := by
  obtain ⟨op, -, hperform⟩ := h
  obtain ⟨o, ho, rfl⟩ := perform_eq_some hperform
  cases Operation.outcome?_progress ho with
  | advances created hadvances hcached =>
      have hbumps : (σ.follow op o).bumps = σ.bumps + (created + op.relinks σ.scene) := by
        simp [follow, hadvances.count]
      refine ⟨by omega, ?_, ?_, ?_, hadvances.defaultSize⟩
      · rw [hbumps, Nat.add_sub_cancel_left]
        exact hadvances.generation
      · intro hsame
        exact hadvances.wiring (by omega)
      · intro model c hc
        refine Or.inl ⟨?_, by simp [follow, hcached]⟩
        rw [← hadvances.cached]
        exact hc
  | registers model index source hop hsource hcached =>
      have hwiring := Scene.setSource_wiring hsource
      have hbumps : (σ.follow op o).bumps = σ.bumps := by
        simp [follow, hop, Operation.relinks, Scene.count_eq_of_wiring hwiring]
      refine ⟨by omega, ?_, fun _ => hwiring, fun id c hc => Or.inl ⟨?_, ?_⟩,
        Scene.setSource_defaultSize hsource⟩
      · rw [hbumps, Nat.sub_self]
        simpa [follow] using Scene.setSource_generation hsource
      · rw [← Scene.setSource_cached hsource]
        exact hc
      · simp [follow, hcached]
  | keeps model hrecompiled hcount hrelinks hcached =>
      have hbumps : (σ.follow op o).bumps = σ.bumps := by
        simp [follow, hcount, hrelinks]
      refine ⟨by omega, ?_, fun _ => hrecompiled.wiring, ?_, hrecompiled.defaultSize⟩
      · rw [hbumps, Nat.sub_self]
        simpa [follow] using hrecompiled.generation
      · intro id c hc
        by_cases hid : id = model
        · subst hid
          exact Or.inr ⟨by simp [follow, hcached], hrecompiled.kept c hc⟩
        · refine Or.inl ⟨?_, ?_⟩
          · rw [← hrecompiled.others id hid]
            exact hc
          · have hne : model ≠ id := fun heq => hid heq.symm
            simp [follow, hcached, hne]

theorem Runs.bumps_le (h : Runs σ τ) : σ.bumps ≤ τ.bumps := by
  induction h with
  | refl => exact Nat.le_refl _
  | tail _ hnext ih => exact Nat.le_trans ih hnext.follows.bumps

/-- Without a bump the wiring stays as it is, however long the run. -/
theorem Runs.wiring_eq (h : Runs σ τ) (hbumps : τ.bumps = σ.bumps) :
    τ.scene.wiring = σ.scene.wiring := by
  induction h with
  | refl => rfl
  | @tail ρ τ hrun hnext ih =>
      have hfirst := Runs.bumps_le hrun
      have hsecond := hnext.follows.bumps
      exact (hnext.follows.wiring (by omega)).trans (ih (by omega))

/-- The generation counts the bumps, and every kept list was compiled in a state of the run. -/
structure Coherent (σ : Session) : Prop where
  generation : σ.scene.generation = UInt64.ofNat σ.bumps
  kept : ∀ model c, σ.scene.cached? model = some c → ∃ ρ : Session, Runs ρ σ ∧
    ρ.bumps = σ.cachedAt model ∧ c.generation = UInt64.ofNat ρ.bumps ∧
      (ρ.scene.compile model).result = .ok c.list

/-- The default size is set once and for all. -/
theorem Runs.defaultSize (h : Runs σ τ) : τ.scene.defaultSize = σ.scene.defaultSize := by
  induction h with
  | refl => rfl
  | tail _ hnext ih => exact hnext.follows.defaultSize.trans ih

theorem cached?_start (defaultSize : Float) (model : NodeId) :
    (start defaultSize).scene.cached? model = none := by
  match model with
  | 0 | 1 | 2 => rfl
  | n + 3 => simp [start, Scene.empty, Scene.cached?]

theorem coherent_start (defaultSize : Float) : Coherent (start defaultSize) where
  generation := rfl
  kept model c hc := by
    rw [cached?_start] at hc
    cases hc

theorem Coherent.next (hσ : Coherent σ) (h : Next σ τ) : Coherent τ := by
  have hfollows := h.follows
  refine ⟨?_, ?_⟩
  · rw [hfollows.generation, hσ.generation, ← UInt64.ofNat_add,
      Nat.add_sub_cancel' hfollows.bumps]
  · intro model c hc
    rcases hfollows.kept model c hc with ⟨hold, hat⟩ | ⟨hat, hgeneration, hlist⟩
    · obtain ⟨ρ, hrun, hbumps, hrest⟩ := hσ.kept model c hold
      exact ⟨ρ, hrun.tail h, hbumps.trans hat.symm, hrest⟩
    · exact ⟨σ, .single h, hat.symm, hgeneration.trans hσ.generation, hlist⟩

theorem Reachable.coherent (h : Reachable σ) : Coherent σ := by
  obtain ⟨defaultSize, hrun⟩ := h
  induction hrun with
  | refl => exact coherent_start defaultSize
  | tail _ hnext ih => exact ih.next hnext

theorem Reachable.runs (h : Reachable σ) (hrun : Runs σ τ) : Reachable τ := by
  obtain ⟨defaultSize, hstart⟩ := h
  exact ⟨defaultSize, hstart.trans hrun⟩

/-- States of one generation compile alike, unless a full turn lies between them. -/
theorem compile_eq_of_generation_eq (hσ : Coherent σ) (hτ : Coherent τ) (hrun : Runs σ τ)
    (hgeneration : τ.scene.generation = σ.scene.generation)
    (hnear : τ.bumps < σ.bumps + UInt64.size) (root : NodeId) :
    τ.scene.compile root = σ.scene.compile root := by
  have hbumps : σ.bumps = τ.bumps := by
    refine eq_of_ofNat_eq ?_ (Runs.bumps_le hrun) hnear
    rw [← hσ.generation, ← hτ.generation, hgeneration]
  exact Scene.compile_eq_of_wiring (Runs.wiring_eq hrun hbumps.symm) root

/-- If a model keeps a list at all, then no full turn has gone by since it got it. -/
def Recent (σ : Session) (model : NodeId) : Prop :=
  (σ.scene.cached? model).isSome → σ.bumps < σ.cachedAt model + UInt64.size

/-- A fresh kept list is the list that a compile yields now. -/
theorem Coherent.compile_of_kept (hσ : Coherent σ) {model : NodeId} (hrecent : σ.Recent model)
    {list : SceneList} (h : σ.scene.keptList? model = .ok (some list)) :
    (σ.scene.compile model).result = .ok list := by
  have hcached := Scene.cached?_of_keptList? h
  have hnear := hrecent (by simp [hcached])
  obtain ⟨ρ, hrun, hat, hgeneration, hlist⟩ := hσ.kept model _ hcached
  have hbumps : ρ.bumps = σ.bumps := by
    refine eq_of_ofNat_eq ?_ (Runs.bumps_le hrun) (by omega)
    rw [← hgeneration, ← hσ.generation]
  rw [Scene.compile_eq_of_wiring (Runs.wiring_eq hrun hbumps.symm)]
  exact hlist

/-- Rendering a model amounts to compiling it afresh and replaying that. -/
theorem Coherent.renderModel_eq (hσ : Coherent σ) {model : NodeId} (hrecent : σ.Recent model) :
    (σ.scene.renderModel model).result.map (Frame.forget model) =
      (σ.scene.renderAfresh model).result.map (Frame.forget model) := by
  by_cases hcount : model < σ.scene.count
  · obtain ⟨kept, hkept⟩ := Scene.keptList?_isOk hcount
    cases kept with
    | none => exact Scene.renderModel_of_stale hkept
    | some list =>
        rw [Scene.result_renderModel_of_kept hkept, Scene.renderAfresh, Traced.result_bind,
          hσ.compile_of_kept hrecent hkept]
        rfl
  · rw [Scene.renderModel_of_count_le (Nat.le_of_not_lt hcount)]

/-- A model whose compile meets a cycle has no fresh list. -/
theorem Coherent.keptList?_of_cycle (hσ : Coherent σ) {model : NodeId}
    (hrecent : σ.Recent model) {c : Cycle NodeId}
    (h : (σ.scene.compile model).result = .error (.cycle c)) :
    σ.scene.keptList? model = .ok none := by
  have hcount : model < σ.scene.count := by
    by_contra hcount
    rw [Scene.compile_of_count_le (Nat.le_of_not_lt hcount)] at h
    cases h
  obtain ⟨kept, hkept⟩ := Scene.keptList?_isOk hcount
  cases kept with
  | none => exact hkept
  | some list =>
      rw [hσ.compile_of_kept hrecent hkept] at h
      cases h

theorem keptList?_of_renderModel_cycle {model : NodeId} {c : Cycle NodeId}
    (h : (σ.scene.renderModel model).result = .error (.cycle c)) :
    σ.scene.keptList? model = .ok none := by
  cases hkept : σ.scene.keptList? model with
  | error e =>
      simp [Scene.renderModel, Scene.currentList, hkept, Except.bind] at h
  | ok kept =>
      cases kept with
      | none => rfl
      | some list =>
          rw [Scene.result_renderModel_of_kept hkept] at h
          cases hreplay : σ.scene.replayModel model list <;> simp [hreplay] at h

/-- An operation that only reports something leaves the session as it is. -/
theorem follow_ofScene {op : Operation} (hrelinks : op.relinks σ.scene = 0) :
    σ.follow op (.ofScene σ.scene) = σ := by
  simp [follow, Outcome.ofScene, hrelinks]

/-- Kept lists never go stale unnoticed.  In every state that a run can reach: states of the
same generation compile alike; a fresh kept list is what a compile yields; rendering a model
shows and leaves what compiling it afresh would, except for what the model keeps; and where
a compile meets a cycle there was no fresh list, and nothing has changed. -/
theorem kept_lists_current (hσ : Reachable σ) :
    (∀ τ, Runs σ τ → τ.scene.generation = σ.scene.generation →
      τ.bumps < σ.bumps + UInt64.size → ∀ root, τ.scene.compile root = σ.scene.compile root) ∧
    ∀ model, σ.Recent model →
      (∀ list, σ.scene.keptList? model = .ok (some list) →
        (σ.scene.compile model).result = .ok list) ∧
      (σ.scene.renderModel model).result.map (Frame.forget model) =
        (σ.scene.renderAfresh model).result.map (Frame.forget model) ∧
      (∀ c, (σ.scene.compileModel model).result = .error (.cycle c) →
        σ.perform (.compileModel model) = some σ ∧ σ.scene.keptList? model = .ok none) ∧
      ∀ c, (σ.scene.renderModel model).result = .error (.cycle c) →
        σ.perform (.renderModel model) = some σ ∧ σ.scene.keptList? model = .ok none := by
  have hcoherent := hσ.coherent
  refine ⟨fun τ hrun hgeneration hnear root => ?_, fun model hrecent => ⟨fun list hkept => ?_,
    hcoherent.renderModel_eq hrecent, fun c hcycle => ⟨?_, ?_⟩, fun c hcycle => ⟨?_, ?_⟩⟩⟩
  · exact compile_eq_of_generation_eq hcoherent (hσ.runs hrun).coherent hrun hgeneration hnear
      root
  · exact hcoherent.compile_of_kept hrecent hkept
  · simp only [perform, Operation.outcome?, hcycle, Except.map, Outcome.orCycle?,
      Option.map_some]
    exact congrArg some (follow_ofScene rfl)
  · exact hcoherent.keptList?_of_cycle hrecent (Scene.compile_of_compileModel_cycle hcycle)
  · simp only [perform, Operation.outcome?, hcycle, Except.map, Outcome.orCycle?,
      Option.map_some]
    exact congrArg some (follow_ofScene rfl)
  · exact keptList?_of_renderModel_cycle hcycle

/-- A model with a part that has a pin; the pin is read back, and the model keeps a list. -/
def shownModel : List Operation :=
  [.model, .part, .setPartAttribute 4 .x 5.0, .pin, .addChild 3 4, .addChild 4 7,
    .pinReadback 7 .x, .compileModel 3]

/-- The part moves before the next frame. -/
def nextFrame : List Operation :=
  [.setBaseValue 6 2.5, .renderModel 3]

/-- The model comes to stand where its own read-back says. -/
def closeCycle : List Operation :=
  [.readback 3 .x, .partAttribute 3 .x, .modify 11 [⟨.add, some (.cell 9), rfl⟩]]

/-- Two states of one generation with a frame between them, and a cycle that closes later. -/
theorem kept_lists_current_shownModel : ∃ σ τ ρ list,
    (start 100.0).runAll shownModel = some σ ∧ σ.runAll nextFrame = some τ ∧
    τ.runAll closeCycle = some ρ ∧
    σ.scene.value 6 = .ok 5.0 ∧ τ.scene.value 6 = .ok 2.5 ∧
    (∀ root, τ.scene.compile root = σ.scene.compile root) ∧
    τ.scene.keptList? 3 = .ok (some list) ∧ (σ.scene.compile 3).result = .ok list ∧
    (τ.scene.renderModel 3).result.map (Frame.forget 3) =
      (τ.scene.renderAfresh 3).result.map (Frame.forget 3) ∧
    (ρ.scene.compileModel 3).result = .error (.cycle ⟨3, [3, 11, 12, 9, 3]⟩) ∧
    (ρ.scene.renderModel 3).result = .error (.cycle ⟨3, [3, 11, 12, 9, 3]⟩) ∧
    (ρ.scene.cached? 3).isSome ∧ ρ.scene.keptList? 3 = .ok none ∧
    ρ.perform (.compileModel 3) = some ρ ∧ ρ.perform (.renderModel 3) = some ρ := by
  have hrun : ∃ σ ∈ (start 100.0).runAll shownModel, ∃ τ ∈ σ.runAll nextFrame,
      ∃ ρ ∈ τ.runAll closeCycle, σ.scene.value 6 = .ok 5.0 ∧ τ.scene.value 6 = .ok 2.5 ∧
        τ.scene.generation = σ.scene.generation ∧ τ.bumps < σ.bumps + UInt64.size ∧
        τ.bumps < τ.cachedAt 3 + UInt64.size ∧ ρ.bumps < ρ.cachedAt 3 + UInt64.size ∧
        (∃ kept ∈ (τ.scene.keptList? 3).toOption, kept.isSome) ∧ (ρ.scene.cached? 3).isSome ∧
        (ρ.scene.compileModel 3).result.map (fun _ => ()) =
          .error (.cycle ⟨3, [3, 11, 12, 9, 3]⟩) ∧
        (ρ.scene.renderModel 3).result.map (fun _ => ()) =
          .error (.cycle ⟨3, [3, 11, 12, 9, 3]⟩) := by
    decide +kernel
  obtain ⟨σ, hσ, τ, hτ, ρ, hρ, hbefore, hafter, hgeneration, hnear, hrecent, hrecent',
    ⟨kept, hkept, hsome⟩, hcached, hcompile, hrender⟩ := hrun
  obtain ⟨list, rfl⟩ := Option.isSome_iff_exists.mp hsome
  have hkept := toOption_eq_some.mp hkept
  have hcompile := except_map_eq_error.mp hcompile
  have hrender := except_map_eq_error.mp hrender
  have hreach : Reachable σ := ⟨100.0, runs_of_runAll hσ⟩
  have hreach' : Reachable τ := hreach.runs (runs_of_runAll hτ)
  have halike := (kept_lists_current hreach).1 τ (runs_of_runAll hτ) hgeneration hnear
  obtain ⟨hlist, hsame, -⟩ := (kept_lists_current hreach').2 3 fun _ => hrecent
  obtain ⟨-, -, hcompileFails, hrenderFails⟩ :=
    (kept_lists_current (hreach'.runs (runs_of_runAll hρ))).2 3 fun _ => hrecent'
  obtain ⟨hperformCompile, hnone⟩ := hcompileFails _ hcompile
  exact ⟨σ, τ, ρ, list, hσ, hτ, hρ, hbefore, hafter, halike, hkept, halike 3 ▸ hlist list hkept,
    hsame, hcompile, hrender, hcached, hnone, hperformCompile, (hrenderFails _ hrender).1⟩

end Session

end SceneGraph
