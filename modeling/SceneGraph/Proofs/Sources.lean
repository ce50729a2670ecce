import SceneGraph.Proofs.Calls
import SceneGraph.Proofs.Coherence

/-!
The sources of models.

A model looks up the source of an input in a table of its own, which changes by one entry at a
time.  What a model supplies are the values of its sources (`Scene.suppliedInputs_lookup`), and
all sources are cells that the host has named (`Session.Reachable.sourced`).
-/

namespace SceneGraph

namespace SourceTable

theorem mem_insert {table : SourceTable} {index : InputIndex} {source : NodeId}
    {entry : InputIndex × NodeId}
    (h : entry ∈ table.insert index source) : entry ∈ table ∨ entry = (index, source) := by
  induction table with
  | nil => exact Or.inr (List.mem_singleton.mp h)
  | cons first table ih =>
      obtain ⟨i, cell⟩ := first
      rw [insert] at h
      split at h
      · exact (List.mem_cons.mp h).symm
      · split at h
        · rcases List.mem_cons.mp h with rfl | h
          · exact Or.inr rfl
          · exact Or.inl (List.mem_cons_of_mem _ h)
        · rcases List.mem_cons.mp h with rfl | h
          · exact Or.inl List.mem_cons_self
          · exact (ih h).imp_left (List.mem_cons_of_mem _)

theorem eq_insert_of_register {table table' : SourceTable} {index : InputIndex} {source : NodeId}
    (h : table.register index source = .ok table') : table' = table.insert index source := by
  unfold register at h
  dsimp only at h
  split at h
  · cases h
  · split at h <;> cases h
    rfl

end SourceTable

namespace Scene

variable {w s t : Scene} {model x : NodeId} {index : InputIndex}

theorem sourceTable_eq {n : Node} (hn : s.node model = .ok n) :
    s.sourceTable model = (n.model?.map ModelState.sources).getD [] := by
  rw [sourceTable, node_eq_ok.mp hn, Option.bind_some]

theorem source?_eq_ok {source : Option NodeId} (h : s.source? model index = .ok source) :
    (s.sourceTable model).source? index = source := by
  obtain ⟨n, hn, h⟩ := except_bind_eq_ok.mp h
  obtain rfl := Except.ok.inj h
  rw [sourceTable_eq hn]
  cases n.model? <;> rfl

/-- Registering a source changes one entry of the model's own table, and no other table. -/
theorem sourceTable_setSource {source : NodeId} (hmodel : s.HasKind (· = .model) model)
    (h : s.setSource model index source = .ok t) (id : NodeId) :
    t.sourceTable id =
      if id = model then (s.sourceTable model).insert index source else s.sourceTable id := by
  obtain ⟨n, hn, hkind⟩ := hmodel
  obtain ⟨state, hstate⟩ := Option.isSome_iff_exists.mp (n.kind_eq_model_iff.mp hkind)
  unfold setSource at h
  simp only [hn, mapError_ok, ok_bind, hstate] at h
  obtain ⟨sources, hsources, h⟩ := except_bind_eq_ok.mp h
  obtain rfl := SourceTable.eq_insert_of_register hsources
  rw [sourceTable, nodes_update (mapError_eq_ok.mp h)]
  by_cases hid : id = model
  · subst hid
    simp [sourceTable, node_eq_ok.mp hn, hstate]
  · simp [sourceTable, hid]

/-- Registering a source brings no other into the tables. -/
theorem mem_sourceTable_of_setSource {source id : NodeId} {entry : InputIndex × NodeId}
    (hmodel : s.HasKind (· = .model) model) (h : s.setSource model index source = .ok t)
    (hentry : entry ∈ t.sourceTable id) :
    entry ∈ s.sourceTable id ∨ entry = (index, source) := by
  rw [sourceTable_setSource hmodel h] at hentry
  split at hentry
  · next hid => exact hid ▸ SourceTable.mem_insert hentry
  · exact Or.inl hentry

/-- Looking up values instead of the cells that have them. -/
theorem lookup_values {table : SourceTable} {inputs : List (InputIndex × Float)}
    (h : (table.mapM fun entry => do return (entry.1, ← s.value entry.2)) = .ok inputs)
    (index : InputIndex) :
    match table.source? index with
    | none => inputs.lookup index = none
    | some cell => ∃ v, s.value cell = .ok v ∧ inputs.lookup index = some v := by
  induction table generalizing inputs with
  | nil =>
      cases h
      rfl
  | cons entry table ih =>
      obtain ⟨i, cell⟩ := entry
      rw [List.mapM_cons] at h
      obtain ⟨_, hfirst, h⟩ := except_bind_eq_ok.mp h
      obtain ⟨rest, hrest, h⟩ := except_bind_eq_ok.mp h
      obtain ⟨v, hv, hfirst⟩ := except_bind_eq_ok.mp hfirst
      cases h
      cases hfirst
      by_cases hi : index = i
      · subst hi
        simpa [SourceTable.source?] using hv
      · have hi : (index == i) = false := beq_false_of_ne hi
        simpa only [SourceTable.source?, List.lookup_cons, hi] using ih hrest

/-- What a model supplies are the values that its sources have. -/
theorem suppliedInputs_lookup {inputs : List (InputIndex × Float)}
    (h : s.suppliedInputs model = .ok inputs) (index : InputIndex) :
    match (s.sourceTable model).source? index with
    | none => inputs.lookup index = none
    | some cell => ∃ v, s.value cell = .ok v ∧ inputs.lookup index = some v := by
  obtain ⟨n, hn, h⟩ := except_bind_eq_ok.mp h
  rw [sourceTable_eq hn]
  exact lookup_values h index

end Scene

namespace Session

variable {σ τ : Session}

/-- Every source of a model is a cell that carries a number. -/
def Sourced (σ : Session) : Prop :=
  ∀ model, ∀ entry ∈ σ.scene.sourceTable model, σ.scene.IsNumber entry.2

theorem sourceTable_start (defaultSize : Float) (model : NodeId) :
    (start defaultSize).scene.sourceTable model = [] := by
  match model with
  | 0 | 1 | 2 => rfl
  | n + 3 => simp [start, Scene.empty, Scene.sourceTable]

theorem sourced_start (defaultSize : Float) : Sourced (start defaultSize) := by
  intro model entry hentry
  rw [sourceTable_start] at hentry
  cases hentry

/-- A source of a model was a source before, or the host has just named it. -/
theorem Next.sources (hsound : Sound σ) (h : Next σ τ) {model : NodeId}
    {entry : InputIndex × NodeId}
    (hentry : entry ∈ τ.scene.sourceTable model) :
    entry ∈ σ.scene.sourceTable model ∨ σ.HasValue entry.2 := by
  obtain ⟨op, hallowed, hperform⟩ := h
  obtain ⟨o, ho, rfl⟩ := perform_eq_some hperform
  cases Operation.outcome?_progress ho with
  | advances created hadvances =>
      rw [show (σ.follow op o).scene.sourceTable = _ from hadvances.sources] at hentry
      exact .inl hentry
  | keeps model hrecompiled =>
      rw [show (σ.follow op o).scene.sourceTable = _ from hrecompiled.sources] at hentry
      exact .inl hentry
  | registers model index source hop hsource =>
      subst hop
      have hmodel := hsound.handles _ hallowed.1
      rcases Scene.mem_sourceTable_of_setSource hmodel hsource hentry with hentry | rfl
      · exact .inl hentry
      · exact .inr hallowed.2

theorem Sourced.next (hσ : Sourced σ) (hsound : Sound σ) (h : Next σ τ) : Sourced τ := by
  intro model entry hentry
  refine Scene.HasKind.mono ?_ (hsound.next h).2
  exact (h.sources hsound hentry).elim (hσ model entry) hsound.isNumber

theorem Reachable.sourced (h : Reachable σ) : Sourced σ := by
  obtain ⟨defaultSize, hrun⟩ := h
  induction hrun with
  | refl => exact sourced_start defaultSize
  | tail hrun hnext ih => exact ih.next (Reachable.sound ⟨defaultSize, hrun⟩) hnext

end Session

end SceneGraph
