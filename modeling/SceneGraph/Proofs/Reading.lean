import SceneGraph.Proofs.Untouched

/-!
What a model's list reads from its inputs.

Inputs are cells that all lists of a frame share.  When a model's list begins, the inputs that
it holds get the values of the model's sources, and no step writes an input.  So an input keeps
its value until some list within is replayed that holds it as well and has a source for it.  This
goes for old lists, too: later operations leave an input what it is
(`Session.reads_own_source`).
-/

namespace SceneGraph

namespace Scene

variable {w s t : Scene} {x : NodeId} {index : InputIndex} {step : Step}

/-- Replaying the list of a model writes the input: the list holds it, and the model has a
source for it. -/
def Feeds (s : Scene) (l : SceneList) (b : InputBinding NodeId) : Prop :=
  b ∈ l.inputs ∧ ((s.sourceTable l.root).source? b.index).isSome = true

theorem Rewrites.feeds_eq (h : Rewrites s t) : t.Feeds = s.Feeds := by
  unfold Feeds
  rw [h.alike.sources]

/-- No step that is made for a node writes an input. -/
theorem Emits.not_writes_input (hw : w.WellFormed) (hnarrow : w.Narrow) {y : NodeId}
    (h : Emits w y step) {v : Float} (hx : w.node x = .ok (.input v index)) (hs : s.WellFormed)
    (hdevelops : Develops w s) : ¬ step.Writes s x := by
  obtain ⟨_, hx', hinput⟩ := hdevelops x _ hx
  obtain ⟨v', rfl⟩ := hinput.input
  rintro (hcomputed | ⟨shown, n, -, hn, hshows⟩)
  · have hkind := Step.computed_isKind (h.bears hw hnarrow) hcomputed
    exact (hkind.of_kind (.of_node hx rfl)).elim nofun nofun
  · obtain ⟨_, hscalar⟩ := hs.scalar_of_shows hn hshows
    cases node_unique hx' hscalar

end Scene

instance (s : Scene) (l : SceneList) (b : InputBinding NodeId) : Decidable (s.Feeds l b) :=
  inferInstanceAs (Decidable (_ ∧ _))

open Scene (writes_supplied inputIndex_eq_some)

/-- The step that a command is. -/
def Command.step? : Command → Option Step
  | .step s => some s
  | .replayModel .. => none

theorem Command.step?_eq_some {c : Command} {step : Step} :
    c.step? = some step ↔ c = .step step := by
  cases c <;> simp [step?]

section Inputs

variable {w t : Scene} {f f' : Frame} {x : NodeId} {index : InputIndex} {v : Float}

/-- At the beginning of a model's list, the inputs that it feeds get the values that the
model's sources have, and all others stay as they are. -/
theorem Command.replayModel_run {isolated : List NodeId} {model : NodeId} {list : SceneList}
    (hlist : w.graph.Makes isolated model list) (hf : w.Develops f.scene)
    (hx : w.node x = .ok (.input v index)) (h : (replayModel model list).run f = .ok f') :
    ∃ f₁, (∀ commands, (replayModel model { list with commands }).run f = runAll f₁ commands) ∧
      f.scene.Rewrites f₁.scene ∧
      (∀ cell, ⟨x, index⟩ ∈ list.inputs → (f.scene.sourceTable model).source? index = some cell →
        f₁.scene.value x = f.scene.value cell) ∧
      (¬ f.scene.Feeds list ⟨x, index⟩ → f₁.scene.value x = f.scene.value x) := by
  obtain ⟨inputs, hinputs, -⟩ := except_bind_eq_ok.mp h
  obtain ⟨root, commands, bindings⟩ := list
  obtain rfl : root = model := hlist.root_eq
  have hnumber : ∀ b ∈ bindings, f.scene.IsNumber b.node := by
    intro b hb
    obtain ⟨v, hv⟩ := inputIndex_eq_some.mp (hlist.mem_inputs.mp hb).2
    exact Scene.HasKind.mono (.of_node hv trivial) hf
  obtain ⟨f₁, hwrites, -, hbound, hother⟩ :=
    writes_supplied hlist.inputs_nodup hnumber (fun i => inputs.lookup i) f rfl
  have hlookup := Scene.suppliedInputs_lookup hinputs index
  refine ⟨f₁, fun commands => ?_, Frame.writes_rewrites hwrites, fun cell hb hcell => ?_,
    fun hfeeds => ?_⟩
  · simp only [run, hinputs, runList, ok_bind]
    rw [hwrites, ok_bind]
  · rw [hcell] at hlookup
    obtain ⟨v, hv, hlookup⟩ := hlookup
    rw [hbound _ hb, hlookup, hv]
    rfl
  · by_cases hb : ⟨x, index⟩ ∈ bindings
    · have hnone : (f.scene.sourceTable root).source? index = none :=
        Option.not_isSome_iff_eq_none.mp fun hsome => hfeeds ⟨hb, hsome⟩
      rw [hnone] at hlookup
      rw [hbound _ hb, hlookup]
      rfl
    · refine hother x fun hmem => hb ?_
      obtain ⟨⟨x, i⟩, hbinding, rfl⟩ := List.mem_map.mp hmem
      -- An input has one index only.
      obtain ⟨v', hv'⟩ := inputIndex_eq_some.mp (hlist.mem_inputs.mp hbinding).2
      obtain ⟨-, rfl⟩ := Node.input.inj (Scene.node_unique hv' hx)
      exact hbinding

mutual

/-- An input keeps its number while no list is replayed that feeds it. -/
theorem Command.value_run (hw : w.WellFormed) (hnarrow : w.Narrow) (ht : t.WellFormed)
    (hwt : w.Develops t) (hx : w.node x = .ok (.input v index)) : (c : Command) → w.Has c →
    {f f' : Frame} → f.scene.wiring = t.wiring → (∀ l ∈ c.lists, ¬ f.scene.Feeds l ⟨x, index⟩) →
    c.run f = .ok f' → f'.scene.value x = f.scene.value x
  | .step _, ⟨_, hstep⟩, _, _, hf, _, h =>
      (Scene.change_confined (Step.scene_run h)).values x
        (hstep.not_writes_input hw hnarrow hx (ht.of_wiring hf) (hwt.trans (.of_wiring hf)))
  | .replayModel model ⟨root, commands, inputs⟩, ⟨_, hlist⟩, f, f', hf, hfeeds, h => by
      obtain rfl : root = model := hlist.root_eq
      obtain ⟨f₁, hrun, hrewrites, -, hkept⟩ :=
        replayModel_run hlist (hwt.trans (.of_wiring hf)) hx h
      rw [hrun commands] at h
      have hwithin : ∀ l ∈ listsIn commands, ¬ f₁.scene.Feeds l ⟨x, index⟩ := by
        rw [hrewrites.feeds_eq]
        exact fun l hl => hfeeds l (List.mem_cons_of_mem _ hl)
      rw [value_runAll hw hnarrow ht hwt hx commands (Scene.has_of_makes hlist)
        (hrewrites.alike.wiring.trans hf) hwithin h]
      exact hkept (hfeeds _ List.mem_cons_self)

theorem Command.value_runAll (hw : w.WellFormed) (hnarrow : w.Narrow) (ht : t.WellFormed)
    (hwt : w.Develops t) (hx : w.node x = .ok (.input v index)) : (cs : List Command) →
    (∀ c ∈ cs, w.Has c) → {f f' : Frame} → f.scene.wiring = t.wiring →
    (∀ l ∈ listsIn cs, ¬ f.scene.Feeds l ⟨x, index⟩) → runAll f cs = .ok f' →
    f'.scene.value x = f.scene.value x
  | [], _, _, _, _, _, h => by
      cases h
      rfl
  | c :: cs, hhas, f, f', hf, hfeeds, h => by
      rw [List.forall_mem_cons] at hhas
      rw [listsIn, List.forall_mem_append] at hfeeds
      obtain ⟨f₁, hc, h⟩ := except_bind_eq_ok.mp h
      have hrewrites := Command.run_rewrites c hc
      have hrest : ∀ l ∈ listsIn cs, ¬ f₁.scene.Feeds l ⟨x, index⟩ := by
        rw [hrewrites.feeds_eq]
        exact hfeeds.2
      rw [value_runAll hw hnarrow ht hwt hx cs hhas.2 (hrewrites.alike.wiring.trans hf) hrest h,
        value_run hw hnarrow ht hwt hx c hhas.1 hf hfeeds.1 hc]

end

end Inputs

namespace Session

variable {σ τ : Session}

/-- Commands of a model's list read the model's own inputs, up to lists within that feed the
same input.  Take the list that a compile of a scene made for a model, and in the list an input
that the model has a source for.  Run the list in whatever later state.  Whenever the run is
about to execute one of the list's commands, and none of the lists replayed by the commands before
it feeds the input, the input has the value that the source had when the run began. -/
theorem reads_own_source (hσ : Reachable σ) {isolated : List NodeId} {model : NodeId}
    {list : SceneList} (hlist : σ.scene.graph.Makes isolated model list) (hlater : Runs σ τ)
    {f f' : Frame} (hf : f.scene.wiring = τ.scene.wiring)
    (hrun : (Command.replayModel model list).run f = .ok f') {x : NodeId} {index : InputIndex}
    (hx : ⟨x, index⟩ ∈ list.inputs) {cell : NodeId}
    (hsource : f.scene.source? model index = .ok (some cell)) {before after : List Command}
    (hcommands : list.commands = before ++ after)
    (hothers : ∀ l ∈ Command.listsIn before, ¬ f.scene.Feeds l ⟨x, index⟩) :
    ∃ f₁, (Command.replayModel model { list with commands := before }).run f = .ok f₁ ∧
      Command.runAll f₁ after = .ok f' ∧ f₁.scene.value x = f.scene.value cell := by
  obtain ⟨v, hv⟩ := inputIndex_eq_some.mp (hlist.mem_inputs.mp hx).2
  have hdevelops := hlater.develops hσ
  obtain ⟨f₀, hcommandsRun, hrewrites, hfed, -⟩ :=
    Command.replayModel_run hlist (hdevelops.trans (.of_wiring hf)) hv hrun
  have hrun := (hcommandsRun list.commands).symm.trans hrun
  rw [hcommands, Command.runAll_append] at hrun
  obtain ⟨f₁, hbefore, hafter⟩ := except_bind_eq_ok.mp hrun
  have hkept : f₁.scene.value x = f₀.scene.value x := by
    refine Command.value_runAll hσ.sound.wellFormed hσ.strict.links
      (hσ.runs hlater).sound.wellFormed hdevelops hv before (fun c hc => ?_)
      (hrewrites.alike.wiring.trans hf) ?_ hbefore
    · exact Scene.has_of_makes hlist c (hcommands ▸ List.mem_append_left after hc)
    · rw [hrewrites.feeds_eq]
      exact hothers
  exact ⟨f₁, (hcommandsRun before).trans hbefore, hafter,
    hkept.trans (hfed cell hx (Scene.source?_eq_ok hsource))⟩

/-- A replay of the list of a model. -/
structure ModelRun where
  model : NodeId
  list : SceneList
  /-- The frame in which the list is replayed. -/
  frame : Frame
  /-- The frame after some of the list's commands. -/
  partway : Frame
  /-- The frame after all of them. -/
  after : Frame

/-- What a command of a root's list does later on if it replays the list of a model, with a look
at the frame after some commands of that list. -/
def modelRun? (σ τ : Session) (root : NodeId) (position executed : Nat) : Option ModelRun := do
  let outer ← (σ.scene.compile root).result.toOption
  let frame ← (Command.runAll { scene := τ.scene } (outer.commands.take position)).toOption
  match outer.commands[position]? with
  | some (.replayModel model list) =>
    let part := { list with commands := list.commands.take executed }
    let partway ← ((Command.replayModel model part).run frame).toOption
    let after ← ((Command.replayModel model list).run frame).toOption
    some ⟨model, list, frame, partway, after⟩
  | _ => none

theorem modelRun?_eq_some {σ τ : Session} {root : NodeId} {position executed : Nat}
    {r : ModelRun} (h : σ.modelRun? τ root position executed = some r) :
    (∃ isolated, σ.scene.graph.Makes isolated r.model r.list) ∧
      r.frame.scene.wiring = τ.scene.wiring ∧
      (Command.replayModel r.model { r.list with commands := r.list.commands.take executed }).run
        r.frame = .ok r.partway ∧
      (Command.replayModel r.model r.list).run r.frame = .ok r.after := by
  obtain ⟨outer, houter, h⟩ := Option.bind_eq_some_iff.mp h
  obtain ⟨frame, hframe, h⟩ := Option.bind_eq_some_iff.mp h
  split at h
  · next model list hcommand =>
      obtain ⟨partway, hpartway, h⟩ := Option.bind_eq_some_iff.mp h
      obtain ⟨after, hafter, h⟩ := Option.bind_eq_some_iff.mp h
      obtain rfl := Option.some.inj h
      refine ⟨?_, ?_, toOption_eq_some.mp hpartway, toOption_eq_some.mp hafter⟩
      · exact Scene.has_of_makes (Scene.makes_of_compile (toOption_eq_some.mp houter)) _
          (List.mem_of_getElem? hcommand)
      · exact (Command.runAll_rewrites _ (toOption_eq_some.mp hframe)).alike.wiring
  · cases h

/-- A model with a model and a pin, and a pin in the inner model.  Both pins read one input,
and the outer model has a source for it. -/
def sharedInput : List Operation :=
  [.model, .model, .addChild 3 4, .input 0, .pin, .pinCoordinate 6 .x,
    .modify 8 [⟨.add, some (.cell 5), rfl⟩], .pin, .pinCoordinate 10 .x,
    .modify 12 [⟨.add, some (.cell 5), rfl⟩], .addChild 4 6, .addChild 3 10, .scalar 5.0,
    .scalar 2.0, .setSource 3 0 14]

/-- The inner model loses its pin, and the other pin gets another link. -/
def regrouped : List Operation :=
  [.removeChild 4 6, .modify 12 [⟨.add, some (.cell 15), rfl⟩]]

/-- The inner model leaves the input alone, in a replay of the old list as well. -/
theorem reads_own_source_sharedInput : ∃ σ τ, ∃ r : ModelRun, Reachable σ ∧
    (∃ isolated, σ.scene.graph.Makes isolated r.model r.list) ∧
    σ.runAll regrouped = some τ ∧ r.frame.scene.wiring = τ.scene.wiring ∧
    σ.scene.count < τ.scene.count ∧ r.frame.scene.source? r.model 0 = .ok (some 14) ∧
    (∀ l ∈ Command.listsIn (r.list.commands.take 5), ¬ r.frame.scene.Feeds l ⟨5, 0⟩) ∧
    (Command.listsIn (r.list.commands.take 5)).length = 1 ∧
    ∃ f₁, Command.runAll f₁ (r.list.commands.drop 5) = .ok r.after ∧
      f₁.scene.value 5 = r.frame.scene.value 14 := by
  have hrun : ∃ σ ∈ (start 100.0).runAll sharedInput, ∃ τ ∈ σ.runAll regrouped,
      ∃ r ∈ σ.modelRun? τ 3 3 5, σ.scene.count < τ.scene.count ∧ ⟨5, 0⟩ ∈ r.list.inputs ∧
        r.frame.scene.source? r.model 0 = .ok (some 14) ∧
        (∀ l ∈ Command.listsIn (r.list.commands.take 5), ¬ r.frame.scene.Feeds l ⟨5, 0⟩) ∧
        (Command.listsIn (r.list.commands.take 5)).length = 1 := by
    decide +kernel
  obtain ⟨σ, hσ, τ, hτ, r, hr, hgrown, hbound, hsource, hothers, hlists⟩ := hrun
  obtain ⟨⟨isolated, hlist⟩, hwiring, -, hafter⟩ := modelRun?_eq_some hr
  have hreach : Reachable σ := ⟨100.0, runs_of_runAll hσ⟩
  obtain ⟨f₁, -, hrest, hvalue⟩ := reads_own_source hreach hlist (runs_of_runAll hτ) hwiring
    hafter hbound hsource (List.take_append_drop 5 _).symm hothers
  exact ⟨σ, τ, r, hreach, ⟨isolated, hlist⟩, hτ, hwiring, hgrown, hsource, hothers, hlists, f₁,
    hrest, hvalue⟩

/-- With a source of its own, the inner model overwrites the input, and the command of the outer
model that reads it afterwards finds the value of the inner model's source. -/
theorem reads_foreign_source : ∃ σ, ∃ r : ModelRun, Reachable σ ∧
    σ.modelRun? σ 3 3 5 = some r ∧ (∃ isolated, σ.scene.graph.Makes isolated r.model r.list) ∧
    r.frame.scene.source? r.model 0 = .ok (some 14) ∧ r.frame.scene.value 14 = .ok 5.0 ∧
    ⟨5, 0⟩ ∈ r.list.inputs ∧
    (Command.replayModel r.model { r.list with commands := r.list.commands.take 5 }).run r.frame =
      .ok r.partway ∧
    r.list.commands[5]? = some (.step (.modify 13 .add 11 (some 5))) ∧
    r.partway.scene.value 5 = .ok 2.0 := by
  have hrun : ∃ σ ∈ (start 100.0).runAll (sharedInput ++ [.setSource 4 0 15]),
      ∃ r ∈ σ.modelRun? σ 3 3 5, r.frame.scene.source? r.model 0 = .ok (some 14) ∧
        r.frame.scene.value 14 = .ok 5.0 ∧ ⟨5, 0⟩ ∈ r.list.inputs ∧
        (∃ c ∈ r.list.commands[5]?, c.step? = some (.modify 13 .add 11 (some 5))) ∧
        r.partway.scene.value 5 = .ok 2.0 := by
    decide +kernel
  obtain ⟨σ, hσ, r, hr, hsource, hvalue, hbound, ⟨c, hc, hstep⟩, hread⟩ := hrun
  obtain ⟨hlist, -, hpartway, -⟩ := modelRun?_eq_some hr
  exact ⟨σ, r, ⟨100.0, runs_of_runAll hσ⟩, hr, hlist, hsource, hvalue, hbound, hpartway,
    Command.step?_eq_some.mp hstep ▸ hc, hread⟩

end Session

end SceneGraph
