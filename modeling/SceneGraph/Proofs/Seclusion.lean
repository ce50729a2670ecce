import SceneGraph.Proofs.Untouched

/-!
What happens to a model while its own list is replayed.

No list within the list of a model acts on the model or replays it again.  So replays are nested
at most as deep as there are models, and nothing of the model changes as long as its own list is
under way.  Main statement: `Session.models_secluded`.
-/

namespace SceneGraph

/-- The second frame is passed while a list is replayed from the first: among the values that are
written at the beginning, between commands, or while a command replays a list itself. -/
inductive Command.Passes : (InputIndex → Option Float) → SceneList → Frame → Frame → Prop
  | writing {inputs : InputIndex → Option Float} {list : SceneList} {f g : Frame}
      {writes : List (NodeId × Float)} (hwrites : writes <+: CommandList.writes inputs list.inputs)
      (hg : writes.foldlM Frame.write f = .ok g) : Passes inputs list f g
  | between {inputs : InputIndex → Option Float} {list : SceneList} {f g : Frame}
      {before : List Command} (hbefore : before <+: list.commands)
      (hg : runList inputs f { list with commands := before } = .ok g) : Passes inputs list f g
  | within {inputs : InputIndex → Option Float} {list inner : SceneList} {f f₁ g : Frame}
      {before : List Command} {model : NodeId} {supplied : List (InputIndex × Float)}
      (hbefore : before ++ [.replayModel model inner] <+: list.commands)
      (hf : runList inputs f { list with commands := before } = .ok f₁)
      (hsupplied : f₁.scene.suppliedInputs model = .ok supplied)
      (hg : Passes (fun index => supplied.lookup index) inner f₁ g) : Passes inputs list f g

namespace Scene

open Command (Encloses Passes)

variable {s w : Scene} {root model x : NodeId} {list l : SceneList} {ms : List NodeId}
  {inputs : InputIndex → Option Float} {f g : Frame}

/-- Executing the first commands of a list. -/
theorem runList_confined {supplied : InputIndex → Prop}
    (hsupplied : ∀ index, (inputs index).isSome = true → supplied index) {before : List Command}
    (hbefore : before ⊆ list.commands) (hf : Alike w f.scene)
    (h : Command.runList inputs f { list with commands := before } = .ok g) :
    Confined (w.Overwritten supplied list) (Draws list) f.scene g.scene := by
  obtain ⟨f₁, hwrites, hrest⟩ := except_bind_eq_ok.mp h
  exact (supplied_confined hsupplied (List.Subset.refl _) hwrites).trans
    (commands_confined before hbefore (hf.trans (Frame.writes_rewrites hwrites).alike) hrest)

/-- All that changes in the course of a replay is what the replay is there to change. -/
theorem passes_overwrites (h : Passes inputs list f g) {supplied : InputIndex → Prop}
    (hsupplied : ∀ index, (inputs index).isSome = true → supplied index) (hf : Alike w f.scene) :
    Confined (w.Overwritten supplied list) (Draws list) f.scene g.scene := by
  induction h generalizing supplied with
  | writing hwrites hg => exact supplied_confined hsupplied hwrites.subset hg
  | between hbefore hg => exact runList_confined hsupplied hbefore.subset hf hg
  | @within inputs list inner f f₁ g before model sources hbefore hrun hsources hg ih =>
      have hmem : .replayModel model inner ∈ list.commands :=
        hbefore.subset (List.mem_append_right _ (List.mem_singleton_self _))
      have hfirst := runList_confined hsupplied
        (List.Subset.trans (List.subset_append_left _ _) hbefore.subset) hf hrun
      have hf₁ : Alike w f₁.scene := hf.trans (Command.runList_rewrites _ hrun).alike
      refine hfirst.trans ((ih (fun index hindex => ?_) hf₁).mono
        (fun x hx => hx.within hmem) fun x hx => hx.within hmem)
      exact hf₁.sources ▸ source_of_supplied hsources hindex

theorem passes_confined (hw : w.WellFormed) (h : Passes inputs list f g)
    (hbears : w.Bears (Command.mentionsOf list)) {supplied : InputIndex → Prop}
    (hsupplied : ∀ index, (inputs index).isSome = true → supplied index) (hf : Alike w f.scene) :
    Confined (w.Exposed supplied list) (Draws list) f.scene g.scene :=
  (passes_overwrites h hsupplied hf).mono (fun _ hx => hx.exposed hbears hw) fun _ hx => hx

/-- The models of a scene. -/
def models (s : Scene) : List NodeId :=
  (List.range s.count).filter fun id => (s.kind id).toOption = some .model

theorem mem_models (h : s.HasKind (· = .model) x) : x ∈ s.models := by
  obtain ⟨n, hn, hkind⟩ := h
  refine List.mem_filter.mpr ⟨List.mem_range.mpr (lt_count_of_node hn), ?_⟩
  rw [kind, hn]
  exact decide_eq_true (congrArg some hkind)

/-- A list within the list of a model neither acts on the model nor replays it. -/
theorem not_actsOn_of_encloses (hs : s.WellFormed) (h : s.graph.Makes [] root list)
    (hl : Encloses list (ms ++ [model]) l) {ms' : List NodeId} {l' : SceneList}
    (hl' : Encloses l ms' l') :
    model ∉ ms' ∧ ∀ step, .step step ∈ l'.commands → ¬ step.ActsOn model := by
  obtain ⟨hmakes, hnodup, hmodels⟩ := makes_of_encloses h (hl.trans hl') List.nodup_nil
  rw [List.nil_append] at hmakes hnodup
  have hmem : model ∈ ms ++ [model] := List.mem_append_right _ (List.mem_singleton_self _)
  have hdisjoint : List.Disjoint (ms ++ [model]) ms' := List.disjoint_of_nodup_append hnodup
  refine ⟨hdisjoint hmem, fun step hstep hx => ?_⟩
  have hstill : s.Still ((ms ++ [model] ++ ms').getLast?.getD root) := by
    cases hlast : (ms ++ [model] ++ ms').getLast? with
    | none => simp at hlast
    | some m => exact (hmodels m (List.mem_of_getLast? hlast)).still nofun
  obtain ⟨n, hn, hkind⟩ := hmodels model (List.mem_append_left _ hmem)
  have hmodel : s.kind model = .ok .model := by rw [kind, hn]; exact congrArg Except.ok hkind
  exact (visited_of_actsOn hs hmakes hstill hstep hx).2 hmodel (List.mem_append_left _ hmem)

end Scene

namespace Session

open Scene Command

variable {σ : Session} {root model : NodeId} {list l : SceneList} {ms : List NodeId}

/-- Take the list of a model anywhere within a compiled list.  Neither that list nor any list
within it composes, moves or shows the model, or replays it again.  So the models on the way to
a list are pairwise different, and no more than there are.  The matrices of the model and all
that it reads back stay as they are from the first to the last frame of a replay of its list, in
whatever later state that takes place. -/
theorem models_secluded (hσ : Reachable σ) (h : (σ.scene.compile root).result = .ok list)
    (hl : Encloses list (ms ++ [model]) l) :
    (∀ ms' l', Encloses l ms' l' →
      model ∉ ms' ∧ ∀ step, .step step ∈ l'.commands → ¬ step.ActsOn model) ∧
    (ms ++ [model]).Nodup ∧ (∀ m ∈ ms ++ [model], m ∈ σ.scene.models) ∧
    (ms ++ [model]).length ≤ σ.scene.models.length ∧
    ∀ τ inputs f g, Runs σ τ → Alike τ.scene f.scene → Passes inputs l f g →
      g.scene.container? model = f.scene.container? model ∧
      ∀ n x, τ.scene.node model = .ok n → n.Shows x → g.scene.value x = f.scene.value x := by
  have hs := hσ.sound.wellFormed
  have hmakes := makes_of_compile h
  have hwithin := fun ms' l' (hl' : Encloses l ms' l') =>
    not_actsOn_of_encloses hs hmakes hl hl'
  obtain ⟨-, hnodup, hkinds⟩ := makes_of_encloses hmakes hl List.nodup_nil
  have hmodels : ∀ m ∈ ms ++ [model], m ∈ σ.scene.models := fun m hm => mem_models (hkinds m hm)
  refine ⟨hwithin, hnodup, hmodels, (hnodup.subperm hmodels).length_le,
    fun τ inputs f g hrun hf hpasses => ?_⟩
  have hτ := (hσ.runs hrun).sound.wellFormed
  have hbears : τ.scene.Bears (mentionsOf l) :=
    (bears_of_encloses hl (bears_of_compile hs hσ.strict.links h)).mono (hrun.develops hσ)
  have hconfined := passes_confined hτ hpasses hbears (fun _ hindex => hindex) hf
  have hacts : ∀ {step}, HasStep l step → ¬ step.ActsOn model := fun ⟨ms', l', hl', hstep⟩ =>
    (hwithin ms' l' hl').2 _ hstep
  refine ⟨hconfined.containers model fun ⟨_, hstep, hx⟩ => hacts hstep (.inl hx),
    fun n x hn hx => hconfined.values x fun hexposed => ?_⟩
  -- a read-back of the model is written only by steps that show the model
  obtain ⟨v, hv⟩ := hτ.scalar_of_shows hn hx
  obtain ⟨step, shown, hstep, hshown, hmodel⟩ := hexposed.shown hv
  exact hacts hstep (.inr ⟨shown, hshown, (Option.some.inj hmodel).symm⟩)

/-- The list of a model that a list replays. -/
def replayed? (list : SceneList) (model : NodeId) : Option SceneList :=
  list.commands.findSome? fun
    | .replayModel m l => if m = model then some l else none
    | .step _ => none

theorem replayed?_eq_some (h : replayed? list model = some l) :
    .replayModel model l ∈ list.commands := by
  obtain ⟨c, hc, heq⟩ := List.exists_of_findSome?_eq_some h
  cases c with
  | step step => cases heq
  | replayModel m inner =>
      obtain ⟨hm, hl⟩ := Option.ite_none_right_eq_some.mp heq
      exact hm ▸ Option.some.inj hl ▸ hc

/-- A model in a model, with a pin in it that reads the outer model back. -/
def readingOuter : List Operation :=
  [.model, .model, .addChild 3 4, .readback 3 .x, .pin, .addChild 4 6, .pinCoordinate 6 .x,
    .modify 8 [.adding (.cell 5)]]

/-- A replay of the inner model's list, which is within the list of the outer model. -/
theorem models_secluded_readingOuter : ∃ σ list l g, Reachable σ ∧
    (σ.scene.compile 3).result = .ok list ∧ Encloses list ([3] ++ [4]) l ∧
    (∀ step, .step step ∈ l.commands → ¬ step.ActsOn 4) ∧ ([3] ++ [4]).Nodup ∧
    2 ≤ σ.scene.models.length ∧ (Command.replayModel 4 l).run { scene := σ.scene } = .ok g ∧
    g.scene.container? 4 = σ.scene.container? 4 := by
  have hrun : ∃ σ ∈ (start 100.0).runAll readingOuter,
      ∃ list ∈ (σ.scene.compile 3).result.toOption, ∃ outer ∈ replayed? list 3,
      ∃ l ∈ replayed? outer 4,
      ∃ g ∈ ((Command.replayModel 4 l).run { scene := σ.scene }).toOption, True := by
    decide +kernel
  obtain ⟨σ, hσ, list, hlist, outer, houter, l, hl, g, hg, -⟩ := hrun
  have hlist := toOption_eq_some.mp hlist
  have hg := toOption_eq_some.mp hg
  have hreach : Reachable σ := ⟨100.0, runs_of_runAll hσ⟩
  have hencloses : Encloses list ([3] ++ [4]) l :=
    .inner (replayed?_eq_some houter) (.inner (replayed?_eq_some hl) (.refl l))
  obtain ⟨hwithin, hnodup, -, hdepth, hpassed⟩ := models_secluded hreach hlist hencloses
  obtain ⟨inputs, -, hreplay⟩ := except_bind_eq_ok.mp hg
  exact ⟨σ, list, l, g, hreach, hlist, hencloses, (hwithin [] l (.refl l)).2, hnodup, hdepth, hg,
    (hpassed σ _ _ g .refl (Alike.refl _) (.between List.prefix_rfl hreplay)).1⟩

end Session

end SceneGraph
