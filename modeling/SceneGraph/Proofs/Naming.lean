import SceneGraph.Proofs.Arena
import SceneGraph.Proofs.Frames

/-!
The nodes that lists name.

A command names nodes and takes each of them for a node of a certain kind.  A list that was
compiled from a scene takes its nodes for what they are, and since nodes keep their kinds it
does so in every later scene.  That much is enough to replay it, however much the scene has
changed since (`Scene.replay_succeeds`).
-/

namespace SceneGraph

/-- A node that a command names, and the kinds of nodes that it takes it for. -/
structure Mention where
  id : NodeId
  kinds : NodeKind → Prop

/-- The cell to read for a slot: one of the shared cells, or a calculated value. -/
def Mention.cell (id : NodeId) : Mention :=
  ⟨id, fun k => if id < 3 then k = .scalar else k = .calculated⟩

@[simp] theorem Mention.id_cell (id : NodeId) : (Mention.cell id).id = id :=
  rfl

def Step.mentions : Step → List Mention
  | .modify dest _ target operand =>
    [⟨dest, (· = .modified)⟩, ⟨target, fun k => k = .scalar ∨ k = .modified⟩] ++
      operand.toList.map (⟨·, NodeKind.IsValue⟩)
  | .assign dest source => [⟨dest, (· = .calculated)⟩, ⟨source, (· = .modified)⟩]
  | .compose part cells => ⟨part, NodeKind.IsPart⟩ :: cells.toList.map .cell
  | .transform owner _ amount => [⟨owner, NodeKind.IsContainer⟩, ⟨amount, (· = .calculated)⟩]
  | .concatParent part parent => [⟨part, NodeKind.IsPart⟩, ⟨parent, NodeKind.IsContainer⟩]
  | .placeContent part originX originY =>
    [⟨part, NodeKind.IsPart⟩, .cell originX, .cell originY]
  | .solvePins part pins width height =>
    ⟨part, (· = .pinnedPart)⟩ :: (pins.flatMap PinCells.toList ++ [width, height]).map .cell
  | .showPart part => [⟨part, NodeKind.IsPart⟩]
  | .showPin pin => [⟨pin, (· = .pin)⟩]
  | .showPinnedPart part => [⟨part, (· = .pinnedPart)⟩]

theorem Step.map_id_mentions (s : Step) : s.mentions.map Mention.id = s.names := by
  cases s <;> simp [mentions, names, Function.comp_def]

/-- A step shows a node that it names. -/
theorem Step.shown_mem_names {s : Step} {shown : Shown} (h : s.shown? = some shown) :
    shown.node ∈ s.names := by
  cases s <;> cases h <;> exact List.mem_singleton_self _

namespace Command

mutual

def mentions : Command → List Mention
  | .step s => s.mentions
  | .replayModel model list => ⟨model, (· = .model)⟩ :: mentionsOf list

/-- What a list names, in itself and in the lists within it. -/
def mentionsOf : SceneList → List Mention
  | ⟨root, commands, inputs⟩ =>
    ⟨root, fun _ => True⟩ :: inputs.map (fun b => ⟨b.node, (· = .input)⟩) ++
      mentionsAll commands

def mentionsAll : List Command → List Mention
  | [] => []
  | c :: cs => c.mentions ++ mentionsAll cs

end

end Command

namespace Scene

variable {s t w : Scene} {id x root : NodeId} {isolated : List NodeId} {step : Step}
  {list : SceneList}

/-- The scene has all these nodes, and they are of the kinds they are taken for. -/
def Bears (s : Scene) (ms : List Mention) : Prop :=
  ∀ m ∈ ms, s.HasKind m.kinds m.id

theorem Bears.mono {ms : List Mention} (h : s.Bears ms) (hst : Develops s t) : t.Bears ms :=
  fun m hm => (h m hm).mono hst

theorem bears_cons {m : Mention} {ms : List Mention} :
    s.Bears (m :: ms) ↔ s.HasKind m.kinds m.id ∧ s.Bears ms :=
  List.forall_mem_cons

theorem bears_nil (s : Scene) : s.Bears [] :=
  fun _ hm => nomatch hm

theorem bears_append {ms ms' : List Mention} :
    s.Bears (ms ++ ms') ↔ s.Bears ms ∧ s.Bears ms' :=
  List.forall_mem_append

theorem IsCell.hasKind (h : s.IsCell id) (hs : s.WellFormed) :
    s.HasKind (Mention.cell id).kinds id := by
  by_cases hid : id < 3
  · obtain ⟨v, hv⟩ := hs.shared id hid
    exact .of_node hv (by simp [Mention.cell, hid, Node.kind])
  · obtain ⟨n, hn, hk⟩ := h.resolve_right hid
    exact .of_node hn (by simpa [Mention.cell, hid] using hk)

theorem bears_cells {cells : List NodeId} (hs : s.WellFormed) (h : ∀ id ∈ cells, s.IsCell id) :
    s.Bears (cells.map .cell) := by
  intro m hm
  obtain ⟨id, hid, rfl⟩ := List.mem_map.mp hm
  exact (h id hid).hasKind hs

theorem isPart_part (p : Part) : (Node.part p).kind.IsPart := by
  cases hmodel : p.model <;> simp [Node.kind, hmodel, NodeKind.IsPart]

/-- A step of a node takes nodes for what they are. -/
theorem Emits.bears (hw : w.WellFormed) (hnarrow : w.Narrow) (h : Emits w x step) :
    w.Bears step.mentions := by
  cases h with
  | assign hx htail =>
      have hnarrows := hnarrow x _ hx
      simp only [Step.mentions, bears_cons]
      exact ⟨.of_node hx rfl, hnarrows.2 _ (List.mem_of_getLast? htail), bears_nil w⟩
  | @modify m hx =>
      obtain ⟨-, htarget, hoperand⟩ := hnarrow x _ hx
      simp only [Step.mentions, bears_append, bears_cons]
      refine ⟨⟨.of_node hx rfl, ?_, bears_nil w⟩, fun mention hmention => ?_⟩
      · rcases htarget with htarget | htarget
        · exact htarget.hasKind.imp fun _ hk => .inl hk
        · exact htarget.imp fun _ hk => .inr hk
      · obtain ⟨cell, hcell, rfl⟩ := List.mem_map.mp hmention
        exact hoperand cell (Option.mem_toList.mp hcell)
  | @transform m hx =>
      have howner : w.Serves x (.transformation m) .owner m.owner :=
        serves_of_held hw hnarrow hx (fun _ => nofun) rfl
      obtain ⟨n, hn, hcontainer, -⟩ := howner
      simp only [Step.mentions, bears_cons]
      exact ⟨.of_node hn hcontainer, hnarrow x _ hx, bears_nil w⟩
  | @compose p hx =>
      simp only [Step.mentions, bears_cons]
      refine ⟨.of_node hx (isPart_part p), bears_cells hw fun cell hcell => ?_⟩
      simp only [PlacementCells.toList, Part.placementCells, List.mem_cons, List.not_mem_nil,
        or_false] at hcell
      rcases hcell with rfl | rfl | rfl | rfl | rfl <;> exact cell_isCell hw hx _
  | @concatParent p parent hx hparent =>
      simp only [Step.mentions, bears_cons]
      exact ⟨.of_node hx (isPart_part p), parent_isContainer hw hx hparent, bears_nil w⟩
  | @placeContent p hx =>
      simp only [Step.mentions, bears_cons]
      exact ⟨.of_node hx (isPart_part p), (cell_isCell hw hx _).hasKind hw,
        (cell_isCell hw hx _).hasKind hw, bears_nil w⟩
  | @solvePins p hx =>
      simp only [Step.mentions, bears_cons]
      refine ⟨.of_node hx rfl, bears_cells hw fun cell hcell => ?_⟩
      rw [List.mem_append, List.mem_flatMap] at hcell
      rcases hcell with ⟨c, hc, hcell⟩ | hcell
      · exact pinCells_isCell hw hx hc cell hcell
      · simp only [List.mem_cons, List.not_mem_nil, or_false] at hcell
        rcases hcell with rfl | rfl <;> exact sizeCell_isCell hw hx _
  | @showPart p hx =>
      simp only [Step.mentions, bears_cons]
      exact ⟨.of_node hx (isPart_part p), bears_nil w⟩
  | showPin hx | showPinnedPart hx =>
      simp only [Step.mentions, bears_cons]
      exact ⟨.of_node hx rfl, bears_nil w⟩

theorem hasKind_model (h : s.kind id = .ok .model) : s.HasKind (· = .model) id := by
  obtain ⟨n, hn, hkind⟩ := except_bind_eq_ok.mp h
  exact ⟨n, hn, Except.ok.inj hkind⟩

/-- The list of a model is replayed for a model. -/
theorem model_of_makes {r model : NodeId} {inner : SceneList}
    (h : s.graph.Makes isolated r list) (hc : .replayModel model inner ∈ list.commands) :
    s.HasKind (· = .model) model := by
  obtain ⟨x, -, hc | hc | ⟨m, inner', hm, hmade, hembed⟩⟩ := h.mem_commands hc
  · obtain ⟨n, hn, hc⟩ := mem_getD_map.mp hc
    rw [needs_eq] at hc
    split at hc
    · cases hc
    · obtain ⟨_, heq, -⟩ := emits_of_needs hn hc
      cases heq
  · obtain ⟨n, hn, hc⟩ := mem_getD_map.mp hc
    obtain ⟨_, heq, -⟩ := emits_of_contributions hn hc
    cases heq
  · obtain ⟨rfl, howns, -⟩ := (s.nests.embeds _ _ _).mp hm
    obtain ⟨hroot, -⟩ := Command.replayModel.inj hembed
    rw [← hroot, hmade.root_eq]
    exact hasKind_model (ownsList_iff.mp howns)

mutual

theorem bears_command (hs : s.WellFormed) (hnarrow : s.Narrow) : (c : Command) → s.Has c →
    (∀ model inner, c = .replayModel model inner → s.HasKind (· = .model) model) →
    s.Bears c.mentions
  | .step _, ⟨_, hstep⟩, _ => hstep.bears hs hnarrow
  | .replayModel model inner, ⟨_, hinner⟩, hmodel => by
      have hmodel := hmodel model inner rfl
      exact bears_cons.mpr
        ⟨hmodel, bears_list hs hnarrow inner hinner (hmodel.imp fun _ _ => trivial)⟩

/-- A list that was compiled from the scene takes its nodes for what they are. -/
theorem bears_list (hs : s.WellFormed) (hnarrow : s.Narrow) {isolated : List NodeId}
    {r : NodeId} : (list : SceneList) → s.graph.Makes isolated r list →
    s.HasKind (fun _ => True) r → s.Bears (Command.mentionsOf list)
  | ⟨root, commands, inputs⟩, h, hr => by
      have hinputs : s.Bears (inputs.map fun b => ⟨b.node, (· = .input)⟩) := by
        intro m hm
        obtain ⟨b, hb, rfl⟩ := List.mem_map.mp hm
        obtain ⟨v, hv⟩ := inputIndex_eq_some.mp (h.mem_inputs.mp hb).2
        exact .of_node hv rfl
      have hcommands := bears_commands hs hnarrow commands (has_of_makes h)
        fun model inner hc => model_of_makes h hc
      obtain rfl : root = r := h.root_eq
      exact bears_append.mpr ⟨bears_cons.mpr ⟨hr, hinputs⟩, hcommands⟩

theorem bears_commands (hs : s.WellFormed) (hnarrow : s.Narrow) : (cs : List Command) →
    (∀ c ∈ cs, s.Has c) →
    (∀ model inner, .replayModel model inner ∈ cs → s.HasKind (· = .model) model) →
    s.Bears (Command.mentionsAll cs)
  | [], _, _ => bears_nil s
  | c :: cs, hhas, hmodels => by
      rw [List.forall_mem_cons] at hhas
      refine bears_append.mpr ⟨bears_command hs hnarrow c hhas.1 ?_,
        bears_commands hs hnarrow cs hhas.2 ?_⟩
      · exact fun model inner heq => hmodels model inner (heq ▸ List.mem_cons_self)
      · exact fun model inner hc => hmodels model inner (List.mem_cons_of_mem c hc)

end

theorem bears_of_compile (hs : s.WellFormed) (hnarrow : s.Narrow)
    (h : (s.compile root).result = .ok list) :
    s.Bears (Command.mentionsOf list) := by
  refine bears_list hs hnarrow list (makes_of_compile h) ?_
  have hroot : root < s.count := by
    by_contra hnot
    rw [compile_of_count_le (Nat.le_of_not_lt hnot)] at h
    cases h
  obtain ⟨n, hn⟩ := node_of_lt_count hroot
  exact .of_node hn trivial

section Success

variable {f : Frame}

theorem present_succeeds {shown : Shown} (h : shown.node < f.scene.count) :
    ∃ f', f.present shown = .ok f' := by
  obtain ⟨n, hn⟩ := node_of_lt_count h
  refine bind_succeeds hn ?_
  cases n.display? <;> exact ⟨_, rfl⟩

theorem run_succeeds (hw : w.WellFormed) (hf : Alike w f.scene) (h : w.Bears step.mentions) :
    ∃ f', step.run f = .ok f' := by
  have hnames : ∀ id ∈ step.names, id < w.count := by
    intro id hid
    rw [← Step.map_id_mentions] at hid
    obtain ⟨m, hm, rfl⟩ := List.mem_map.mp hid
    exact (h m hm).lt_count
  obtain ⟨t, ht⟩ := change_of_lt_count hw hf.wiring hnames
  refine bind_succeeds ht ?_
  cases hshown : step.shown? with
  | none => exact ⟨_, rfl⟩
  | some shown =>
      have ht := (hf.trans (step.change_rewrites f.scene t ht).alike).wiring
      exact present_succeeds (count_eq_of_wiring ht ▸ hnames _ (Step.shown_mem_names hshown))

/-- Each value that a list is supplied with goes to one of its inputs. -/
theorem binding_of_mem_writes {inputs : InputIndex → Option Float}
    {bindings : List (InputBinding NodeId)} {write : NodeId × Float}
    (h : write ∈ CommandList.writes inputs bindings) :
    ∃ b ∈ bindings, ∃ v, inputs b.index = some v ∧ write = (b.node, v) := by
  obtain ⟨b, hb, hinput⟩ := List.mem_filterMap.mp h
  obtain ⟨v, hv, rfl⟩ := Option.map_eq_some_iff.mp hinput
  exact ⟨b, hb, v, hv, rfl⟩

theorem writes_succeed {bindings : List (InputBinding NodeId)}
    (h : ∀ b ∈ bindings, b.node < w.count) (inputs : InputIndex → Option Float)
    (hf : Alike w f.scene) :
    ∃ f', (CommandList.writes inputs bindings).foldlM Frame.write f = .ok f' ∧
      Alike w f'.scene := by
  refine foldlM_succeeds (P := fun f : Frame => Alike w f.scene) (fun f write hwrite hf => ?_) hf
  obtain ⟨b, hb, v, -, rfl⟩ := binding_of_mem_writes hwrite
  have hlt : b.node < f.scene.count := count_eq_of_wiring hf.wiring ▸ h b hb
  obtain ⟨t, ht⟩ := update_of_lt_count hlt (Node.setValue v)
  have hf' : f.write (b.node, v) = .ok (f.withScene t) := congrArg (Except.map f.withScene) ht
  exact ⟨_, hf', hf.trans (Frame.write_rewrites hf').alike⟩

/-- Every source of a model is there. -/
def SourcesStand (w : Scene) : Prop :=
  ∀ model, ∀ entry ∈ w.sourceTable model, entry.2 < w.count

mutual

theorem command_succeeds (hw : w.WellFormed) (hsources : w.SourcesStand) :
    (c : Command) → w.Bears c.mentions → {f : Frame} → Alike w f.scene →
    ∃ f', c.run f = .ok f'
  | .step _, h, _, hf => run_succeeds hw hf h
  | .replayModel model list, h, f, hf => by
      obtain ⟨hmodel, hlist⟩ := bears_cons.mp h
      obtain ⟨n, hn⟩ := node_of_lt_count (count_eq_of_wiring hf.wiring ▸ hmodel.lt_count)
      obtain ⟨inputs, hinputs⟩ := suppliedInputs_succeeds hn fun entry hentry =>
        count_eq_of_wiring hf.wiring ▸ hsources model entry (hf.sources ▸ hentry)
      exact bind_succeeds hinputs (list_succeeds hw hsources list hlist _ hf)

/-- A list can be replayed that takes its nodes for what they are. -/
theorem list_succeeds (hw : w.WellFormed) (hsources : w.SourcesStand) :
    (list : SceneList) → w.Bears (Command.mentionsOf list) →
    (inputs : InputIndex → Option Float) → {f : Frame} → Alike w f.scene →
    ∃ f', Command.runList inputs f list = .ok f'
  | ⟨root, commands, bindings⟩, h, inputs, f, hf => by
      obtain ⟨hhead, hcommands⟩ := bears_append.mp h
      have hbindings : ∀ b ∈ bindings, b.node < w.count := fun b hb =>
        ((bears_cons.mp hhead).2 _ (List.mem_map_of_mem hb)).lt_count
      obtain ⟨f₁, hf₁, halike⟩ := writes_succeed hbindings inputs hf
      exact bind_succeeds hf₁ (commands_succeed hw hsources commands hcommands halike)

theorem commands_succeed (hw : w.WellFormed) (hsources : w.SourcesStand) :
    (cs : List Command) → w.Bears (Command.mentionsAll cs) →
    {f : Frame} → Alike w f.scene → ∃ f', Command.runAll f cs = .ok f'
  | [], _, f, _ => ⟨f, rfl⟩
  | c :: cs, h, f, hf => by
      obtain ⟨hc, hcs⟩ := bears_append.mp h
      obtain ⟨f₁, hf₁⟩ := command_succeeds hw hsources c hc hf
      have halike := hf.trans (Command.run_rewrites c hf₁).alike
      exact bind_succeeds hf₁ (commands_succeed hw hsources cs hcs halike)

end

theorem replay_succeeds (hw : w.WellFormed) (hsources : w.SourcesStand)
    (h : w.Bears (Command.mentionsOf list))
    (inputs : InputIndex → Option Float) : ∃ f, w.replay list inputs = .ok f := by
  unfold replay
  rw [← Command.runList_eq_replay]
  exact list_succeeds hw hsources list h inputs (Alike.refl w)

end Success

end Scene

end SceneGraph
