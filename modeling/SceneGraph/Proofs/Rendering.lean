import Mathlib.Data.List.Chain
import SceneGraph.Proofs.Assembly
import SceneGraph.Proofs.Building
import SceneGraph.Proofs.Settling

/-!
The scene at the end of a frame.

Main statement: replaying a compiled list brings all nodes that the compile visited up to
date, together and whatever was edited in between (`Session.replay_up_to_date`).
-/

namespace SceneGraph

open RenderGraph (search_of_resolve compile_eq_compileWith compileWith_eq_ok mem_bindings)

/-- Edits that change values and nothing else. -/
def Operation.IsEdit : Operation → Prop
  | .setValue .. | .setBaseValue .. | .setDisplay .. => True
  | _ => False

theorem Node.kind_eq_model_iff (n : Node) : n.kind = .model ↔ n.model?.isSome = true := by
  cases n with
  | part p => cases hmodel : p.model <;> simp [kind, model?, hmodel]
  | _ => simp [kind, model?]

namespace Scene

variable {w s t : Scene} {inputs : InputIndex → Option Float} {id : NodeId}

/-- An input has what was supplied for it, or else what it had before. -/
def Supplied (before : Scene) (inputs : InputIndex → Option Float) (s : Scene) (id : NodeId) :
    Node → Prop
  | .input _ index => s.value id = (inputs index).elim (before.value id) .ok
  | _ => True

/-- Writing the supplied values of some bindings. -/
theorem writes_supplied {bindings : List (InputBinding NodeId)}
    (hnodup : (bindings.map InputBinding.node).Nodup)
    (hnumber : ∀ b ∈ bindings, w.IsNumber b.node) (inputs : InputIndex → Option Float)
    (f : Frame) (hf : f.scene.wiring = w.wiring) :
    ∃ f', (CommandList.writes inputs bindings).foldlM Frame.write f = .ok f' ∧
      f'.scene.wiring = w.wiring ∧
      (∀ b ∈ bindings, f'.scene.value b.node =
        (inputs b.index).elim (f.scene.value b.node) .ok) ∧
      ∀ id, id ∉ bindings.map InputBinding.node → f'.scene.value id = f.scene.value id := by
  induction bindings generalizing f with
  | nil => exact ⟨f, rfl, hf, by simp, fun _ _ => rfl⟩
  | cons b bindings ih =>
      rw [List.map_cons, List.nodup_cons] at hnodup
      have hrest : ∀ b' ∈ bindings, w.IsNumber b'.node := fun b' hb' =>
        hnumber b' (List.mem_cons_of_mem b hb')
      cases hinput : inputs b.index with
      | none =>
          have hwrites : CommandList.writes inputs (b :: bindings) =
              CommandList.writes inputs bindings := by
            simp [CommandList.writes, hinput]
          obtain ⟨f', hf', hwiring, hbound, hother⟩ := ih hnodup.2 hrest f hf
          refine ⟨f', by rw [hwrites, hf'], hwiring, ?_, ?_⟩
          · rw [List.forall_mem_cons]
            refine ⟨?_, hbound⟩
            rw [hinput]
            exact hother b.node hnodup.1
          · exact fun id hid => hother id fun hmem => hid (List.mem_cons_of_mem _ hmem)
      | some v =>
          have hwrites : CommandList.writes inputs (b :: bindings) =
              (b.node, v) :: CommandList.writes inputs bindings := by
            simp [CommandList.writes, hinput]
          have hb : f.scene.IsNumber b.node :=
            HasKind.mono (hnumber b List.mem_cons_self) (.of_wiring hf)
          obtain ⟨r, hr⟩ := update_of_lt_count hb.lt_count (Node.setValue v)
          have hr : f.scene.setValue b.node v = .ok r := hr
          have hwrite : f.write (b.node, v) = .ok (f.withScene r) := by
            unfold Frame.write
            rw [hr]
            rfl
          have hrw := (f.scene.setValue_rewrites b.node v r hr).alike.wiring.trans hf
          obtain ⟨f', hf', hwiring, hbound, hother⟩ := ih hnodup.2 hrest (f.withScene r) hrw
          have hkept : ∀ id, id ≠ b.node → r.value id = f.scene.value id := fun id hid =>
            value_update_of_ne hr hid
          refine ⟨f', ?_, hwiring, ?_, ?_⟩
          · rw [hwrites, List.foldlM_cons, hwrite]
            exact hf'
          · rw [List.forall_mem_cons]
            refine ⟨?_, fun b' hb' => ?_⟩
            · rw [hother b.node hnodup.1, hinput]
              exact value_setValue_self hb hr
            · rw [hbound b' hb']
              have hne : b'.node ≠ b.node := fun heq =>
                hnodup.1 (heq ▸ List.mem_map_of_mem hb')
              exact congrArg (fun before => (inputs b'.index).elim before .ok) (hkept b'.node hne)
          · intro id hid
            rw [List.map_cons, List.mem_cons, not_or] at hid
            rw [hother id hid.2]
            exact hkept id hid.1

theorem node_of_bind {α : Type} {proj : Node → Option α} {make : α → Node}
    (hproj : ∀ {n a}, proj n = some a ↔ n = make a) {a : α} (h : s.nodes[id]?.bind proj = some a) :
    s.node id = .ok (make a) := by
  obtain ⟨n, hn, ha⟩ := Option.bind_eq_some_iff.mp h
  exact hproj.mp ha ▸ node_eq_ok.mpr hn

/-- The attributes that place a part. -/
def placementAttributes : List PartAttribute :=
  [.x, .y, .scaleX, .scaleY, .rotation]

theorem composed_of_attributes {p : Part} {x y scaleX scaleY degrees : Float}
    (h : placementAttributes.map (s.partNumber p) = [x, y, scaleX, scaleY, degrees]) :
    s.composed p = s.carried p.container.parent (p.container.transformations.foldl s.moved
      (Matrix.placement x y scaleX scaleY degrees)) := by
  simp only [placementAttributes, List.map_cons, List.map_nil, List.cons.injEq] at h
  obtain ⟨hx, hy, hscaleX, hscaleY, hdegrees, -⟩ := h
  rw [composed, hx, hy, hscaleX, hscaleY, hdegrees]

theorem model?_eq_none {n : Node} (hn : s.node id = .ok n) (hkind : s.kind id ≠ .ok .model) :
    n.model? = none := by
  have hkind : n.kind ≠ .model := by
    intro h
    unfold kind at hkind
    rw [hn] at hkind
    exact hkind (congrArg Except.ok h)
  simpa using mt n.kind_eq_model_iff.mpr hkind

/-- No node is of a kind that none of the nodes has. -/
theorem kind_ne {k : NodeKind} (h : k ∉ s.nodes.toList.map Node.kind) (id : NodeId) :
    s.kind id ≠ .ok k := by
  intro hkind
  obtain ⟨n, hn, hk⟩ := except_bind_eq_ok.mp hkind
  refine h (List.mem_map.mpr ⟨n, ?_, Except.ok.inj hk⟩)
  exact Array.mem_toList_iff.mpr (Array.mem_of_getElem? (node_eq_ok.mp hn))

theorem inputIndex_eq_some {index : InputIndex} :
    s.graph.inputIndex id = some index ↔ ∃ v, s.node id = .ok (.input v index) := by
  show s.nodes[id]?.bind boundInput = some index ↔ _
  simp only [node_eq_ok, Option.bind_eq_some_iff]
  constructor
  · rintro ⟨n, hn, hindex⟩
    cases n with
    | input v i =>
        obtain rfl := Option.some.inj hindex
        exact ⟨v, hn⟩
    | _ => cases hindex
  · rintro ⟨v, hn⟩
    exact ⟨_, hn, rfl⟩

/-- Replaying a list that was compiled from a scene with the same wiring. -/
theorem replay_satisfied (hw : w.WellFormed) {root : NodeId} (hroot : w.Still root)
    {list : SceneList} (hlist : (w.compile root).result = .ok list)
    (hplain : ∀ id, w.graph.Visited [] root id → w.kind id ≠ .ok .model)
    (hs : s.wiring = w.wiring) (inputs : InputIndex → Option Float) :
    ∃ f, s.replay list inputs = .ok f ∧ ∀ id, w.graph.Visited [] root id →
      ∃ n, f.scene.node id = .ok n ∧ f.scene.Satisfied id n ∧ Supplied s inputs f.scene id n := by
  have hcompile : (w.graph.compile root).result = .ok list := mapError_eq_ok.mp hlist
  rw [compile_eq_compileWith, compileWith_eq_ok] at hcompile
  obtain ⟨c, hc, rfl⟩ := hcompile
  have hsearch := search_of_resolve hc
  have hassembled := hsearch.assembled
  have hnumber : ∀ b ∈ w.graph.bindings c, w.IsNumber b.node := by
    intro b hb
    obtain ⟨v, hv⟩ := inputIndex_eq_some.mp (mem_bindings.mp hb).2
    exact ⟨_, hv, trivial⟩
  obtain ⟨f₁, hwrites, hwiring₁, hbound, -⟩ :=
    writes_supplied hassembled.bindings_nodup hnumber inputs { scene := s } hs
  have hmodels : ∀ x ∈ c.added, ∀ n, w.node x = .ok n → n.model? = none := fun x hx n hn =>
    model?_eq_none hn (hplain x ((hassembled.mem_added x).mp hx))
  have hstart : w.Underway [] {} f₁.scene := {
    wiring := hwiring₁
    closed := fun id n hid => absurd hid List.not_mem_nil
    waits := by simp
    owned := by simp
    satisfied := by simp }
  obtain ⟨new, r, hnew, hleads, hu, htouches, -⟩ := executes hw hsearch hmodels hroot hstart
  obtain ⟨f, hf, rfl⟩ := hleads f₁ rfl
  refine ⟨f, ?_, fun id hid => ?_⟩
  · have hemissions : c.emissions = new := by simpa using hnew
    unfold replay CommandList.replay
    show ((CommandList.writes inputs (w.graph.bindings c)).foldlM Frame.write _ >>= _) = _
    rw [hwrites]
    show (c.emissions.flatMap Emission.commands).foldlM Command.run f₁ = _
    rw [← Command.runAll_eq_foldlM, hemissions, hf]
  · have hadded := (hassembled.mem_added id).mpr hid
    obtain ⟨n, hn⟩ := node_of_mem_graph (hsearch.added_nodes (by simp) hadded)
    obtain ⟨n', hn', hwiring⟩ := node_of_wiring hu.wiring hn
    refine ⟨n', hn', satisfied_of_wiring hwiring (hu.satisfied id hadded n hn), ?_⟩
    cases n' with
    | input v index =>
        obtain ⟨v', rfl⟩ : ∃ v', n = .input v' index := by
          cases n <;> simp_all [Node.wiring]
        have hbinding : ⟨id, index⟩ ∈ w.graph.bindings c :=
          mem_bindings.mpr ⟨hadded, inputIndex_eq_some.mpr ⟨v', hn⟩⟩
        show f.scene.value id = _
        rw [htouches.values id _ hn (by simp [Node.writer?])]
        exact hbound _ hbinding
    | _ => trivial

end Scene

namespace Session

variable {σ τ : Session}

/-- A run of edits that change values and nothing else. -/
abbrev Edits : Session → Session → Prop :=
  Relation.ReflTransGen fun σ τ => ∃ op : Operation, op.IsEdit ∧ op.Allowed σ ∧
    σ.perform op = some τ

theorem alike_of_edits (h : Edits σ τ) : Scene.Alike σ.scene τ.scene := by
  induction h with
  | refl => exact .refl _
  | @tail τ υ _ hstep ih =>
      obtain ⟨op, hedit, -, hperform⟩ := hstep
      obtain ⟨o, ho, rfl⟩ := perform_eq_some hperform
      refine ih.trans ?_
      cases op with
      | setValue id v =>
          obtain ⟨t, ht, rfl⟩ := map_toOption_eq_some.mp ho
          exact (τ.scene.setValue_rewrites id v t ht).alike
      | setBaseValue id v =>
          obtain ⟨t, ht, rfl⟩ := map_toOption_eq_some.mp ho
          exact (τ.scene.setBaseValue_rewrites id v t ht).alike
      | setDisplay id handle =>
          obtain ⟨t, ht, rfl⟩ := map_toOption_eq_some.mp ho
          exact Scene.setDisplay_alike ht
      | _ => exact hedit.elim

theorem wiring_of_edits (h : Edits σ τ) : τ.scene.wiring = σ.scene.wiring :=
  (alike_of_edits h).wiring

theorem edits_of_runAll {ops : List Operation} (hops : ∀ op ∈ ops, op.IsEdit)
    (h : σ.runAll ops = some τ) : Edits σ τ := by
  induction ops generalizing σ with
  | nil =>
      obtain rfl : σ = τ := Option.some.inj h
      exact .refl
  | cons op ops ih =>
      rw [List.forall_mem_cons] at hops
      obtain ⟨hallowed, υ, hυ, hrest⟩ := runAll_cons.mp h
      exact .head ⟨op, hops.1, hallowed, hυ⟩ (ih hops.2 hrest)

/-- No handle names an extra motion. -/
theorem Sound.still (hσ : Sound σ) {h : Handle} (hh : h ∈ σ.handles) : σ.scene.Still h.id := by
  refine Scene.HasKind.still (hσ.handles h hh) ?_
  cases h <;> simp [Handle.Names, NodeKind.IsNumber]

/-- At the end of a frame everything is up to date.  Take a list that was compiled for a node
of a scene, no model being among the visited nodes, and replay it after any edits of values.
The replay succeeds, and in the scene that it leaves every visited node satisfies its
equation, with all that the equation reads taken from that same scene; every visited input
has the value supplied for it, or else the one it had before the replay. -/
theorem replay_up_to_date (hσ : Reachable σ) {h : Handle} (hh : h ∈ σ.handles) {list : SceneList}
    (hlist : (σ.scene.compile h.id).result = .ok list)
    (hplain : ∀ id, σ.scene.graph.Visited [] h.id id → σ.scene.kind id ≠ .ok .model)
    (hedits : Edits σ τ) (inputs : List (Option Float)) :
    ∃ f, τ.scene.replay list (suppliedBy inputs) = .ok f ∧
      ∀ id, σ.scene.graph.Visited [] h.id id → ∃ n, f.scene.node id = .ok n ∧
        f.scene.Satisfied id n ∧ Scene.Supplied τ.scene (suppliedBy inputs) f.scene id n :=
  Scene.replay_satisfied hσ.sound.wellFormed (hσ.sound.still hh) hlist hplain
    (wiring_of_edits hedits) (suppliedBy inputs)

/-- A part in a part, with an extra motion and with a pin, and a value that adds an input to the
abscissa of the pin. -/
def placedPin : List Operation :=
  [.part, .setPartAttribute 3 .x 100.0, .setPartAttribute 3 .scaleX 2.0,
    .part, .setPartAttribute 8 .scaleX 3.0, .setPartAttribute 8 .rotation 90.0,
    .setPartAttribute 8 .originX 30.0, .addTransformation 8 .translateX, .addChild 3 8,
    .pin, .setPinCoordinate 18 .x 7.0, .addChild 8 18, .pinReadback 18 .x, .readback 8 .width,
    .input 0, .calculated 1.0,
    .modify 25 [⟨.add, some (.cell 21), rfl⟩, ⟨.add, some (.cell 23), rfl⟩]]

/-- The inner part is turned less far, and is shown; its motion gets an amount. -/
def turnedBack : List Operation :=
  [.setBaseValue 12 45.0, .setBaseValue 16 4.0, .setDisplay 8 7]

set_option synthInstance.maxSize 512 in
/-- A frame of the scene of `placedPin`, for a list that was compiled before `turnedBack`. -/
theorem placedPin_run : ∃ σ ∈ (start 100.0).runAll placedPin,
    ∃ list ∈ (σ.scene.compile 25).result.toOption, ∃ τ ∈ σ.runAll turnedBack,
    ∃ f ∈ (τ.scene.replay list (suppliedBy [some 6.0])).toOption,
      Handle.calculated 25 ∈ σ.handles ∧ NodeKind.model ∉ σ.scene.nodes.toList.map Node.kind ∧
      [25, 27, 26, 21, 18, 8, 3].IsChain (fun id id' =>
        id' ∈ Requirement.nodes (σ.scene.graph.requirements [] id)) ∧
      (∃ outer ∈ f.scene.nodes[3]?.bind Node.part?,
        outer.container.parent = none ∧ outer.container.transformations = [] ∧
        Scene.placementAttributes.map (f.scene.partNumber outer) = [100.0, 0.0, 2.0, 1.0, 0.0]) ∧
      (∃ inner ∈ f.scene.nodes[8]?.bind Node.part?,
        inner.container.parent = some 3 ∧ inner.container.transformations = [17] ∧
        Scene.placementAttributes.map (f.scene.partNumber inner) = [0.0, 0.0, 3.0, 1.0, 45.0] ∧
        [.originX, .originY, .width, .height].map (f.scene.partNumber inner) =
          [30.0, 0.0, 100.0, 100.0] ∧ inner.readbacks .width = some 22) ∧
      (∃ motion ∈ f.scene.nodes[17]?.bind Node.transformation?,
        motion.motion = .translateX ∧ f.scene.number motion.amount = 4.0) ∧
      (∃ pin ∈ f.scene.nodes[18]?.bind Node.pin?,
        pin.parent = some 8 ∧ pin.readbacks .x = some 21 ∧
        f.scene.slotNumber (pin.coordinates .x) = 7.0 ∧
        f.scene.slotNumber (pin.coordinates .y) = 0.0) ∧
      (∃ sum ∈ f.scene.nodes[25]?.bind Node.calculated?,
        f.scene.number sum.base = 1.0 ∧ sum.modifiers = [26, 27]) ∧
      f.scene.nodes[26]?.bind Node.link? = some (.add, some 21) ∧
      f.scene.nodes[27]?.bind Node.link? = some (.add, some 23) ∧ f.scene.number 23 = 6.0 := by
  decide +kernel

/-- Where the inner part stands, what shows its width and its pin, and the sum. -/
theorem replay_up_to_date_placedPin : ∃ σ τ list f working content,
    (start 100.0).runAll placedPin = some σ ∧ (σ.scene.compile 25).result = .ok list ∧
    σ.runAll turnedBack = some τ ∧ τ.scene.replay list (suppliedBy [some 6.0]) = .ok f ∧
    f.scene.working 8 = .ok working ∧ f.scene.placement 8 = .ok content ∧
    working = ((Matrix.placement 0.0 0.0 3.0 1.0 45.0).moved .translateX 4.0).concat
      (Matrix.placement 100.0 0.0 2.0 1.0 0.0) ∧
    content = working.fromOrigin 30.0 0.0 ∧
    f.scene.value 22 = .ok (Readback.width.reading content 100.0 100.0) ∧
    f.scene.value 21 = .ok (content.image ⟨7.0, 0.0⟩).x ∧
    f.scene.value 25 = .ok (1.0 + (content.image ⟨7.0, 0.0⟩).x + 6.0) := by
  obtain ⟨σ, hσ, list, hlist, τ, hτ, f, hf, hhandle, hmodel, hpath,
    ⟨outer, houter, houterParent, houterMotions, houterNumbers⟩,
    ⟨inner, hinner, hinnerParent, hinnerMotions, hinnerNumbers, hcontentNumbers, hwidth⟩,
    ⟨motion, hmotion, hkind, hamount⟩, ⟨pin, hpin, hpinParent, hpinCell, hpinX, hpinY⟩,
    ⟨sum, hsum, hbase, hlinks⟩, hfirst, hsecond, hinput⟩ := placedPin_run
  have hlist := toOption_eq_some.mp hlist
  have hf := toOption_eq_some.mp hf
  have hedits : Edits σ τ := edits_of_runAll (by simp [turnedBack, Operation.IsEdit]) hτ
  obtain ⟨f', hf', hsatisfied⟩ := replay_up_to_date ⟨100.0, runs_of_runAll hσ⟩ hhandle hlist
    (fun id _ => Scene.kind_ne hmodel id) hedits [some 6.0]
  obtain rfl := Except.ok.inj (hf.symm.trans hf')
  have hvisited := hpath.induction (σ.scene.graph.Visited [] 25) _
    (fun _ _ hmem hid => hid.required (RenderGraph.mem_nodes.mp hmem)) fun _ => .resolved .root
  have hequation : ∀ id n, id ∈ [25, 27, 26, 21, 18, 8, 3] → f.scene.node id = .ok n →
      f.scene.Satisfied id n := by
    intro id n hid hn
    obtain ⟨n', hn', hsat, -⟩ := hsatisfied id (hvisited id hid)
    exact Scene.node_unique hn' hn ▸ hsat
  have houter := hequation 3 _ (by simp) (Scene.node_of_bind Node.part?_eq_some houter)
  have hinner := hequation 8 _ (by simp) (Scene.node_of_bind Node.part?_eq_some hinner)
  have hpin := hequation 18 _ (by simp) (Scene.node_of_bind Node.pin?_eq_some hpin)
  have hsum := hequation 25 _ (by simp) (Scene.node_of_bind Node.calculated?_eq_some hsum)
  have hparent : f.scene.matrix 3 = Matrix.placement 100.0 0.0 2.0 1.0 0.0 := by
    rw [Scene.matrix_of_working houter.1, Scene.composed_of_attributes houterNumbers, houterParent,
      houterMotions]
    rfl
  have hmoved : ∀ m, f.scene.moved m 17 = m.moved .translateX 4.0 := by
    intro m
    rw [Scene.moved, hmotion, ← hkind, ← hamount]
  obtain ⟨hworking, hplacement, hshows⟩ := hinner
  have hcomposed : f.scene.composed inner =
      ((Matrix.placement 0.0 0.0 3.0 1.0 45.0).moved .translateX 4.0).concat
        (Matrix.placement 100.0 0.0 2.0 1.0 0.0) := by
    rw [Scene.composed_of_attributes hinnerNumbers, hinnerParent, hinnerMotions, ← hparent,
      ← hmoved]
    rfl
  simp only [List.map_cons, List.map_nil, List.cons.injEq] at hcontentNumbers
  obtain ⟨horiginX, horiginY, hinnerWidth, hinnerHeight, -⟩ := hcontentNumbers
  have hcontents : f.scene.contents inner = (f.scene.composed inner).fromOrigin 30.0 0.0 := by
    rw [Scene.contents, horiginX, horiginY]
  have hpinned : f.scene.value 21 = .ok ((f.scene.contents inner).image ⟨7.0, 0.0⟩).x := by
    have hposition := hpin 8 _ hpinParent hplacement .x 21 hpinCell
    rw [hpinX, hpinY] at hposition
    exact hposition
  have hadds : ∀ {link operand running}, f.scene.nodes[link]?.bind Node.link? =
      some (.add, some operand) → f.scene.link running link = running + f.scene.number operand := by
    intro link operand running hlink
    rw [Scene.link, hlink]
    rfl
  refine ⟨σ, τ, list, f, f.scene.composed inner, f.scene.contents inner, hσ, hlist, hτ, hf,
    hworking, hplacement, hcomposed, hcontents, ?_, hpinned, ?_⟩
  · rw [hshows .width 22 hwidth, hinnerWidth, hinnerHeight]
  · rw [hsum (by simp [hlinks]), Scene.chainNumber, hlinks, hbase, List.foldl_cons,
      List.foldl_cons, List.foldl_nil, hadds hfirst, hadds hsecond, Scene.number_of_value hpinned,
      hinput]

end Session

end SceneGraph
