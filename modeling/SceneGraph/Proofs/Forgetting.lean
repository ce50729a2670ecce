import SceneGraph.Proofs.Wiring

/-!
What a model keeps plays no part in a replay.

Forgetting the list that a model keeps commutes with every step, so it does not matter
whether it is forgotten before a replay or after.
-/

namespace SceneGraph

section Except

variable {ε α α' β β' : Type} {x : Except ε α} {φ : α → α'} {ψ : β → β'}

theorem bind_eq_map_bind {f' : α → Except ε β'} {f : α → Except ε β}
    (hf : ∀ a, f' a = (f a).map ψ) : (x >>= f') = (x >>= f).map ψ := by
  cases x with
  | error e => rfl
  | ok a => exact hf a

theorem map_bind_eq_map_bind {f' : α' → Except ε β'} {f : α → Except ε β}
    (hf : ∀ a, f' (φ a) = (f a).map ψ) : (x.map φ >>= f') = (x >>= f).map ψ := by
  cases x with
  | error e => rfl
  | ok a => exact hf a

end Except

namespace Node

/-- Drops the list that a model keeps. -/
def forget : Node → Node :=
  mapModel fun state => { state with cached := none }

@[simp] theorem value_forget (n : Node) : n.forget.value = n.value := by
  cases n <;> rfl

@[simp] theorem container?_forget (n : Node) : n.forget.container? = n.container? := by
  cases n <;> rfl

@[simp] theorem placement?_forget (n : Node) : n.forget.placement? = n.placement? := by
  cases n <;> rfl

@[simp] theorem display?_forget (n : Node) : n.forget.display? = n.display? := by
  cases n <;> rfl

@[simp] theorem readbacks?_forget (n : Node) : n.forget.readbacks? = n.readbacks? := by
  cases n <;> rfl

@[simp] theorem pinReadback?_forget (axis : Axis) (n : Node) :
    n.forget.pinReadback? axis = n.pinReadback? axis := by
  cases n <;> rfl

@[simp] theorem sizeCellOf_forget (n : Node) (d : Dimension) :
    Scene.sizeCellOf n.forget d = Scene.sizeCellOf n d := by
  cases n <;> cases d <;> rfl

@[simp] theorem sources_forget (n : Node) :
    n.forget.model?.map ModelState.sources = n.model?.map ModelState.sources := by
  cases n with
  | part p => cases h : p.model <;> simp [forget, mapModel, model?, h]
  | _ => rfl

theorem forget_setValue (v : Float) (n : Node) : (n.setValue v).forget = n.forget.setValue v := by
  cases n <;> rfl

theorem forget_mapContainer (f : Container → Container) (n : Node) :
    (n.mapContainer f).forget = n.forget.mapContainer f := by
  cases n <;> rfl

end Node

namespace Scene

variable {s t : Scene} {ε : Type}

/-- Drops the list that one model keeps. -/
def forget (model : NodeId) (s : Scene) : Scene :=
  { s with nodes := s.nodes.modify model Node.forget }

@[simp] theorem count_forget (model : NodeId) (s : Scene) :
    (s.forget model).count = s.count := by
  simp [forget, count]

/-- What does not depend on a kept list is the same afterwards. -/
theorem node_forget_bind {α : Type} (model : NodeId) (s : Scene) (id : NodeId)
    {k : Node → Except OutOfRange α} (hk : ∀ n : Node, k n.forget = k n) :
    ((s.forget model).node id >>= k) = s.node id >>= k := by
  simp only [node, forget, Array.getElem?_modify, count, Array.size_modify]
  by_cases hid : model = id
  · cases hn : s.nodes[id]? with
    | none => simp [hid]
    | some n =>
        simp only [hid, if_true, Option.map_some]
        exact hk n
  · simp [hid]

@[simp] theorem value_forget (model : NodeId) (s : Scene) (id : NodeId) :
    (s.forget model).value id = s.value id :=
  node_forget_bind model s id fun n => by rw [Node.value_forget]

@[simp] theorem slotValue_forget (model : NodeId) (s : Scene) (slot : Option NodeId) :
    (s.forget model).slotValue slot = s.slotValue slot := by
  cases slot <;> simp [slotValue]

@[simp] theorem pinPair_forget (model : NodeId) (s : Scene) (c : PinCells) :
    (s.forget model).pinPair c = s.pinPair c := by
  simp [pinPair]

@[simp] theorem readbackValue_forget (model : NodeId) (s : Scene) (owner : NodeId)
    (r : Readback) : (s.forget model).readbackValue owner r = s.readbackValue owner r := by
  unfold readbackValue
  simp only [value_forget]
  refine node_forget_bind model s owner fun n => ?_
  simp only [Node.placement?_forget, Node.sizeCellOf_forget]

@[simp] theorem pinPosition?_forget (model : NodeId) (s : Scene) (id : NodeId) :
    (s.forget model).pinPosition? id = s.pinPosition? id := by
  unfold pinPosition?
  rw [node_forget_bind model s id (fun n => by cases n <;> rfl)]
  congr 1
  funext n
  cases n with
  | pin p =>
      cases hparent : p.parent with
      | none => simp only [hparent]
      | some parent =>
          simp only [hparent, slotValue_forget]
          exact node_forget_bind model s parent fun n => by rw [Node.placement?_forget]
  | _ => rfl

/-- Changes that do not touch kept lists commute with forgetting them. -/
theorem update_forget (model : NodeId) (s : Scene) (id : NodeId) {f : Node → Node}
    (hf : ∀ n : Node, (f n).forget = f n.forget) :
    (s.forget model).update id f = (s.update id f).map (forget model) := by
  unfold update
  rw [count_forget]
  split
  · simp only [Except.map, forget, Except.ok.injEq, mk.injEq, and_true]
    apply Array.ext_getElem?
    intro i
    simp only [Array.getElem?_modify]
    split <;> split <;> simp [Option.map_map, Function.comp_def, hf]
  · rfl

/-- `x'` is what becomes of `x` when the list was forgotten before. -/
def Forgets {ε : Type} (model : NodeId) (x' x : Except ε Scene) : Prop :=
  x' = x.map (forget model)

namespace Forgets

variable {model : NodeId} {ε : Type}

theorem pure (model : NodeId) (s : Scene) :
    Forgets model (Pure.pure (s.forget model) : Except ε Scene) (Pure.pure s) :=
  rfl

/-- What is read first is the same either way. -/
theorem read {α : Type} {x : Except ε α} {f' f : α → Except ε Scene}
    (hf : ∀ a, Forgets model (f' a) (f a)) : Forgets model (x >>= f') (x >>= f) :=
  bind_eq_map_bind hf

theorem bind {x' x : Except ε Scene} {f' f : Scene → Except ε Scene}
    (hx : Forgets model x' x) (hf : ∀ t, Forgets model (f' (t.forget model)) (f t)) :
    Forgets model (x' >>= f') (x >>= f) := by
  cases hx
  exact map_bind_eq_map_bind hf

theorem node {f' f : Node → Except OutOfRange Scene} (s : Scene) (id : NodeId)
    (hforget : ∀ n : Node, f' n.forget = f' n) (hf : ∀ n, Forgets model (f' n) (f n)) :
    Forgets model ((s.forget model).node id >>= f') (s.node id >>= f) := by
  rw [node_forget_bind model s id hforget]
  exact read hf

end Forgets

theorem setValue_forget (model : NodeId) (s : Scene) (id : NodeId) (v : Float) :
    Forgets model ((s.forget model).setValue id v) (s.setValue id v) :=
  update_forget model s id (Node.forget_setValue v)

theorem setSlotValue_forget (model : NodeId) (s : Scene) (slot : Option NodeId) (v : Float) :
    Forgets model ((s.forget model).setSlotValue slot v) (s.setSlotValue slot v) := by
  cases slot with
  | none => exact Forgets.pure model s
  | some cell => exact setValue_forget model s cell v

theorem mapWorking_forget (model : NodeId) (s : Scene) (id : NodeId)
    (f : Matrix Float → Matrix Float) :
    Forgets model ((s.forget model).mapWorking id f) (s.mapWorking id f) :=
  update_forget model s id (Node.forget_mapContainer _)

theorem refreshReadback_forget (model : NodeId) (owner : NodeId) (slots : Slots Readback)
    (s : Scene) (r : Readback) :
    Forgets model (refreshReadback owner slots (s.forget model) r)
      (refreshReadback owner slots s r) := by
  unfold refreshReadback
  cases slots r with
  | none => exact Forgets.pure model s
  | some cell =>
      simp only [readbackValue_forget]
      exact Forgets.read fun v => setValue_forget model s cell v

theorem refreshReadbacks_forget (model : NodeId) (s : Scene) (owner : NodeId) :
    Forgets model ((s.forget model).refreshReadbacks owner) (s.refreshReadbacks owner) := by
  have hloop : ∀ (slots : Slots Readback) (l : List Readback) (s : Scene),
      Forgets model (l.foldlM (refreshReadback owner slots) (s.forget model))
        (l.foldlM (refreshReadback owner slots) s) := by
    intro slots l
    induction l with
    | nil => exact Forgets.pure model
    | cons r l ih =>
        intro s
        simp only [List.foldlM_cons]
        exact (refreshReadback_forget model owner slots s r).bind ih
  refine Forgets.node s owner (fun n => by rw [Node.readbacks?_forget]) fun n => ?_
  cases n.readbacks? with
  | none => exact Forgets.pure model s
  | some slots => exact hloop slots Readback.all s

theorem refreshPin_forget (model : NodeId) (s : Scene) (id : NodeId) :
    Forgets model ((s.forget model).refreshPin id) (s.refreshPin id) := by
  unfold refreshPin
  rw [pinPosition?_forget]
  refine Forgets.read fun position => ?_
  cases position with
  | none => exact Forgets.pure model s
  | some world =>
      refine Forgets.node s id (fun n => by simp only [Node.pinReadback?_forget]) fun n => ?_
      exact (setSlotValue_forget model s _ _).bind fun t => setSlotValue_forget model t _ _

@[simp] theorem suppliedInputs_forget (model : NodeId) (s : Scene) (id : NodeId) :
    (s.forget model).suppliedInputs id = s.suppliedInputs id := by
  unfold suppliedInputs
  simp only [value_forget]
  exact node_forget_bind model s id fun n => by rw [Node.sources_forget]

end Scene

open Scene (Forgets)

theorem Step.change_forget (model : NodeId) (s : Scene) (step : Step) :
    Forgets model (step.change (s.forget model)) (step.change s) := by
  cases step with
  | modify dest op target operand =>
      simp only [Step.change, Scene.value_forget, Scene.slotValue_forget]
      exact Forgets.read fun running => Forgets.read fun v => Scene.setValue_forget model s dest _
  | assign dest source =>
      simp only [Step.change, Scene.value_forget]
      exact Forgets.read fun v => Scene.setValue_forget model s dest v
  | compose part c =>
      simp only [Step.change, Scene.value_forget]
      exact Forgets.read fun x => Forgets.read fun y => Forgets.read fun scaleX =>
        Forgets.read fun scaleY => Forgets.read fun rotation =>
          Scene.mapWorking_forget model s part _
  | transform owner motion amount =>
      simp only [Step.change, Scene.value_forget]
      exact Forgets.read fun v => Scene.mapWorking_forget model s owner _
  | concatParent part parent =>
      refine Forgets.node s parent (fun n => by simp only [Node.container?_forget]) fun n => ?_
      cases n.container? with
      | none => exact Forgets.pure model s
      | some c => exact Scene.mapWorking_forget model s part _
  | placeContent part originX originY =>
      simp only [Step.change, Scene.value_forget]
      exact Forgets.read fun x => Forgets.read fun y =>
        Scene.update_forget model s part (Node.forget_mapContainer _)
  | solvePins part pins width height =>
      have hpairs : (s.forget model).pinPair = s.pinPair :=
        funext fun c => Scene.pinPair_forget model s c
      simp only [Step.change, Scene.value_forget, hpairs]
      exact Forgets.read fun pairs => Forgets.read fun w => Forgets.read fun h =>
        Scene.mapWorking_forget model s part _
  | showPart id => exact Scene.refreshReadbacks_forget model s id
  | showPin id => exact Scene.refreshPin_forget model s id
  | showPinnedPart id => exact Scene.refreshReadbacks_forget model s id

/-- Drops the list that one model keeps, also from what the host was shown. -/
def Frame.forget (model : NodeId) (f : Frame) : Frame where
  scene := f.scene.forget model
  calls := f.calls.map fun call => { call with scene := call.scene.forget model }

namespace Frame

variable (model : NodeId)

theorem present_forget (f : Frame) (shown : Shown) :
    (f.forget model).present shown = (f.present shown).map (forget model) := by
  unfold present
  refine (Scene.node_forget_bind model f.scene shown.node
    fun n => by simp only [Node.display?_forget]).trans ?_
  refine bind_eq_map_bind fun n => ?_
  cases n.display? with
  | none => rfl
  | some handle =>
      simp only [pure, Except.pure, Except.map, forget, List.map_append, List.map_cons,
        List.map_nil]

theorem run_step_forget (f : Frame) (step : Step) :
    step.run (f.forget model) = (step.run f).map (forget model) := by
  have hchange : step.change (f.forget model).scene =
      (step.change f.scene).map (Scene.forget model) :=
    Step.change_forget model f.scene step
  unfold Step.run
  rw [hchange]
  refine map_bind_eq_map_bind fun t => ?_
  cases step.shown? with
  | none => rfl
  | some shown => exact present_forget model (f.withScene t) shown

theorem write_forget (f : Frame) (w : NodeId × Float) :
    (f.forget model).write w = (f.write w).map (forget model) := by
  have hset : (f.forget model).scene.setValue w.1 w.2 =
      (f.scene.setValue w.1 w.2).map (Scene.forget model) :=
    Scene.setValue_forget model f.scene w.1 w.2
  unfold write
  rw [hset]
  cases f.scene.setValue w.1 w.2 <;> rfl

theorem writes_forget (writes : List (NodeId × Float)) (f : Frame) :
    writes.foldlM write (f.forget model) = (writes.foldlM write f).map (forget model) := by
  induction writes generalizing f with
  | nil => rfl
  | cons w writes ih =>
      simp only [List.foldlM_cons, write_forget]
      exact map_bind_eq_map_bind ih

mutual

theorem run_forget (f : Frame) :
    (c : Command) → c.run (f.forget model) = (c.run f).map (forget model)
  | .step s => run_step_forget model f s
  | .replayModel id list => by
      have hinputs : (f.forget model).scene.suppliedInputs id = f.scene.suppliedInputs id :=
        Scene.suppliedInputs_forget model f.scene id
      simp only [Command.run, hinputs]
      exact bind_eq_map_bind fun inputs => runList_forget _ f list

theorem runList_forget (inputs : InputIndex → Option Float) (f : Frame) :
    (list : SceneList) → Command.runList inputs (f.forget model) list =
      (Command.runList inputs f list).map (forget model)
  | ⟨_, commands, bindings⟩ => by
      simp only [Command.runList, writes_forget]
      exact map_bind_eq_map_bind fun f => runAll_forget f commands

theorem runAll_forget (f : Frame) :
    (cs : List Command) → Command.runAll (f.forget model) cs =
      (Command.runAll f cs).map (forget model)
  | [] => rfl
  | c :: cs => by
      simp only [Command.runAll, run_forget f c]
      exact map_bind_eq_map_bind fun f => runAll_forget f cs

end

end Frame

/-- Forgetting a kept list before a replay amounts to forgetting it afterwards. -/
theorem Scene.replay_forget (model : NodeId) (s : Scene) (list : SceneList)
    (inputs : InputIndex → Option Float) :
    (s.forget model).replay list inputs = (s.replay list inputs).map (Frame.forget model) := by
  have hrun := Frame.runList_forget model inputs { scene := s } list
  simp only [Command.runList_eq_replay] at hrun
  exact hrun

end SceneGraph
