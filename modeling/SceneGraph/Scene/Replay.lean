import SceneGraph.Scene.Readback
import SceneGraph.Scene.Dependencies

/-!
Replaying compiled lists on a scene.

A replay changes the scene command by command.  Each node that carries a display handle is
shown when its command is executed: what the host gets to see is the scene at that moment.
-/

namespace SceneGraph

/-- A node that is being shown. -/
inductive Shown where
  /-- A part or a model. -/
  | part (id : NodeId)
  | pin (id : NodeId)
  | pinnedPart (id : NodeId)
  deriving DecidableEq

def Shown.node : Shown → NodeId
  | .part id | .pin id | .pinnedPart id => id

/-- One call to the host: a node is up to date and wants to be drawn. -/
structure DisplayCall where
  handle : DisplayHandle
  shown : Shown
  /-- The scene at the time of the call. -/
  scene : Scene

/-- A replay so far. -/
structure Frame where
  scene : Scene
  calls : List DisplayCall := []

namespace Scene

/-- The present numbers of some cells. -/
def pinPair (s : Scene) (c : PinCells) : Except OutOfRange (PinPair Float) := do
  let ox ← s.value c.originX
  let oy ← s.value c.originY
  let tx ← s.value c.targetX
  let ty ← s.value c.targetY
  pure ⟨⟨ox, oy⟩, ⟨tx, ty⟩⟩

/-- Changes the working matrix of a container. -/
def mapWorking (s : Scene) (id : NodeId) (f : Matrix Float → Matrix Float) :
    Except OutOfRange Scene :=
  s.update id (Node.mapContainer fun c => { c with working := f c.working })

/-- The working matrix of a part on its own: scaled, then rotated, then translated. -/
def placed (x y scaleX scaleY rotation : Float) : Matrix Float :=
  ((Matrix.identity.scale scaleX scaleY).rotate
    (Turn.ofRadians (Angle.ofDegrees rotation))).translate x y

/-- The content matrix that goes with a working matrix. -/
def contentOf (originX originY : Float) (working : Matrix Float) : Matrix Float :=
  (Matrix.identity.translate (-originX) (-originY)).concat working

/-- The present values of a model's inputs. -/
def suppliedInputs (s : Scene) (model : NodeId) :
    Except OutOfRange (List (InputIndex × Float)) := do
  let sources := ((← s.node model).model?.map ModelState.sources).getD []
  sources.mapM fun entry => do return (entry.1, ← s.value entry.2)

end Scene

namespace Frame

/-- Goes on with another scene. -/
def withScene (f : Frame) (s : Scene) : Frame :=
  { f with scene := s }

/-- Tells the host about a node that carries a display handle. -/
def present (f : Frame) (shown : Shown) : Except OutOfRange Frame := do
  match (← f.scene.node shown.node).display? with
  | some handle => pure { f with calls := f.calls ++ [⟨handle, shown, f.scene⟩] }
  | none => pure f

/-- Writes a supplied value. -/
def write (f : Frame) (w : NodeId × Float) : Except OutOfRange Frame :=
  f.withScene <$> f.scene.setValue w.1 w.2

end Frame

/-- The scene after a step that shows nothing. -/
def Step.change (s : Scene) : Step → Except OutOfRange Scene
  | .modify dest op target operand => do
    let running ← s.value target
    let operand ← s.slotValue operand
    s.setValue dest (op.apply running operand)
  | .assign dest source => do s.setValue dest (← s.value source)
  | .compose part c => do
    let x ← s.value c.x
    let y ← s.value c.y
    let scaleX ← s.value c.scaleX
    let scaleY ← s.value c.scaleY
    let rotation ← s.value c.rotation
    s.mapWorking part fun _ => Scene.placed x y scaleX scaleY rotation
  | .transform owner motion amount => do
    let amount ← s.value amount
    s.mapWorking owner fun m => motion.append m amount
  | .concatParent part parent => do
    match (← s.node parent).container? with
    | some c => s.mapWorking part fun m => m.concat c.working
    | none => pure s
  | .placeContent part originX originY => do
    let originX ← s.value originX
    let originY ← s.value originY
    s.update part (Node.mapContainer fun c =>
      { c with content := Scene.contentOf originX originY c.working })
  | .solvePins part pins width height => do
    let pins ← pins.mapM s.pinPair
    let width ← s.value width
    let height ← s.value height
    s.mapWorking part fun _ => SceneGraph.solvePins pins ⟨width, height⟩
  | .showPart id | .showPinnedPart id => s.refreshReadbacks id
  | .showPin id => s.refreshPin id

/-- The node that a step shows. -/
def Step.shown? : Step → Option Shown
  | .showPart id => some (.part id)
  | .showPin id => some (.pin id)
  | .showPinnedPart id => some (.pinnedPart id)
  | _ => none

/-- Executes a step: changes the scene, then shows what there is to show. -/
def Step.run (f : Frame) (step : Step) : Except OutOfRange Frame := do
  let f := f.withScene (← step.change f.scene)
  match step.shown? with
  | some shown => f.present shown
  | none => pure f

mutual

/-- Executes a command.  A model's list gets the values that the model's sources have now. -/
def Command.run (f : Frame) : Command → Except OutOfRange Frame
  | .step s => s.run f
  | .replayModel model list => do
    let inputs ← f.scene.suppliedInputs model
    runList (fun index => inputs.lookup index) f list

/-- Writes the supplied values of a list, then executes its commands. -/
def Command.runList (inputs : InputIndex → Option Float) (f : Frame) :
    CommandList NodeId Command → Except OutOfRange Frame
  | ⟨_, commands, bindings⟩ => do
    let f ← (CommandList.writes inputs bindings).foldlM Frame.write f
    runAll f commands

/-- Executes commands in order. -/
def Command.runAll (f : Frame) : List Command → Except OutOfRange Frame
  | [] => pure f
  | c :: cs => do runAll (← c.run f) cs

end

theorem Command.runAll_eq_foldlM (commands : List Command) (f : Frame) :
    Command.runAll f commands = commands.foldlM Command.run f := by
  induction commands generalizing f with
  | nil => simp [Command.runAll]
  | cons c cs ih => simp [Command.runAll, ih]

/-- Nested lists are replayed like any other. -/
theorem Command.runList_eq_replay (inputs : InputIndex → Option Float) (f : Frame)
    (list : SceneList) :
    Command.runList inputs f list = list.replay Frame.write Command.run inputs f := by
  cases list
  simp [Command.runList, CommandList.replay, Command.runAll_eq_foldlM]

/-- Replays a list on a scene. -/
def Scene.replay (s : Scene) (list : SceneList) (inputs : InputIndex → Option Float) :
    Except OutOfRange Frame :=
  list.replay Frame.write Command.run inputs { scene := s }

end SceneGraph
