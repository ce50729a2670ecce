import SceneGraph.RenderGraph.Text
import SceneGraph.Scene.Model

/-!
The wording of scenes: nodes, commands and what is noted during an operation.
-/

namespace SceneGraph

namespace NodeId

def text (id : NodeId) : String :=
  Wording.wrapped "NodeId" (toString id)

def listText (ids : List NodeId) : String :=
  Wording.list (ids.map text)

end NodeId

def Modifier.text : Modifier → String
  | .add => "Add"
  | .subtract => "Subtract"
  | .multiply => "Multiply"
  | .pow => "Pow"
  | .divide => "Divide"
  | .remainder => "Remainder"
  | .assign => "Assign"
  | .floor => "Floor"
  | .ceil => "Ceil"
  | .round => "Round"

def Motion.text : Motion → String
  | .translateX => "TranslateX"
  | .translateY => "TranslateY"
  | .scaleX => "ScaleX"
  | .scaleY => "ScaleY"
  | .rotate => "Rotate"

def NodeKind.text : NodeKind → String
  | .scalar => "Scalar"
  | .input => "Input"
  | .calculated => "Calculated"
  | .modified => "Modified"
  | .transformation => "Transformation"
  | .part => "Part"
  | .model => "Model"
  | .pin => "Pin"
  | .pinnedPart => "PinnedPart"

/-- The text of a step, as a record of the nodes it names. -/
def Step.text : Step → String
  | .modify dest op target operand =>
    Wording.record "Modify" [("dest", NodeId.text dest), ("op", op.text),
      ("target", NodeId.text target), ("modifier", Wording.option (operand.map NodeId.text))]
  | .assign dest source =>
    Wording.record "AssignFrom" [("dest", NodeId.text dest), ("source", NodeId.text source)]
  | .compose part cells =>
    Wording.record "ComposeFromAttributes"
      [("part", NodeId.text part), ("inputs", NodeId.listText cells.toList)]
  | .transform owner motion amount =>
    Wording.record "Transform"
      [("owner", NodeId.text owner), ("op", motion.text), ("value", NodeId.text amount)]
  | .concatParent part parent =>
    Wording.record "ConcatParent"
      [("part", NodeId.text part), ("parent", NodeId.text parent)]
  | .placeContent part originX originY =>
    Wording.record "UpdateContentMatrix"
      [("part", NodeId.text part), ("origin", NodeId.listText [originX, originY])]
  | .solvePins part pins width height =>
    Wording.record "ComposeFromPins"
      [("part", NodeId.text part),
       ("points", Wording.list (pins.map fun c => NodeId.listText c.toList)),
       ("size", NodeId.listText [width, height])]
  | .showPart part => Wording.wrapped "RenderPart" (NodeId.text part)
  | .showPin pin => Wording.wrapped "RenderPin" (NodeId.text pin)
  | .showPinnedPart part => Wording.wrapped "RenderPinnedPart" (NodeId.text part)

def InputBinding.text (b : InputBinding NodeId) : String :=
  Wording.record "InputBinding"
    [("node", NodeId.text b.node), ("index", toString b.index.toNat)]

mutual

/-- The text of a command; that of a nested list is part of it. -/
def Command.text : Command → String
  | .step s => Wording.wrapped "SceneCommand" s.text
  | .replayModel model list =>
    Wording.wrapped "SceneCommand"
      (Wording.record "RenderModel" [("model", NodeId.text model), ("list", listText list)])

/-- The text of a list. -/
def Command.listText : CommandList NodeId Command → String
  | ⟨root, commands, bindings⟩ =>
    Wording.record "RenderCommandList"
      [("root", NodeId.text root), ("commands", Wording.list (texts commands)),
       ("inputs", Wording.list (bindings.map InputBinding.text))]

/-- The texts of commands, in order. -/
def Command.texts : List Command → List String
  | [] => []
  | c :: cs => c.text :: texts cs

end

def SceneEvent.line : SceneEvent → String
  | .compile e => e.line NodeId.text Command.text
  | .stale model generation =>
    "DEBUG model " ++ NodeId.text model ++ " is stale at generation " ++
      toString generation.toNat ++ ", recompiling"
  | .cached model generation commands =>
    "DEBUG model " ++ NodeId.text model ++ " compiled at generation " ++
      toString generation.toNat ++ ": " ++ toString commands ++ " commands"

end SceneGraph
