import SceneGraph.RenderGraph.Failure

/-!
The wording of cycles and compile events, given the names of nodes and commands.
-/

namespace SceneGraph

namespace Wording

/-- Items in brackets, parted by commas. -/
def list (items : List String) : String :=
  "[" ++ ", ".intercalate items ++ "]"

/-- A name and its labelled fields in braces. -/
def record (name : String) (fields : List (String × String)) : String :=
  name ++ " \x7b " ++
    ", ".intercalate (fields.map fun f => f.1 ++ ": " ++ f.2) ++ " \x7d"

/-- A name and its one field in parentheses. -/
def wrapped (name field : String) : String :=
  name ++ "(" ++ field ++ ")"

/-- A field that may be missing. -/
def option : Option String → String
  | some field => wrapped "Some" field
  | none => "None"

end Wording

variable {ν κ : Type}

namespace Cycle

/-- The message for the reader.  A path of one node says nothing that the node does not. -/
def message (name : ν → String) (c : Cycle ν) : String :=
  let path :=
    if 1 < c.path.length then
      " (" ++ " -> ".intercalate (c.path.map name) ++ ")"
    else
      ""
  "circular render dependency through " ++ name c.node ++ path

/-- The error as a record. -/
def recordText (name : ν → String) (c : Cycle ν) : String :=
  Wording.record "CycleError"
    [("node", name c.node), ("path", Wording.list (c.path.map name))]

end Cycle

/-- The log line of an event, with its level. -/
def CompileEvent.line (name : ν → String) (command : κ → String) :
    CompileEvent ν κ → String
  | .started root isolated =>
    "DEBUG compiling render list for " ++ name root ++
      " (isolated: " ++ Wording.list (isolated.map name) ++ ")"
  | .contributed n commands =>
    "TRACE " ++ name n ++ ": " ++ Wording.list (commands.map command)
  | .foundCycle root path =>
    "DEBUG cycle while compiling " ++ name root ++ ": " ++ Wording.list (path.map name)
  | .finished list =>
    "DEBUG compiled render list for " ++ name list.root ++ ": " ++
      toString list.commands.length ++ " commands, " ++
      toString list.inputs.length ++ " inputs"

end SceneGraph
