import SceneGraph.RenderGraph.Compile
import SceneGraph.RenderGraph.Text

/-!
Render graphs given as tables.

A row answers for one node, with one set of answers while the node is isolated and another
while it is not.  A node without a row has nothing to say.  Commands are opaque texts, except
that one can record the stack of isolated nodes and one can be the list of another node.
-/

namespace SceneGraph

/-- The contribution of a row, before it is known where the row is asked. -/
inductive TableEntry where
  | text (s : String)
  | stack
  | embed (n : Nat)
  deriving DecidableEq

/-- The command of a table. -/
inductive TableCommand where
  | text (s : String)
  /-- The isolated nodes at the time the command was made. -/
  | stack (isolated : List Nat)
  | list (l : CommandList Nat TableCommand)

/-- The text of a command.  A list goes by its root. -/
def TableCommand.describe : TableCommand → String
  | .text s => s
  | .stack isolated => "stack" ++ Wording.list (isolated.map toString)
  | .list l => Wording.wrapped "list" (toString l.root)

/-- The answers of a row in one of its two roles. -/
structure TableAnswers where
  requirements : List (Requirement Nat TableCommand) := []
  entries : List TableEntry := []
  children : List Nat := []

structure TableRow where
  node : Nat
  outer : TableAnswers
  inner : TableAnswers
  input : Option InputIndex

/-- Rows in order; of two rows for one node the later counts. -/
structure Table where
  rows : List TableRow

namespace TableAnswers

/-- The nodes that some answers mention. -/
def mentioned (a : TableAnswers) : List Nat :=
  Requirement.nodes a.requirements ++
    (a.entries.filterMap fun
      | .embed n => some n
      | _ => none) ++ a.children

end TableAnswers

namespace Table

def row? (t : Table) (n : Nat) : Option TableRow :=
  t.rows.reverse.find? fun r => decide (r.node = n)

/-- The row's answers in the role that the stack of isolated nodes gives it. -/
def answers (t : Table) (isolated : List Nat) (n : Nat) : TableAnswers :=
  match t.row? n with
  | some r => if n ∈ isolated then r.inner else r.outer
  | none => {}

/-- Every node with a row or mentioned in one. -/
def nodes (t : Table) : List Nat :=
  t.rows.flatMap fun r => r.node :: (r.outer.mentioned ++ r.inner.mentioned)

/-- The contribution that an entry makes for a stack of isolated nodes. -/
def contribution (isolated : List Nat) : TableEntry → Contribution Nat TableCommand
  | .text s => .command (.text s)
  | .stack => .command (.stack isolated)
  | .embed n => .embed n

/-- The graph of a table, as seen from a root. -/
def graph (t : Table) (root : Nat) : RenderGraph Nat TableCommand where
  nodes := (root :: t.nodes).eraseDups
  requirements isolated n := (t.answers isolated n).requirements
  contributions isolated n := (t.answers isolated n).entries.map (contribution isolated)
  children isolated n := (t.answers isolated n).children
  inputIndex n := (t.row? n).bind TableRow.input
  embed := .list

def compile (t : Table) (root : Nat) : Compiling Nat TableCommand (CommandList Nat TableCommand) :=
  (t.graph root).compile root

end Table

/-- What the replay of a table's list does. -/
inductive ReplayEvent where
  | write (node : Nat) (value : Float)
  | execute (c : TableCommand)
  /-- A nested list begins. -/
  | enter (root : Nat)
  | leave (root : Nat)

/-- The writes of a list, as events. -/
def ReplayEvent.writes (inputs : InputIndex → Option Float)
    (bindings : List (InputBinding Nat)) : List ReplayEvent :=
  (CommandList.writes inputs bindings).map fun w => .write w.1 w.2

mutual

/-- The events of executing a command; a nested list is replayed with the same values. -/
def TableCommand.events (inputs : InputIndex → Option Float) :
    TableCommand → List ReplayEvent
  | .list l => .enter l.root :: listEvents inputs l ++ [.leave l.root]
  | .text s => [.execute (.text s)]
  | .stack isolated => [.execute (.stack isolated)]

/-- The events of replaying a list. -/
def TableCommand.listEvents (inputs : InputIndex → Option Float) :
    CommandList Nat TableCommand → List ReplayEvent
  | ⟨_, commands, bindings⟩ => ReplayEvent.writes inputs bindings ++ allEvents inputs commands

/-- The events of executing commands in order. -/
def TableCommand.allEvents (inputs : InputIndex → Option Float) :
    List TableCommand → List ReplayEvent
  | [] => []
  | c :: cs => c.events inputs ++ allEvents inputs cs

end

end SceneGraph
