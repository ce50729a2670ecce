import SceneGraph.FrameClock.Basic
import SceneGraph.Number.Text
import SceneGraph.RenderGraph.Text

/-!
The wording of clocks.
-/

namespace SceneGraph

namespace FrameClock

/-- The log line of a note, with its level. -/
def Note.line : Note Float → String
  | .playingFrom offset =>
    "DEBUG frame ticker playing from " ++ NumberStyle.plain.write offset
  | .pausedAt value =>
    "DEBUG frame ticker paused at " ++ NumberStyle.plain.write value

/-- The state of a clock as a record. -/
def recordText {τ : Type} (c : FrameClock Float τ) : String :=
  Wording.record "FrameTicker"
    [("playing", toString c.playing),
     ("value", NumberStyle.precise.write c.value),
     ("start", Wording.option (c.start.map NumberStyle.precise.write)),
     ("offset", NumberStyle.precise.write c.offset),
     ("on_frame", toString c.hook.isSome)]

end FrameClock

end SceneGraph
