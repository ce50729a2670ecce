/-!
A play/pause clock driven by the time stamps of animation frames.

The value starts at zero with the first frame after the clock was set playing and freezes
when it is paused.  Playing again goes on from the frozen value.  A hook may listen to the
clock; it is named by a tag, and every operation reports the calls it makes.
-/

namespace SceneGraph

structure FrameClock (α τ : Type) where
  playing : Bool
  /-- Elapsed time as of the last frame. -/
  value : α
  /-- Time stamp of the first frame since the clock was last set playing. -/
  start : Option α
  /-- Elapsed time before that frame. -/
  offset : α
  hook : Option τ
  deriving DecidableEq

namespace FrameClock

/-- What an operation has to say about the clock's state. -/
inductive Note (α : Type) where
  | playingFrom (offset : α)
  | pausedAt (value : α)
  deriving DecidableEq

/-- The clock after an operation, the calls of its hook, and what there is to note. -/
structure Reaction (α τ : Type) where
  clock : FrameClock α τ
  calls : List (τ × α) := []
  notes : List (Note α) := []
  deriving DecidableEq

variable {α τ : Type}

/-- A paused clock at zero that nothing listens to. -/
def stopped [Zero α] : FrameClock α τ :=
  ⟨false, 0, none, 0, none⟩

def withHook (c : FrameClock α τ) (tag : τ) : FrameClock α τ :=
  { c with hook := some tag }

def withoutHook (c : FrameClock α τ) : FrameClock α τ :=
  { c with hook := none }

/-- The call that tells the hook, if there is one, the present value. -/
def notify (c : FrameClock α τ) : List (τ × α) :=
  c.hook.toList.map fun tag => (tag, c.value)

/-- Sets a paused clock playing.  The hook hears at once where it goes on from; the next
frame is the new start. -/
def play (c : FrameClock α τ) : Reaction α τ :=
  if c.playing then
    { clock := c }
  else
    let next := { c with playing := true, start := none, value := c.offset }
    { clock := next, calls := next.notify, notes := [.playingFrom c.offset] }

/-- Freezes a playing clock at its value. -/
def pause (c : FrameClock α τ) : Reaction α τ :=
  if c.playing then
    { clock := { c with playing := false, offset := c.value, start := none }
      notes := [.pausedAt c.value] }
  else
    { clock := c }

/-- Advances a playing clock to a time stamp. -/
def frame [Add α] [Sub α] (c : FrameClock α τ) (now : α) : Reaction α τ :=
  if c.playing then
    let start := c.start.getD now
    let next := { c with start := some start, value := c.offset + now - start }
    { clock := next, calls := next.notify }
  else
    { clock := c }

/-- What a frame tells the host: the value while playing, nothing while paused. -/
def reading (c : FrameClock α τ) : Option α :=
  if c.playing then some c.value else none

end FrameClock

end SceneGraph
