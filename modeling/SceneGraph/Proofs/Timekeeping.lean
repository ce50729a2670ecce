import Mathlib.Algebra.BigOperators.Group.List.Basic
import Mathlib.Algebra.Order.Group.Unbundled.Basic
import Mathlib.Algebra.Order.Ring.Int
import Mathlib.Data.List.Induction
import SceneGraph.FrameClock.Basic

/-!
The value of a clock, accounted for by the segments of a run in which it played, in exact
arithmetic.

A segment lies between an event that sets a paused clock playing and the next pause.  What
counts of it are the time stamps of its frames: it adds the time from the first to the last.
-/

namespace SceneGraph

namespace FrameClock

/-- What a host does to a clock. -/
inductive Event (α τ : Type) where
  | play
  | pause
  | frame (now : α)
  /-- Installs a hook, in place of any other. -/
  | listen (tag : τ)
  /-- Removes the hook. -/
  | silence
  deriving DecidableEq

/-- The segments of a run, each as the time stamps of its frames. -/
structure Tape (α : Type) where
  done : List (List α)
  /-- The segment that still plays. -/
  current : Option (List α)

variable {α τ : Type}

section Recording

/-- A redundant play goes on with the segment that plays, and a redundant pause ends none. -/
def Tape.record (t : Tape α) : Event α τ → Tape α
  | .play => { t with current := some (t.current.getD []) }
  | .pause => ⟨t.done ++ t.current.toList, none⟩
  | .frame now => { t with current := t.current.map (· ++ [now]) }
  | .listen _ | .silence => t

def tape (events : List (Event α τ)) : Tape α :=
  events.foldl Tape.record ⟨[], none⟩

def Tape.segments (t : Tape α) : List (List α) :=
  t.done ++ t.current.toList

/-- Within each segment, time never goes back. -/
def Tape.InOrder [LE α] (t : Tape α) : Prop :=
  ∀ segment ∈ t.segments, segment.Pairwise (· ≤ ·)

instance [LE α] [DecidableLE α] (t : Tape α) : Decidable t.InOrder :=
  inferInstanceAs (Decidable (∀ segment ∈ t.segments, segment.Pairwise (· ≤ ·)))

/-- The time from the first frame of a segment to its last. -/
def span [Zero α] [Sub α] : List α → α
  | [] => 0
  | first :: rest => rest.getLastD first - first

/-- The hook after an event. -/
def Event.tune (hook : Option τ) : Event α τ → Option τ
  | .listen tag => some tag
  | .silence => none
  | .play | .pause | .frame _ => hook

/-- The hook that a run leaves installed. -/
def listener (events : List (Event α τ)) : Option τ :=
  events.foldl Event.tune none

/-- Whether a hook is called at an event. -/
def Event.isHeard (playing : Bool) : Event α τ → Bool
  | .play => !playing
  | .frame _ => playing
  | .pause | .listen _ | .silence => false

end Recording

section Running

variable [Add α] [Sub α]

def react (c : FrameClock α τ) : Event α τ → Reaction α τ
  | .play => c.play
  | .pause => c.pause
  | .frame now => c.frame now
  | .listen tag => { clock := c.withHook tag }
  | .silence => { clock := c.withoutHook }

/-- One more event, after what a clock has reported so far. -/
def Reaction.next (r : Reaction α τ) (e : Event α τ) : Reaction α τ :=
  let reaction := r.clock.react e
  ⟨reaction.clock, r.calls ++ reaction.calls, r.notes ++ reaction.notes⟩

/-- Executes a run from a fresh clock. -/
def run [Zero α] (events : List (Event α τ)) : Reaction α τ :=
  events.foldl Reaction.next { clock := stopped }

end Running

section Appending

@[simp]
theorem tape_concat (events : List (Event α τ)) (e : Event α τ) :
    tape (events ++ [e]) = (tape events).record e := by
  simp [tape]

@[simp]
theorem listener_concat (events : List (Event α τ)) (e : Event α τ) :
    listener (events ++ [e]) = e.tune (listener events) := by
  simp [listener]

@[simp]
theorem run_concat [Add α] [Sub α] [Zero α] (events : List (Event α τ)) (e : Event α τ) :
    run (events ++ [e]) = (run events).next e := by
  simp [run]

/-- An event opens a segment, adds a frame to the last one, or leaves the segments alone. -/
theorem Tape.segments_record (t : Tape α) (e : Event α τ) :
    (t.record e).segments = t.segments ∨ (t.record e).segments = t.segments ++ [[]] ∨
      ∃ segment now, t.segments = t.done ++ [segment] ∧
        (t.record e).segments = t.done ++ [segment ++ [now]] := by
  cases e with
  | play =>
      cases h : t.current with
      | none => exact .inr (.inl (by simp [record, segments, h]))
      | some segment => exact .inl (by simp [record, segments, h])
  | pause => exact .inl (by simp [record, segments])
  | frame now =>
      cases h : t.current with
      | none => exact .inl (by simp [record, segments, h])
      | some segment =>
          exact .inr (.inr ⟨segment, now, by simp [segments, h], by simp [record, segments, h]⟩)
  | listen tag => exact .inl rfl
  | silence => exact .inl rfl

theorem Tape.inOrder_of_record [LE α] {t : Tape α} {e : Event α τ}
    (h : (t.record e).InOrder) : t.InOrder := by
  rcases t.segments_record e with hsame | hopened | ⟨segment, now, hsegments, hrecord⟩
  · rwa [InOrder, hsame] at h
  · rw [InOrder, hopened] at h
    intro s hs
    exact h s (List.mem_append_left _ hs)
  · rw [InOrder, hrecord] at h
    intro s hs
    rw [hsegments] at hs
    rcases List.mem_append.mp hs with hdone | hlast
    · exact h s (List.mem_append_left _ hdone)
    · obtain rfl := List.mem_singleton.mp hlast
      have hlonger := h (s ++ [now]) (by simp)
      exact (List.pairwise_append.mp hlonger).1

end Appending

section Accounting

variable [AddCommGroup α]

@[simp]
theorem span_nil : span ([] : List α) = 0 :=
  rfl

/-- A frame measures from the first frame of its segment, which may be the frame itself. -/
theorem span_concat (segment : List α) (now : α) :
    span (segment ++ [now]) = now - segment.head?.getD now := by
  cases segment with
  | nil => rfl
  | cons first rest => simp [span]

/-- The clock agrees with the tape.  Only the segment that plays is in motion: what was before
it is the offset. -/
structure Accounts (t : Tape α) (c : FrameClock α τ) : Prop where
  playing : c.playing = t.current.isSome
  start : c.start = t.current.bind List.head?
  offset : c.offset = (t.done.map span).sum
  value : c.value = (t.segments.map span).sum

namespace Accounts

variable {t : Tape α} {c : FrameClock α τ}

theorem stopped : Accounts (⟨[], none⟩ : Tape α) (stopped : FrameClock α τ) where
  playing := rfl
  start := rfl
  offset := rfl
  value := rfl

theorem play (h : Accounts t c) : Accounts (t.record (.play : Event α τ)) c.play.clock := by
  obtain ⟨done, _ | segment⟩ := t
  · have hpaused : c.playing = false := h.playing
    rw [FrameClock.play, if_neg (by simp [hpaused])]
    exact ⟨rfl, rfl, h.offset, by simpa [Tape.record, Tape.segments] using h.offset⟩
  · have hplaying : c.playing = true := h.playing
    rw [FrameClock.play, if_pos hplaying]
    exact h

/-- The offset takes over the value, now that the last segment is done. -/
theorem pause (h : Accounts t c) : Accounts (t.record (.pause : Event α τ)) c.pause.clock := by
  obtain ⟨done, _ | segment⟩ := t
  · have hpaused : c.playing = false := h.playing
    rw [FrameClock.pause, if_neg (by simp [hpaused])]
    simpa [Tape.record] using h
  · have hplaying : c.playing = true := h.playing
    rw [FrameClock.pause, if_pos hplaying]
    exact ⟨rfl, rfl, h.value, by simpa [Tape.record, Tape.segments] using h.value⟩

theorem frame (h : Accounts t c) (now : α) :
    Accounts (t.record (.frame now : Event α τ)) (c.frame now).clock := by
  obtain ⟨done, _ | segment⟩ := t
  · have hpaused : c.playing = false := h.playing
    rw [FrameClock.frame, if_neg (by simp [hpaused])]
    exact h
  · have hplaying : c.playing = true := h.playing
    have hstart : c.start = segment.head? := h.start
    have hoffset : c.offset = (done.map span).sum := h.offset
    rw [FrameClock.frame, if_pos hplaying]
    refine ⟨hplaying, ?_, hoffset, ?_⟩
    · cases segment <;> simp [Tape.record, hstart]
    · simp [Tape.record, Tape.segments, span_concat, hstart, hoffset, add_sub_assoc]

/-- Every event keeps the clock in agreement with the tape. -/
theorem react (h : Accounts t c) (e : Event α τ) : Accounts (t.record e) (c.react e).clock := by
  cases e with
  | play => exact h.play
  | pause => exact h.pause
  | frame now => exact h.frame now
  | listen tag => exact ⟨h.playing, h.start, h.offset, h.value⟩
  | silence => exact ⟨h.playing, h.start, h.offset, h.value⟩

theorem run (events : List (Event α τ)) : Accounts (tape events) (run events).clock := by
  induction events using List.reverseRecOn with
  | nil => exact .stopped
  | append_singleton events e ih =>
      rw [tape_concat, run_concat]
      exact ih.react e

end Accounts

end Accounting

section Hearing

variable [Add α] [Sub α]

theorem hook_react (c : FrameClock α τ) (e : Event α τ) :
    (c.react e).clock.hook = e.tune c.hook := by
  cases e with
  | play => rw [react, play]; split <;> rfl
  | pause => rw [react, pause]; split <;> rfl
  | frame now => rw [react, frame]; split <;> rfl
  | listen tag => rfl
  | silence => rfl

theorem hook_run [Zero α] (events : List (Event α τ)) :
    (run events).clock.hook = listener events := by
  induction events using List.reverseRecOn with
  | nil => rfl
  | append_singleton events e ih =>
      rw [run_concat, listener_concat, ← ih]
      exact hook_react (run events).clock e

/-- The hook is called once where it hears an event, with the value that the event leaves. -/
theorem calls_react (c : FrameClock α τ) (e : Event α τ) :
    (c.react e).calls = if e.isHeard c.playing then
      c.hook.toList.map fun tag => (tag, (c.react e).clock.value) else [] := by
  cases e with
  | play => cases h : c.playing <;> simp [react, play, Event.isHeard, notify, h]
  | frame now => cases h : c.playing <;> simp [react, frame, Event.isHeard, notify, h]
  | pause => cases h : c.playing <;> simp [react, pause, Event.isHeard, h]
  | listen tag => rfl
  | silence => rfl

theorem frame_of_paused {c : FrameClock α τ} (h : c.playing = false) (now : α) :
    c.frame now = { clock := c } := by
  simp [frame, h]

theorem playing_frame (c : FrameClock α τ) (now : α) :
    (c.frame now).clock.playing = c.playing := by
  cases h : c.playing <;> simp [frame, h]

end Hearing

section Advancing

variable [AddCommGroup α] [LinearOrder α] [IsOrderedAddMonoid α]

theorem span_le_span_concat {segment : List α} {now : α}
    (h : (segment ++ [now]).Pairwise (· ≤ ·)) : span segment ≤ span (segment ++ [now]) := by
  rw [span_concat]
  cases segment with
  | nil => simp
  | cons first rest =>
      have hlast : rest.getLastD first ≤ now :=
        (List.pairwise_append.mp h).2.2 _ List.getLastD_mem_cons now (List.mem_singleton_self now)
      exact sub_le_sub_right hlast first

theorem Tape.sum_le_record {t : Tape α} {e : Event α τ} (h : (t.record e).InOrder) :
    (t.segments.map span).sum ≤ ((t.record e).segments.map span).sum := by
  rcases t.segments_record e with hsame | hopened | ⟨segment, now, hsegments, hrecord⟩
  · rw [hsame]
  · simp [hopened]
  · rw [InOrder, hrecord] at h
    have hspan := span_le_span_concat (h (segment ++ [now]) (by simp))
    rw [hsegments, hrecord]
    simpa using hspan

/-- While time never goes back within a segment, the value never goes down, wherever the segments
lie. -/
theorem value_le_run (events more : List (Event α τ)) (h : (tape (events ++ more)).InOrder) :
    (run events).clock.value ≤ (run (events ++ more)).clock.value := by
  induction more using List.reverseRecOn with
  | nil => rw [List.append_nil]
  | append_singleton more e ih =>
      rw [← List.append_assoc] at h ⊢
      rw [tape_concat] at h
      have hbefore := ih (Tape.inOrder_of_record h)
      have hstep := Tape.sum_le_record h
      rw [← tape_concat, ← (Accounts.run (events ++ more)).value,
        ← (Accounts.run (events ++ more ++ [e])).value] at hstep
      exact hbefore.trans hstep

/-- What a clock tells its host after any run: its value is the sum of what the segments add, a
frame is answered while the clock plays and has no effect while it is paused, and the hook that
is installed hears each start and each frame that counts, once and at no other time. -/
theorem value_accounted (events : List (Event α τ)) :
    let c := (run events).clock
    let t := tape events
    c.value = (t.segments.map span).sum ∧ c.playing = t.current.isSome ∧ c.hook = listener events ∧
    (∀ now, t.current = none →
      c.frame now = { clock := c } ∧ (c.frame now).clock.reading = none) ∧
    (∀ now, t.current ≠ none →
      (c.frame now).clock.reading = some (run (events ++ [.frame now])).clock.value) ∧
    (∀ e, (run (events ++ [e])).calls = (run events).calls ++
      if e.isHeard t.current.isSome then
        (listener events).toList.map fun tag => (tag, (run (events ++ [e])).clock.value)
      else []) ∧
    ∀ more, (tape (events ++ more)).InOrder → c.value ≤ (run (events ++ more)).clock.value := by
  intro c t
  have hc : Accounts t c := .run events
  refine ⟨hc.value, hc.playing, hook_run events, fun now hnone => ?_, fun now hsome => ?_,
    fun e => ?_, fun more => value_le_run events more⟩
  · have hpaused : c.playing = false := by
      rw [hc.playing, hnone]
      rfl
    exact ⟨frame_of_paused hpaused now, by simp [frame_of_paused hpaused, reading, hpaused]⟩
  · have hplaying : c.playing = true := by
      rw [hc.playing]
      exact Option.isSome_iff_ne_none.mpr hsome
    rw [reading, playing_frame, if_pos hplaying, run_concat]
    rfl
  · rw [run_concat, ← hc.playing, ← hook_run events]
    exact congrArg ((run events).calls ++ ·) (calls_react c e)

end Advancing

/-- A segment without frames, then one of three units, with the first of two hooks. -/
def interrupted : List (Event ℤ ℕ) :=
  [.listen 1, .play, .pause, .play, .play, .frame 5, .frame 8, .pause]

/-- A frame while paused, then a segment whose time stamps start again from an earlier time. -/
def setBack : List (Event ℤ ℕ) :=
  [.frame 100, .play, .listen 2, .frame 2, .frame 6]

theorem value_accounted_setBack :
    (tape (interrupted ++ setBack)).InOrder ∧
      (tape (interrupted ++ setBack)).segments = [[], [5, 8], [2, 6]] ∧
      (run (interrupted ++ setBack)).clock.value = 7 ∧
      (run (interrupted ++ setBack)).calls =
        [(1, 0), (1, 0), (1, 0), (1, 3), (1, 3), (2, 3), (2, 7)] ∧
      (run interrupted).clock.value ≤ (run (interrupted ++ setBack)).clock.value := by
  have horder : (tape (interrupted ++ setBack)).InOrder := by
    decide
  obtain ⟨-, -, -, -, -, -, hrising⟩ := value_accounted interrupted
  exact ⟨horder, by decide, by decide, by decide, hrising setBack horder⟩

end FrameClock

end SceneGraph
