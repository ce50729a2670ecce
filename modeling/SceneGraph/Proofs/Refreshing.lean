import SceneGraph.Proofs.Chronicle

/-!
When read-backs change.

A read-back keeps its number while other nodes are rendered and other cells are set, whatever
else happens to the scene.  It changes when the host sets it and when its owner is shown in the
course of a replay.  A pin has two read-backs, and asking for the second one for the first time
refreshes both.  Main statement: `Session.readbacks_keep`.
-/

namespace SceneGraph

namespace Scene

variable {s t w : Scene} {owner owner' cell : NodeId}

/-- The cell reads the node back. -/
def HasReadback (s : Scene) (owner cell : NodeId) : Prop :=
  ∃ n, s.node owner = .ok n ∧ n.Shows cell

theorem HasReadback.mono (h : s.HasReadback owner cell) (hst : Develops s t) :
    t.HasReadback owner cell := by
  obtain ⟨n, hn, hshows⟩ := h
  obtain ⟨n', hn', hdevelops⟩ := hst owner n hn
  exact ⟨n', hn', hdevelops.shows hshows⟩

theorem HasReadback.scalar (h : s.HasReadback owner cell) (hs : s.WellFormed) :
    ∃ v, s.node cell = .ok (.scalar v (some owner)) := by
  obtain ⟨n, hn, hshows⟩ := h
  exact hs.scalar_of_shows hn hshows

theorem HasReadback.hasKind (h : s.HasReadback owner cell) (hs : s.WellFormed) :
    s.HasKind (· = .scalar) cell := by
  obtain ⟨v, hv⟩ := h.scalar hs
  exact .of_node hv rfl

/-- A cell reads back one node only. -/
theorem HasReadback.owner_unique (h : s.HasReadback owner cell) (h' : s.HasReadback owner' cell)
    (hs : s.WellFormed) : owner = owner' := by
  obtain ⟨v, hv⟩ := h.scalar hs
  obtain ⟨v', hv'⟩ := h'.scalar hs
  cases node_unique hv hv'
  rfl

/-- A read-back is not a base. -/
theorem HasReadback.not_base (h : s.HasReadback owner cell) (hs : s.WellFormed)
    (hnarrow : s.Narrow) (id : NodeId) : ¬ s.Holds ⟨id, .base, cell⟩ := by
  rintro ⟨n, hn, hheld⟩
  obtain ⟨v, hv⟩ := h.scalar hs
  have hserves : s.Serves id n .base cell := serves_of_held hs hnarrow hn (fun _ => nofun) hheld
  obtain ⟨v', hv'⟩ := hserves
  cases node_unique hv hv'

end Scene

open Scene (HasReadback Develops Bears count_eq_of_wiring)

/-- The event may change a read-back of the owner: the host sets it, the owner is shown, or the
owner is a pin and gets its other read-back. -/
def Event.Refreshes (e : Event) (owner cell : NodeId) : Prop :=
  match e.deed with
  | .perform (.setValue id _) => id = cell
  | .perform (.pinReadback pin axis) =>
    pin = owner ∧ ∃ n, e.before.node pin = .ok n ∧ n.pinReadback? axis = none
  | .execute step => ∃ shown, step.shown? = some shown ∧ shown.node = owner
  | _ => False

/-- Read-backs stay read-backs, and they keep their numbers unless they are refreshed. -/
def Event.Keeps (e : Event) : Prop :=
  ∀ owner cell, e.before.HasReadback owner cell → e.after.HasReadback owner cell ∧
    (e.after.value cell = e.before.value cell ∨ e.Refreshes owner cell)

/-- What holds of each event, up to the next refresh, holds of a stretch of events. -/
theorem Event.Span.keeps {s t : Scene} {log : List Event} (h : Span s log t)
    (hlog : ∀ e ∈ log, e.Keeps) {owner cell : NodeId} (hcell : s.HasReadback owner cell) :
    t.HasReadback owner cell ∧
      ((∀ e ∈ log, ¬ e.Refreshes owner cell) → t.value cell = s.value cell) := by
  induction h with
  | nil => exact ⟨hcell, fun _ => rfl⟩
  | cons h ih =>
      rw [List.forall_mem_cons] at hlog
      obtain ⟨hnext, hvalue⟩ := hlog.1 owner cell hcell
      obtain ⟨hlast, hrest⟩ := ih hlog.2 hnext
      refine ⟨hlast, fun hquiet => ?_⟩
      rw [List.forall_mem_cons] at hquiet
      exact (hrest hquiet.2).trans (hvalue.resolve_right hquiet.1)

namespace Frame

variable {w : Scene} {f g : Frame} {log : List Event}

/-- Writing an input leaves all read-backs alone. -/
theorem write_keeps (hw : w.WellFormed) (hf : f.scene.wiring = w.wiring)
    {x : NodeId × Float} (hx : w.HasKind (· = .input) x.1) (h : f.write x = .ok g) :
    Event.Keeps ⟨f.scene, .supply x.1 x.2, g.scene⟩ := by
  intro owner cell hcell
  have hwiring := (Frame.write_rewrites h).alike.wiring
  refine ⟨hcell.mono (.of_wiring hwiring), .inl ?_⟩
  obtain ⟨t, ht, rfl⟩ := except_map_eq_ok.mp h
  apply Scene.value_update_of_ne ht
  rintro rfl
  -- a read-back is no input
  cases (hx.mono (.of_wiring hf)).of_kind (hcell.hasKind (hw.of_wiring hf))

/-- A step refreshes the read-backs of the node that it shows, and no others. -/
theorem run_keeps (hw : w.WellFormed) (hf : f.scene.wiring = w.wiring) {step : Step}
    (hbears : w.Bears step.mentions) (h : step.run f = .ok g) :
    Event.Keeps ⟨f.scene, .execute step, g.scene⟩ := by
  intro owner cell hcell
  have hs := hw.of_wiring hf
  have hwiring := (Command.run_rewrites (.step step) h).alike.wiring
  refine ⟨hcell.mono (.of_wiring hwiring), ?_⟩
  by_cases hwrites : step.Writes f.scene cell
  · rcases hwrites with hcomputed | ⟨shown, n, hshown, hn, hshows⟩
    · have hkind := Scene.Step.computed_isKind (hbears.mono (.of_wiring hf)) hcomputed
      exact (hkind.of_kind (hcell.hasKind hs)).elim nofun nofun
    · exact .inr ⟨shown, hshown, HasReadback.owner_unique ⟨n, hn, hshows⟩ hcell hs⟩
  · exact .inl ((Scene.change_confined (Step.scene_run h)).values cell hwrites)

theorem RecordsWrites.keeps (hw : w.WellFormed) {writes : List (NodeId × Float)}
    (h : RecordsWrites f writes log g) (hf : f.scene.wiring = w.wiring)
    (hwrites : ∀ x ∈ writes, w.HasKind (· = .input) x.1) : ∀ e ∈ log, e.Keeps := by
  induction h with
  | nil => exact nofun
  | cons h _ ih =>
      rw [List.forall_mem_cons] at hwrites ⊢
      have hf₁ := (Frame.write_rewrites h).alike.wiring.trans hf
      exact ⟨write_keeps hw hf hwrites.1 h, ih hf₁ hwrites.2⟩

/-- The values that a list is supplied with go to its inputs. -/
theorem RecordsWrites.keeps_of_list (hw : w.WellFormed) {inputs : InputIndex → Option Float}
    {list : SceneList} (h : RecordsWrites f (CommandList.writes inputs list.inputs) log g)
    (hf : f.scene.wiring = w.wiring) (hbears : w.Bears (Command.mentionsOf list)) :
    (∀ e ∈ log, e.Keeps) ∧ g.scene.wiring = w.wiring := by
  have hwiring := (Frame.writes_rewrites h.foldlM_eq_ok).alike.wiring
  refine ⟨h.keeps hw hf ?_, hwiring.trans hf⟩
  intro x hx
  obtain ⟨b, hb, v, -, rfl⟩ := Scene.binding_of_mem_writes hx
  exact (Scene.bears_mentionsOf hbears).1 b hb

/-- Executing commands refreshes read-backs only where a step shows their owner: one case for
each kind of command, and a model's list is executed like any other. -/
theorem Records.keeps (hw : w.WellFormed) {commands : List Command}
    (h : Records f commands log g) (hf : f.scene.wiring = w.wiring)
    (hbears : w.Bears (Command.mentionsAll commands)) : ∀ e ∈ log, e.Keeps := by
  induction h with
  | nil => exact nofun
  | step h _ ih =>
      obtain ⟨hstep, hcommands⟩ := Scene.bears_append.mp hbears
      have hf₁ := (Command.run_rewrites (.step _) h).alike.wiring.trans hf
      rw [List.forall_mem_cons]
      exact ⟨run_keeps hw hf hstep h, ih hf₁ hcommands⟩
  | replayModel _ hwrites hinner _ ihinner ihrest =>
      obtain ⟨hlist, hcommands⟩ := Scene.bears_append.mp hbears
      have hlist := (Scene.bears_cons.mp hlist).2
      obtain ⟨hwritten, hf₁⟩ := hwrites.keeps_of_list hw hf hlist
      have hexecuted := ihinner hf₁ (Scene.bears_mentionsOf hlist).2
      have hf₂ := (Command.runAll_rewrites _ hinner.runAll_eq_ok).alike.wiring.trans hf₁
      rw [List.forall_mem_append, List.forall_mem_append]
      exact ⟨⟨hwritten, hexecuted⟩, ihrest hf₂ hcommands⟩

theorem RecordsList.keeps (hw : w.WellFormed) {inputs : InputIndex → Option Float}
    {list : SceneList} (h : RecordsList inputs f list log g) (hf : f.scene.wiring = w.wiring)
    (hbears : w.Bears (Command.mentionsOf list)) : ∀ e ∈ log, e.Keeps := by
  obtain ⟨hwrites, hcommands⟩ := h
  obtain ⟨hwritten, hf₁⟩ := hwrites.keeps_of_list hw hf hbears
  rw [List.forall_mem_append]
  exact ⟨hwritten, hcommands.keeps hw hf₁ (Scene.bears_mentionsOf hbears).2⟩

end Frame

namespace Session

open Scene Operation

variable {defaultSize : Float} {σ : Session} {op : Operation} {o : Outcome} {log : List Event}

/-- An operation that replays nothing. -/
theorem outcome?_keeps (hσ : Reachable σ) (hallowed : op.Allowed σ) (hop : ¬ op.IsReplay)
    (h : op.outcome? σ.scene = some o) : Event.Keeps ⟨σ.scene, .perform op, o.scene⟩ := by
  intro owner cell hcell
  have hnext := hσ.follow hallowed h
  have hafter : o.scene.WellFormed := hnext.sound.wellFormed
  have hcell' : o.scene.HasReadback owner cell :=
    hcell.mono (hσ.sound.next ⟨op, hallowed, perform_of_outcome? h⟩).2
  refine ⟨hcell', ?_⟩
  by_cases hset : ∃ v, op = .setValue cell v
  · obtain ⟨v, rfl⟩ := hset
    exact .inr rfl
  by_cases hpin : ∃ axis, op = .pinReadback owner axis
  · obtain ⟨axis, rfl⟩ := hpin
    obtain ⟨⟨new, t⟩, ht, rfl⟩ := map_toOption_eq_some.mp h
    rcases pinReadback_cases ht with rfl | ⟨n, u, hn, hempty, -, -⟩
    · exact .inl rfl
    · exact .inr ⟨rfl, n, hn, hempty⟩
  left
  apply outcome?_scalar hσ hallowed hop h (hcell.hasKind hσ.sound.wellFormed)
  · intro v heq
    exact hset ⟨v, heq⟩
  · exact hcell'.not_base hafter hnext.strict.links
  · intro pin axis heq n hn hshows
    obtain rfl := HasReadback.owner_unique ⟨n, hn, hshows⟩ hcell' hafter
    exact hpin ⟨axis, heq⟩

theorem records_keep {t : Scene} (hσ : Reachable σ) (hallowed : op.Allowed σ)
    (hop : op.IsFamiliar σ) (h : op.Records σ.scene log t) : ∀ e ∈ log, e.Keeps := by
  have hs := hσ.sound.wellFormed
  cases h with
  | renderList h => exact h.keeps hs rfl hop.bears
  | renderModel hlist _ h =>
      obtain ⟨hwiring, -, hvalue⟩ := currentList_keeps hlist
      have hbears := bears_of_currentList hs hσ.strict.links (fun _ hc => (hσ.knows hc).bears) hlist
      rw [List.forall_mem_cons]
      exact ⟨fun _ cell hcell => ⟨hcell.mono (.of_wiring hwiring), .inl (hvalue cell)⟩,
        h.keeps hs hwiring hbears⟩
  | cycle =>
      intro e he
      obtain rfl := List.mem_singleton.mp he
      exact fun _ _ hcell => ⟨hcell, .inl rfl⟩
  | once hop h =>
      intro e he
      obtain rfl := List.mem_singleton.mp he
      exact outcome?_keeps hσ hallowed hop h

theorem Chronicle.keeps (h : Chronicle defaultSize σ log) : ∀ e ∈ log, e.Keeps := by
  induction h with
  | start => exact nofun
  | next hσ hallowed hop _ hevents ih =>
      rw [List.forall_mem_append]
      exact ⟨ih, records_keep hσ.conducted.reachable hallowed hop hevents⟩

/-- What a readback accessor gives out reads the node back. -/
theorem hasReadback_of_accessor {owner : NodeId} {role : Role} {handle : Handle}
    (hσ : Reachable σ) (hallowed : op.Allowed σ) (h : op.outcome? σ.scene = some o)
    (hhandle : o.handle? = some handle) (hslot : op.slot? = some (owner, role))
    (hrole : (∃ r, role = .readback r) ∨ ∃ axis, role = .pinReadback axis) :
    o.scene.HasReadback owner handle.id := by
  obtain ⟨n, hn, hheld⟩ := holds_of_slot? hσ.sound hallowed h hhandle hslot
  rcases hrole with ⟨r, rfl⟩ | ⟨axis, rfl⟩
  · exact ⟨n, hn, .inl ⟨r, hheld⟩⟩
  · exact ⟨n, hn, .inr ⟨axis, hheld⟩⟩

/-- Take a run, and all that happens in its course.  From the moment when a cell first reads a
node back it does so for good, and its number stays the same over any stretch of the run in which
neither the host sets the cell nor a list has the node shown, and in which the node, if it is a
pin, gets no second read-back.  So no other operation changes it, nor does any part of a replay
up to the one that shows the node. -/
theorem readbacks_keep (hσ : Conducted defaultSize σ) :
    (∃ log, Chronicle defaultSize σ log) ∧
    (∀ log, Chronicle defaultSize σ log → ∀ early stretch late, log = early ++ stretch ++ late →
      ∃ s t, Event.Span (empty defaultSize) early s ∧ Event.Span s stretch t ∧
        Event.Span t late σ.scene ∧ ∀ owner cell, s.HasReadback owner cell →
          t.HasReadback owner cell ∧
          ((∀ e ∈ stretch, ¬ e.Refreshes owner cell) → t.value cell = s.value cell)) ∧
    (∀ owner r o, (Operation.readback owner r).Allowed σ →
      (Operation.readback owner r).outcome? σ.scene = some o →
        ∃ cell, o.handle? = some (.value cell) ∧ o.scene.HasReadback owner cell) ∧
    ∀ pin axis o, (Operation.pinReadback pin axis).Allowed σ →
      (Operation.pinReadback pin axis).outcome? σ.scene = some o →
        ∃ cell, o.handle? = some (.value cell) ∧ o.scene.HasReadback pin cell := by
  have hreach := hσ.reachable
  refine ⟨hσ.exists_chronicle, ?_, ?_, ?_⟩
  · rintro log hlog early stretch late rfl
    obtain ⟨t, hfirst, hlate⟩ := hlog.span.split
    obtain ⟨s, hearly, hstretch⟩ := hfirst.split
    have hkeeps : ∀ e ∈ stretch, e.Keeps := by
      intro e he
      exact hlog.keeps e (List.mem_append_left _ (List.mem_append_right _ he))
    exact ⟨s, t, hearly, hstretch, hlate, fun owner cell => hstretch.keeps hkeeps⟩
  · intro owner r o hallowed h
    obtain ⟨⟨cell, t⟩, -, rfl⟩ := map_toOption_eq_some.mp h
    exact ⟨cell, rfl, hasReadback_of_accessor hreach hallowed h rfl rfl (.inl ⟨r, rfl⟩)⟩
  · intro pin axis o hallowed h
    obtain ⟨⟨cell, t⟩, -, rfl⟩ := map_toOption_eq_some.mp h
    exact ⟨cell, rfl, hasReadback_of_accessor hreach hallowed h rfl rfl (.inr ⟨axis, rfl⟩)⟩

/-- A part with a pin, the abscissa of which is read back. -/
def readPin : List Operation :=
  [.part, .pin, .addChild 3 4, .pinReadback 4 .x]

/-- The pin is moved, and no list is replayed. -/
theorem readbacks_keep_readPin : ∃ σ τ log, (start 100.0).runAll readPin = some σ ∧
    σ.perform (.setPinCoordinate 4 .x 10.0) = some τ ∧
    Chronicle 100.0 τ (log ++ [⟨σ.scene, .perform (.setPinCoordinate 4 .x 10.0), τ.scene⟩]) ∧
    σ.scene.HasReadback 4 5 ∧ τ.scene.value 5 = .ok 0.0 ∧
    ∃ o cell, (Operation.pinReadback 4 .y).outcome? τ.scene = some o ∧
      o.scene.HasReadback 4 cell := by
  have hrun : ∃ σ ∈ (start 100.0).runAll readPin,
      ∃ o ∈ (Operation.setPinCoordinate 4 .x 10.0).outcome? σ.scene,
      ∃ o' ∈ (Operation.pinReadback 4 .y).outcome? o.scene,
        σ.HasPin 4 ∧ σ.scene.nodes[4]?.bind (Node.pinReadback? .x) = some 5 ∧
        σ.scene.value 5 = .ok 0.0 := by
    decide +kernel
  obtain ⟨σ, hσ, o, ho, o', ho', hpin, hslot, hvalue⟩ := hrun
  have hconducted : Conducted 100.0 σ := .runAll .refl (by simp [readPin, IsFamiliar]) hσ
  obtain ⟨log, hlog⟩ := hconducted.exists_chronicle
  have hnext : Chronicle 100.0 (σ.follow (.setPinCoordinate 4 .x 10.0) o)
      (log ++ [⟨σ.scene, .perform (.setPinCoordinate 4 .x 10.0), o.scene⟩]) :=
    hlog.next hpin trivial ho (.once id ho)
  obtain ⟨-, hkept, -, haccessor⟩ := readbacks_keep hnext.conducted
  obtain ⟨s, t, -, hstretch, -, hreadbacks⟩ := hkept _ hnext log _ [] (List.append_nil _).symm
  obtain ⟨rfl, rfl⟩ := Event.span_singleton.mp hstretch
  obtain ⟨n, hn, hcell⟩ := Option.bind_eq_some_iff.mp hslot
  have hreadback : σ.scene.HasReadback 4 5 := ⟨n, node_eq_ok.mpr hn, .inr ⟨.x, hcell⟩⟩
  have hquiet : o.scene.value 5 = σ.scene.value 5 :=
    (hreadbacks 4 5 hreadback).2 fun e he => by
      obtain rfl := List.mem_singleton.mp he
      exact id
  obtain ⟨cell, -, hother⟩ := haccessor 4 .y o' (List.mem_append_right _ hpin) ho'
  exact ⟨σ, _, log, hσ, perform_of_outcome? ho, hnext, hreadback, hquiet.trans hvalue, o', cell,
    ho', hother⟩

/-- Asking for a pin's other coordinate for the first time refreshes the one that has been there
all the time, though no list has been replayed. -/
theorem second_readback_refreshes_first : ∃ σ o,
    (start 100.0).runAll (readPin ++ [.setPinCoordinate 4 .x 10.0]) = some σ ∧
    σ.scene.HasReadback 4 5 ∧ σ.scene.value 5 = .ok 0.0 ∧
    (Operation.pinReadback 4 .y).Allowed σ ∧
    (Operation.pinReadback 4 .y).outcome? σ.scene = some o ∧ o.scene.value 5 = .ok 10.0 := by
  have hrun : ∃ σ ∈ (start 100.0).runAll (readPin ++ [.setPinCoordinate 4 .x 10.0]),
      ∃ o ∈ (Operation.pinReadback 4 .y).outcome? σ.scene,
        (∃ n ∈ σ.scene.nodes[4]?, n.pinReadback? .x = some 5) ∧ σ.scene.value 5 = .ok 0.0 ∧
        (Operation.pinReadback 4 .y).Allowed σ ∧ o.scene.value 5 = .ok 10.0 := by
    decide +kernel
  obtain ⟨σ, hσ, o, ho, ⟨n, hn, hcell⟩, hbefore, hallowed, hafter⟩ := hrun
  exact ⟨σ, o, hσ, ⟨n, node_eq_ok.mpr hn, .inr ⟨.x, hcell⟩⟩, hbefore, hallowed, ho, hafter⟩

end Session

end SceneGraph
