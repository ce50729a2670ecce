import SceneGraph.Proofs.Cells

/-!
What happens in the course of a run, one thing at a time.

A replay changes the scene bit by bit.  The values that a list is supplied with are written one
by one, and its commands are executed one by one, those of a model's list in its place.  A
chronicle has all of that in it, along with the operations that replay nothing, and every run has
a chronicle (`Session.Conducted.exists_chronicle`).
-/

namespace SceneGraph

/-- What is done to a scene at a time. -/
inductive Deed where
  /-- An operation.  Of one that replays a list, this is what comes before the replay. -/
  | perform (op : Operation)
  /-- A cell gets a value that a list is supplied with. -/
  | supply (cell : NodeId) (v : Float)
  /-- A step of a list is executed. -/
  | execute (step : Step)

structure Event where
  before : Scene
  deed : Deed
  after : Scene

namespace Event

variable {s t u : Scene} {log log' : List Event}

/-- The events lead from one scene to another without a gap. -/
inductive Span : Scene → List Event → Scene → Prop
  | nil (s : Scene) : Span s [] s
  | cons {s t u : Scene} {deed : Deed} {log : List Event} (h : Span t log u) :
      Span s (⟨s, deed, t⟩ :: log) u

theorem Span.append (h : Span s log t) (h' : Span t log' u) : Span s (log ++ log') u := by
  induction h with
  | nil => exact h'
  | cons _ ih => exact .cons (ih h')

theorem Span.split (h : Span s (log ++ log') u) : ∃ t, Span s log t ∧ Span t log' u := by
  induction log generalizing s with
  | nil => exact ⟨s, .nil s, h⟩
  | cons e log ih =>
      cases h with
      | cons h =>
          obtain ⟨t, hlog, hlog'⟩ := ih h
          exact ⟨t, .cons hlog, hlog'⟩

theorem span_singleton {e : Event} : Span s [e] t ↔ e.before = s ∧ e.after = t := by
  constructor
  · intro h
    cases h with
    | cons h =>
        cases h
        exact ⟨rfl, rfl⟩
  · rintro ⟨rfl, rfl⟩
    exact .cons (.nil e.after)

end Event

open Event (Span)

namespace Frame

variable {f g : Frame} {log : List Event}

/-- Some values are written one by one. -/
inductive RecordsWrites : Frame → List (NodeId × Float) → List Event → Frame → Prop
  | nil (f : Frame) : RecordsWrites f [] [] f
  | cons {f f₁ g : Frame} {w : NodeId × Float} {writes : List (NodeId × Float)}
      {log : List Event} (h : f.write w = .ok f₁) (hrest : RecordsWrites f₁ writes log g) :
      RecordsWrites f (w :: writes) (⟨f.scene, .supply w.1 w.2, f₁.scene⟩ :: log) g

/-- Some commands are executed one by one.  In place of one that replays a model's list there are
the values that the list gets, and then its own commands. -/
inductive Records : Frame → List Command → List Event → Frame → Prop
  | nil (f : Frame) : Records f [] [] f
  | step {f f₁ g : Frame} {step : Step} {commands : List Command} {log : List Event}
      (h : step.run f = .ok f₁) (hrest : Records f₁ commands log g) :
      Records f (.step step :: commands) (⟨f.scene, .execute step, f₁.scene⟩ :: log) g
  | replayModel {f f₁ f₂ g : Frame} {model : NodeId} {list : SceneList}
      {supplied : List (InputIndex × Float)} {commands : List Command}
      {written executed log : List Event} (hsupplied : f.scene.suppliedInputs model = .ok supplied)
      (hwrites : RecordsWrites f (CommandList.writes (fun index => supplied.lookup index)
        list.inputs) written f₁)
      (hinner : Records f₁ list.commands executed f₂) (hrest : Records f₂ commands log g) :
      Records f (.replayModel model list :: commands) (written ++ executed ++ log) g

/-- A list is replayed: its values are written, then its commands are executed. -/
inductive RecordsList (inputs : InputIndex → Option Float) (f : Frame) (list : SceneList) :
    List Event → Frame → Prop
  | intro {f₁ g : Frame} {written executed : List Event}
      (hwrites : RecordsWrites f (CommandList.writes inputs list.inputs) written f₁)
      (hcommands : Records f₁ list.commands executed g) :
      RecordsList inputs f list (written ++ executed) g

theorem RecordsWrites.foldlM_eq_ok {writes : List (NodeId × Float)}
    (h : RecordsWrites f writes log g) : writes.foldlM Frame.write f = .ok g := by
  induction h with
  | nil => rfl
  | cons h _ ih => rw [List.foldlM_cons, h, ok_bind, ih]

theorem exists_recordsWrites {writes : List (NodeId × Float)}
    (h : writes.foldlM Frame.write f = .ok g) : ∃ log, RecordsWrites f writes log g := by
  induction writes generalizing f with
  | nil =>
      obtain rfl := Except.ok.inj h
      exact ⟨[], .nil f⟩
  | cons w writes ih =>
      rw [List.foldlM_cons] at h
      obtain ⟨f₁, hw, hrest⟩ := except_bind_eq_ok.mp h
      obtain ⟨log, hlog⟩ := ih hrest
      exact ⟨_, .cons hw hlog⟩

theorem Records.runAll_eq_ok {commands : List Command} (h : Records f commands log g) :
    Command.runAll f commands = .ok g := by
  induction h with
  | nil => rfl
  | step h _ ih => rw [Command.runAll, Command.run, h, ok_bind, ih]
  | @replayModel _ _ _ _ _ list _ _ _ _ _ hsupplied hwrites _ _ ihinner ihrest =>
      cases list
      rw [Command.runAll, Command.run, hsupplied, ok_bind, Command.runList,
        hwrites.foldlM_eq_ok, ok_bind, ihinner, ok_bind, ihrest]

mutual

/-- A command that comes to its end goes on record, along with what is executed after it. -/
theorem exists_records_cons : (c : Command) → {f f₁ g : Frame} → {commands : List Command} →
    {log : List Event} → c.run f = .ok f₁ → Records f₁ commands log g →
    ∃ log', Records f (c :: commands) log' g
  | .step _, _, _, _, _, _, h, hrest => ⟨_, .step h hrest⟩
  | .replayModel _ list, _, _, _, _, _, h, hrest => by
      obtain ⟨supplied, hsupplied, hlist⟩ := except_bind_eq_ok.mp h
      obtain ⟨_, hwrites, hcommands⟩ := exists_recordsList list hlist
      exact ⟨_, .replayModel hsupplied hwrites hcommands hrest⟩

theorem exists_recordsList : (list : SceneList) → {inputs : InputIndex → Option Float} →
    {f g : Frame} → Command.runList inputs f list = .ok g →
    ∃ log, RecordsList inputs f list log g
  | ⟨_, commands, _⟩, _, _, _, h => by
      obtain ⟨f₁, hwrites, hrest⟩ := except_bind_eq_ok.mp h
      obtain ⟨written, hwritten⟩ := exists_recordsWrites hwrites
      obtain ⟨executed, hexecuted⟩ := exists_records commands hrest
      exact ⟨_, .intro hwritten hexecuted⟩

theorem exists_records : (commands : List Command) → {f g : Frame} →
    Command.runAll f commands = .ok g → ∃ log, Records f commands log g
  | [], f, _, h => by
      obtain rfl := Except.ok.inj h
      exact ⟨[], .nil f⟩
  | c :: commands, _, _, h => by
      obtain ⟨f₁, hc, hrest⟩ := except_bind_eq_ok.mp h
      obtain ⟨log, hlog⟩ := exists_records commands hrest
      exact exists_records_cons c hc hlog

end

theorem RecordsList.runList_eq_ok {inputs : InputIndex → Option Float} {list : SceneList}
    (h : RecordsList inputs f list log g) : Command.runList inputs f list = .ok g := by
  obtain ⟨hwrites, hcommands⟩ := h
  cases list
  rw [Command.runList, hwrites.foldlM_eq_ok, ok_bind]
  exact hcommands.runAll_eq_ok

theorem RecordsWrites.span {writes : List (NodeId × Float)} (h : RecordsWrites f writes log g) :
    Span f.scene log g.scene := by
  induction h with
  | nil f => exact .nil f.scene
  | cons _ _ ih => exact .cons ih

theorem Records.span {commands : List Command} (h : Records f commands log g) :
    Span f.scene log g.scene := by
  induction h with
  | nil f => exact .nil f.scene
  | step _ _ ih => exact .cons ih
  | replayModel _ hwrites _ _ ihinner ihrest => exact (hwrites.span.append ihinner).append ihrest

theorem RecordsList.span {inputs : InputIndex → Option Float} {list : SceneList}
    (h : RecordsList inputs f list log g) : Span f.scene log g.scene := by
  obtain ⟨hwrites, hcommands⟩ := h
  exact hwrites.span.append hcommands.span

end Frame

/-- A replay succeeds if and only if it can be put on record. -/
theorem Scene.replay_eq_ok_iff {s : Scene} {list : SceneList} {inputs : InputIndex → Option Float}
    {f : Frame} : s.replay list inputs = .ok f ↔
      ∃ log, Frame.RecordsList inputs { scene := s } list log f := by
  rw [Scene.replay, ← Command.runList_eq_replay]
  exact ⟨Frame.exists_recordsList list, fun ⟨_, h⟩ => h.runList_eq_ok⟩

namespace Operation

variable {s t : Scene} {op : Operation} {o : Outcome} {log : List Event}

/-- What an operation does.  A model is rendered in two parts: first its list is looked up or
compiled, and then the list is replayed. -/
inductive Records (s : Scene) : Operation → List Event → Scene → Prop
  | renderList {list : SceneList} {inputs : List (Option Float)} {log : List Event} {f : Frame}
      (h : Frame.RecordsList (suppliedBy inputs) { scene := s } list log f) :
      Records s (.renderList list inputs) log f.scene
  | renderModel {model : NodeId} {list : SceneList} {t : Scene}
      {supplied : List (InputIndex × Float)} {log : List Event} {f : Frame}
      (hlist : (s.currentList model).result = .ok (list, t))
      (hsupplied : t.suppliedInputs model = .ok supplied)
      (h : Frame.RecordsList (fun index => supplied.lookup index) { scene := t } list log f) :
      Records s (.renderModel model) (⟨s, .perform (.renderModel model), t⟩ :: log) f.scene
  | cycle {model : NodeId} {c : Cycle NodeId}
      (h : (s.renderModel model).result = .error (.cycle c)) :
      Records s (.renderModel model) [⟨s, .perform (.renderModel model), s⟩] s
  | once {op : Operation} {o : Outcome} (hop : ¬ op.IsReplay) (h : op.outcome? s = some o) :
      Records s op [⟨s, .perform op, o.scene⟩] o.scene

theorem exists_records (h : op.outcome? s = some o) : ∃ log, op.Records s log o.scene := by
  by_cases hop : op.IsReplay
  · cases op with
    | renderModel model =>
        rcases Outcome.orCycle?_eq_some.mp h with hok | ⟨c, hcycle, rfl⟩
        · obtain ⟨f, hf, rfl⟩ := except_map_eq_ok.mp hok
          obtain ⟨list, t, hlist, hreplay⟩ := Scene.renderModel_eq_ok hf
          obtain ⟨supplied, hsupplied, hreplay⟩ := except_bind_eq_ok.mp hreplay
          obtain ⟨log, hlog⟩ := Scene.replay_eq_ok_iff.mp hreplay
          exact ⟨_, .renderModel hlist hsupplied hlog⟩
        · have hcycle : (s.renderModel model).result = .error (.cycle c) := by
            cases hresult : (s.renderModel model).result with
            | ok f => simp [hresult, Except.map] at hcycle
            | error e => simpa [hresult, Except.map] using hcycle
          exact ⟨_, .cycle hcycle⟩
    | renderList list inputs =>
        obtain ⟨f, hf, rfl⟩ := map_toOption_eq_some.mp h
        obtain ⟨log, hlog⟩ := Scene.replay_eq_ok_iff.mp hf
        exact ⟨log, .renderList hlog⟩
    | _ => exact hop.elim
  · exact ⟨_, .once hop h⟩

theorem Records.span (h : op.Records s log t) : Span s log t := by
  cases h with
  | renderList h => exact h.span
  | renderModel _ _ h => exact .cons h.span
  | cycle | once => exact Event.span_singleton.mpr ⟨rfl, rfl⟩

end Operation

namespace Session

variable {defaultSize : Float} {σ : Session} {log : List Event}

/-- All that has happened to a new scene in a run. -/
inductive Chronicle (defaultSize : Float) : Session → List Event → Prop
  | start : Chronicle defaultSize (start defaultSize) []
  | next {σ : Session} {op : Operation} {o : Outcome} {log events : List Event}
      (hσ : Chronicle defaultSize σ log) (hallowed : op.Allowed σ) (hop : op.IsFamiliar σ)
      (h : op.outcome? σ.scene = some o) (hevents : op.Records σ.scene events o.scene) :
      Chronicle defaultSize (σ.follow op o) (log ++ events)

theorem Chronicle.conducted (h : Chronicle defaultSize σ log) : Conducted defaultSize σ := by
  induction h with
  | start => exact .refl
  | next _ hallowed hop h _ ih => exact ih.tail ⟨_, hallowed, hop, perform_of_outcome? h⟩

theorem Conducted.exists_chronicle (h : Conducted defaultSize σ) :
    ∃ log, Chronicle defaultSize σ log := by
  induction h with
  | refl => exact ⟨[], .start⟩
  | tail _ hnext ih =>
      obtain ⟨log, hlog⟩ := ih
      obtain ⟨op, hallowed, hop, hperform⟩ := hnext
      obtain ⟨o, ho, rfl⟩ := perform_eq_some hperform
      obtain ⟨events, hevents⟩ := Operation.exists_records ho
      exact ⟨log ++ events, .next hlog hallowed hop ho hevents⟩

theorem Chronicle.span (h : Chronicle defaultSize σ log) :
    Span (Scene.empty defaultSize) log σ.scene := by
  induction h with
  | start => exact .nil _
  | next _ _ _ _ hevents ih => exact ih.append hevents.span

end Session

end SceneGraph
