import SceneGraph.Proofs.Reentry
import SceneGraph.Proofs.Sources

/-!
Replaying lists with the lists of models in them.

While a search goes on, what is done agrees with the solution of the equations, and everything
that the lists of models visit is done once they are replayed (`performs`).  In the end the
equations of all nodes hold that the compile got to (`replay_solved`).
-/

namespace SceneGraph

open RenderGraph (Nested Task waits_append waits_complete search_of_resolve compileWith_eq_ok
  mem_bindings)

/-- The containers that are being put together during a task, with those of the tasks around. -/
def RenderGraph.Task.busy {ν κ : Type} (mid : ν → Prop) : Task ν κ → ν → Prop
  | .gather n _ => fun q => q = n ∨ mid q
  | _ => mid

/-- The containers that a task changes before they are done. -/
def RenderGraph.Task.draws (w : Scene) : Task NodeId Command → NodeId → Prop
  | .require m => w.Moves m
  | .gather n _ => (· = n)
  | _ => fun _ => False

/-- The containers whose content a task places before they are done. -/
def RenderGraph.Task.places : Task NodeId Command → NodeId → Prop
  | .gather n _ => (· = n)
  | _ => fun _ => False

namespace Scene

variable {w z t t₁ t' : Scene} {nested : Nested NodeId Command} {root x m : NodeId}
  {isolated pending : List NodeId} {task : Task NodeId Command} {n : Node}
  {s s₁ s' : CompileState NodeId Command} {done done₁ done' mid : NodeId → Prop}

/-- What a search appends leads from one scene to another. -/
def Plays (s s' : CompileState NodeId Command) (t t' : Scene) : Prop :=
  ∃ new, s'.emissions = s.emissions ++ new ∧ Leads (new.flatMap Emission.commands) t t'

namespace Plays

theorem refl (s : CompileState NodeId Command) (t : Scene) : Plays s s t t :=
  ⟨[], by simp, leads_nil t⟩

theorem trans (h : Plays s s₁ t t₁) (h' : Plays s₁ s' t₁ t') : Plays s s' t t' := by
  obtain ⟨new, hnew, hleads⟩ := h
  obtain ⟨new', hnew', hleads'⟩ := h'
  refine ⟨new ++ new', by simp [hnew, hnew'], ?_⟩
  rw [List.flatMap_append]
  exact hleads.append hleads'

theorem emit {c : Command} (h : Leads [c] t t') : Plays s (s.emit (.inline x c)) t t' :=
  ⟨[.inline x c], rfl, h⟩

theorem complete {own : List Command} (h : Leads own t t') : Plays s (s.complete x own) t t' :=
  ⟨[.own x own], rfl, by simpa [Emission.commands] using h⟩

end Plays

/-- Replaying the list of a model that has nothing to write. -/
theorem leads_replayModel {list : SceneList} (hinputs : list.inputs = [])
    (hsupplied : ∃ inputs, t.suppliedInputs m = .ok inputs) (h : Leads list.commands t t') :
    Leads [.replayModel m list] t t' := by
  rintro f rfl
  obtain ⟨inputs, hsupplied⟩ := hsupplied
  obtain ⟨f', hf', hscene⟩ := h f rfl
  refine ⟨f', ?_, hscene⟩
  cases list
  obtain rfl := hinputs
  simp only [Command.runAll, Command.run, hsupplied, ok_bind, Command.runList]
  show (Command.runAll f _ >>= pure) = _
  rw [hf']
  rfl

theorem suppliedInputs_succeeds (hx : t.node x = .ok n)
    (hsources : ∀ entry ∈ t.sourceTable x, entry.2 < t.count) :
    ∃ inputs, t.suppliedInputs x = .ok inputs := by
  refine bind_succeeds hx (mapM_succeeds fun entry hentry => ?_)
  obtain ⟨v, hv⟩ := value_of_lt_count (hsources entry (sourceTable_eq hx ▸ hentry))
  exact bind_succeeds hv ⟨_, rfl⟩

/-- An isolated model contributes nothing. -/
theorem contributes_nothing (hx : w.node x = .ok n) (hmodel : n.model?.isSome = true)
    (hisolated : x ∈ isolated) {own : List Command}
    (hown : w.graph.Contributes nested isolated x own) : own = [] := by
  have hcs : contributions isolated x n = [] := by
    cases n with
    | part p =>
        have hmodel : p.model.isSome = true := hmodel
        simp [contributions, hisolated, Option.isSome_iff_ne_none.mp hmodel]
    | _ => cases hmodel
  unfold RenderGraph.Contributes at hown
  rw [contributions_of_node hx, hcs] at hown
  simpa using hown.symm

/-- A model contributes its steps, then its list. -/
theorem contributes_list (hx : w.node x = .ok n) (hmodel : n.model?.isSome = true)
    (hnew : x ∉ isolated) {own : List Command}
    (hown : w.graph.Contributes nested isolated x own) :
    ∃ list, (nested (isolated ++ [x]) x).result = .ok list ∧
      own = (n.steps x).map .step ++ [.replayModel list.root list] := by
  have hcs : contributions isolated x n = [.command (.step (.showPart x)), .embed x] ∧
      n.steps x = [.showPart x] := by
    cases n with
    | part p =>
        have hmodel : p.model.isSome = true := hmodel
        simp [contributions, hnew, Option.isSome_iff_ne_none.mp hmodel, Node.steps]
    | _ => cases hmodel
  unfold RenderGraph.Contributes at hown
  rw [contributions_of_node hx, hcs.1, Traced.result_mapM_eq_ok] at hown
  rw [hcs.2]
  obtain ⟨_, _, hfirst, hrest, rfl⟩ := List.forall₂_cons_left_iff.mp hown
  obtain ⟨_, _, hsecond, hnone, rfl⟩ := List.forall₂_cons_left_iff.mp hrest
  obtain rfl := List.forall₂_nil_left_iff.mp hnone
  obtain rfl := RenderGraph.contribute_command_eq_ok.mp hfirst
  obtain ⟨list, hlist, rfl⟩ := RenderGraph.contribute_embed_eq_ok.mp hsecond
  exact ⟨list, hlist, rfl⟩

/-- What is asked of all that compiling a root gets to: it leads to no cycle, no input is among
it, and no extra motion gets back to its container.  All sources are there. -/
structure Calm (w : Scene) (root : NodeId) : Prop where
  grounded : ∀ access x, w.Reaches root access x → w.graph.Grounded x
  inputs : ∀ access x, w.Reaches root access x → w.kind x ≠ .ok .input
  motions : ∀ access owner, w.Reaches root access owner → ∀ m, w.Moves m owner →
    ∀ access', ¬ w.Reaches m access' owner
  sources : ∀ model, ∀ entry ∈ w.sourceTable model, entry.2 < w.count

/-- What is done once a search is as far as a certain state: the isolated models, the nodes in
the list, and all that the lists of the models among them visit. -/
structure Covers (w : Scene) (isolated pending : List NodeId) (s : CompileState NodeId Command)
    (done : NodeId → Prop) : Prop where
  models : ∀ i ∈ isolated, done i
  added : ∀ y ∈ s.added, done y
  within : ∀ y ∈ s.added, w.graph.OwnsList y → y ∉ isolated →
    ∀ q, w.graph.Within (isolated ++ [y]) y q → done q
  waits : ∀ p ∈ pending, p ∉ s.added
  owned : ∀ y ∈ s.added, ∀ owner, w.Moves y owner → owner ∈ s.added ∨ owner ∈ pending

namespace Covers

theorem wait (h : w.Covers isolated pending s done) (hx : x ∉ s.added) :
    w.Covers isolated (pending ++ [x]) s done where
  models := h.models
  added := h.added
  within := h.within
  waits := waits_append h.waits hx
  owned y hy owner hmoves := (h.owned y hy owner hmoves).imp_right (List.mem_append_left _)

/-- A node that waited enters the list. -/
theorem complete (h : w.Covers isolated (pending ++ [x]) s done)
    (hgrows : ∀ q, done q → done' q) (hx : done' x) (hpending : x ∉ pending)
    (hmoves : ∀ owner, w.Moves x owner → owner ∈ pending)
    (hwithin : w.graph.OwnsList x → x ∉ isolated →
      ∀ q, w.graph.Within (isolated ++ [x]) x q → done' q) (own : List Command) :
    w.Covers isolated pending (s.complete x own) done' where
  models i hi := hgrows i (h.models i hi)
  added y hy := by
    rcases List.mem_cons.mp hy with rfl | hy
    · exact hx
    · exact hgrows y (h.added y hy)
  within y hy howns hnew q hq := by
    rcases List.mem_cons.mp hy with rfl | hy
    · exact hwithin howns hnew q hq
    · exact hgrows q (h.within y hy howns hnew q hq)
  waits := waits_complete h.waits hpending own
  owned := owned_complete h.owned hmoves

end Covers

/-- A task that may come up: an extra motion is required by its waiting container only, which is
being put together, and a node goes through its own requirements. -/
def Arises (w z : Scene) (mid : NodeId → Prop) (pending : List NodeId)
    (s : CompileState NodeId Command) (done : NodeId → Prop) (t : Scene) :
    Task NodeId Command → Prop
  | .require m => ∀ owner, w.Moves m owner → owner ∈ pending ∧ mid owner
  | .gather n rs => n ∈ pending ∧ ∃ k pre, w.node n = .ok k ∧ needs [] n k = pre ++ rs ∧
      w.Drafted z n pre s.added done t
  | .resolve n => w.Still n
  | .resolveAll ns => ∀ n ∈ ns, w.Still n

/-- What a task has made of the container that it is about. -/
def Leaves (w z : Scene) (s s' : CompileState NodeId Command) (done' : NodeId → Prop)
    (t t' : Scene) : Task NodeId Command → Prop
  | .require m => m ∉ s.added → ∀ owner, w.Moves m owner → ∀ known, t.Drawn owner known →
      t'.Drawn owner (z.bring known (.node m))
  | .gather n _ => ∀ k, w.node n = .ok k → w.Drafted z n (needs [] n k) s'.added done' t'
  | _ => True

/-- What a search appends can be replayed, and what is done then agrees with the solution. -/
def Performs (w z : Scene) (mid : NodeId → Prop) (isolated pending : List NodeId)
    (task : Task NodeId Command) (s s' : CompileState NodeId Command) (done : NodeId → Prop)
    (t : Scene) : Prop :=
  ∃ done' t', Plays s s' t t' ∧ Agrees w z done' (task.busy mid) t' ∧
    w.Covers isolated pending s' done' ∧
    Evolves mid (task.draws w) task.places done done' t t' ∧ w.Leaves z s s' done' t t' task

/-- A list can be replayed whatever was done before, and then all that it visits is done, by the
list itself or by a list within. -/
structure Replays (w z : Scene) (isolated : List NodeId) (r : NodeId) (list : SceneList) :
    Prop where
  inputs : list.inputs = []
  leads : ∀ mid done t, Agrees w z done mid t → (∀ i ∈ isolated, done i) →
    w.Clear mid (.resolve r) → ∃ done' t', Leads list.commands t t' ∧ Agrees w z done' mid t' ∧
      Evolves mid (fun _ => False) (fun _ => False) done done' t t' ∧
      ∀ q, w.graph.Within isolated r q → done' q

/-- A node that was put together takes its steps. -/
theorem Drafted.settle (hw : w.WellFormed) (hsolution : Solution w z) (hx : w.node x = .ok n)
    (hgrounded : w.graph.Grounded x) {added : List NodeId}
    (h : w.Drafted z x (needs [] x n) added done₁ t₁) (hapart : w.Apart mid x)
    (hagrees : Agrees w z done₁ (fun q => q = x ∨ mid q) t₁)
    (hevolves : Evolves mid (· = x) (· = x) done done₁ t t₁)
    (hmid : ∀ owner, w.Moves x owner → mid owner) :
    ∃ done' t', Leads ((n.steps x).map .step) t₁ t' ∧ Agrees w z done' mid t' ∧
      (∀ q, done₁ q → done' q) ∧ done' x ∧
      Evolves mid (w.Moves x) (fun _ => False) done done' t t' ∧
      ∀ owner, w.Moves x owner → ∀ known, t.Drawn owner known →
        t'.Drawn owner (z.bring known (.node x)) := by
  have hx' : ¬ mid x := fun hmem => hapart x hmem .refl
  obtain ⟨t', hleads, htouches, hagrees', hmotion⟩ := hagrees.complete hsolution hw hx hgrounded
    h.present hapart hmid h.drawn
  have hsettles : Evolves mid (fun q => q = x ∨ w.Moves x q) (fun q => q = x ∨ False) done₁
      (fun q => q = x ∨ done₁ q) t₁ t' := by
    refine ⟨fun q hq => Or.inr hq, fun q hq hdone => ?_, fun q _ hdrawn => ?_,
      fun q _ hplaced => ?_⟩
    · exact hdone.resolve_left fun heq => hx' (heq ▸ hq)
    · exact htouches.containers q (fun heq => hdrawn (Or.inl heq))
        fun y hy hmoves => hdrawn (Or.inr (hy ▸ hmoves))
    · exact htouches.contents q fun heq => absurd (Or.inl heq) hplaced
  have hwhole := (hevolves.mono (fun _ => id) (fun _ => Or.inl) (fun _ => Or.inl)).trans hsettles
  refine ⟨_, t', hleads, hagrees', fun q hq => Or.inr hq, Or.inl rfl,
    hwhole.except (Or.inl rfl) hx', fun owner howner known hd => hmotion owner howner known ?_⟩
  -- The motion is not its own container, and nothing else came near the container.
  have hne : owner ≠ x := by
    rintro rfl
    exact hx' (hmid owner howner)
  exact hd.of_container? (hevolves.containers owner (fun _ => hmid owner howner) hne)

/-- Models are not extra motions. -/
theorem still_of_model (hx : w.node x = .ok n) (hmodel : n.model?.isSome = true) : w.Still x := by
  intro motion hmotion
  obtain rfl := node_unique hx hmotion
  cases hmodel

/-- A model that is isolated has nothing more to do. -/
theorem performs_isolated (hx : w.node x = .ok n) (hmodel : n.model?.isSome = true)
    (hisolated : x ∈ isolated) (hadded : x ∉ s.added) (hpending : x ∉ pending)
    (hagrees : Agrees w z done mid t) (hcovers : w.Covers isolated pending s done) :
    w.Performs z mid isolated pending (.require x) s (s.complete x []) done t := by
  have hstill := still_of_model hx hmodel
  refine ⟨done, t, .complete (leads_nil t), hagrees, ?_, .refl mid _ _ done t,
    fun _ owner howner => absurd howner hstill.not_moves⟩
  exact (hcovers.wait hadded).complete (fun _ => id) (hcovers.models x hisolated) hpending
    (fun owner howner => absurd howner hstill.not_moves) (fun _ hnew => absurd hisolated hnew) []

section

variable (hw : w.WellFormed) (hsolution : Solution w z) (hcalm : w.Calm root)
include hw hsolution hcalm

/-- A node that has all it needs enters the list, and if it is a model its list is replayed. -/
theorem performs_fresh (hx : w.node x = .ok n)
    (hordinary : ¬ (n.model?.isSome = true ∧ x ∈ isolated))
    (hnested : ∀ list, w.graph.OwnsList x → x ∉ isolated →
      (nested (isolated ++ [x]) x).result = .ok list →
        list.root = x ∧ w.Replays z (isolated ++ [x]) x list)
    {own : List Command} (hown : w.graph.Contributes nested isolated x own)
    (hmeets : w.Meets root (.require x)) (hclear : w.Clear mid (.require x))
    (harises : w.Arises z mid pending s done t (.require x)) (hpending : x ∉ pending)
    (hgather : w.Performs z mid isolated (pending ++ [x]) (.gather x (needs [] x n)) s s₁ done t) :
    w.Performs z mid isolated pending (.require x) s (s₁.complete x own) done t := by
  obtain ⟨access, hreaches⟩ := hmeets
  obtain ⟨done₁, t₁, hplays, hagrees₁, hcovers₁, hevolves₁, hdraft⟩ := hgather
  obtain ⟨done₂, t₂, hleads, hagrees₂, hgrows, hdone, hevolves₂, hmotion⟩ :=
    (hdraft n hx).settle hw hsolution hx (hcalm.grounded access x hreaches) hclear.apart hagrees₁
      hevolves₁ fun owner howner => (harises owner howner).2
  have hmoves : ∀ owner, w.Moves x owner → owner ∈ pending := fun owner howner =>
    (harises owner howner).1
  by_cases hmodel : n.model?.isSome = true
  · have hnew : x ∉ isolated := fun hmem => hordinary ⟨hmodel, hmem⟩
    have howns : w.graph.OwnsList x := ownsList_iff.mpr ((kind_eq_model hx).mpr hmodel)
    obtain ⟨list, hlist, rfl⟩ := contributes_list hx hmodel hnew hown
    obtain ⟨hroot, hreplays⟩ := hnested list howns hnew hlist
    have hisolated : ∀ i ∈ isolated ++ [x], done₂ i := by
      intro i hi
      rcases List.mem_append.mp hi with hi | hi
      · exact hgrows i (hcovers₁.models i hi)
      · obtain rfl := List.mem_singleton.mp hi
        exact hdone
    have hopens : w.Clear mid (.resolve x) := hclear.imp fun a ha =>
      ha.imp fun access ha => ⟨ha, Or.inr (ownsList_iff.mp howns)⟩
    obtain ⟨done₃, t₃, hleads₃, hagrees₃, hevolves₃, hwithin⟩ :=
      hreplays.leads mid done₂ t₂ hagrees₂ hisolated hopens
    have hsupplied : ∃ inputs, t₂.suppliedInputs x = .ok inputs := by
      obtain ⟨n', hn', -⟩ := node_of_wiring hagrees₂.wiring hx
      refine suppliedInputs_succeeds hn' fun entry hentry => ?_
      rw [count_eq_of_wiring hagrees₂.wiring]
      exact hcalm.sources x entry (hagrees₂.sources ▸ hentry)
    have hstill := still_of_model hx hmodel
    refine ⟨done₃, t₃, hplays.trans (.complete (hleads.append ?_)), hagrees₃, ?_,
      hevolves₂.trans (hevolves₃.mono (fun _ => id) (fun _ => False.elim) fun _ => id),
      fun _ owner howner => absurd howner hstill.not_moves⟩
    · rw [hroot]
      exact leads_replayModel hreplays.inputs hsupplied hleads₃
    · exact hcovers₁.complete (fun q hq => hevolves₃.grows q (hgrows q hq))
        (hevolves₃.grows x hdone) hpending hmoves (fun _ _ => hwithin) _
  · obtain rfl := contributes_steps hx (by simpa using hmodel) hown
    refine ⟨done₂, t₂, hplays.trans (.complete hleads), hagrees₂, ?_, hevolves₂,
      fun _ => hmotion⟩
    refine hcovers₁.complete hgrows hdone hpending hmoves (fun howns => ?_) _
    exact absurd ((kind_eq_model hx).mp (ownsList_iff.mp howns)) hmodel

/-- A waiting node goes on, given how it gets the next node that it needs. -/
theorem performs_upstream (hx : w.node x = .ok n) {pre rs : List Need}
    (hneeds : needs [] x n = pre ++ .node m :: rs)
    (hsearch : w.graph.Search nested isolated pending (.require m) s s₁)
    (hm : ∀ mid done t, w.Meets root (.require m) → w.Clear mid (.require m) →
      Agrees w z done mid t → w.Covers isolated pending s done →
      w.Arises z mid pending s done t (.require m) →
        w.Performs z mid isolated pending (.require m) s s₁ done t)
    (hrest : ∀ done t, Agrees w z done (fun q => q = x ∨ mid q) t →
      w.Covers isolated pending s₁ done →
      w.Drafted z x (pre ++ [.node m]) s₁.added done t →
        w.Performs z mid isolated pending (.gather x rs) s₁ s' done t)
    (hmeets : w.Meets root (.gather x rs)) (hclear : w.Clear mid (.gather x rs))
    (hagrees : Agrees w z done (fun q => q = x ∨ mid q) t)
    (hcovers : w.Covers isolated pending s done) (hpending : x ∈ pending)
    (hdraft : w.Drafted z x pre s.added done t) :
    w.Performs z mid isolated pending (.gather x (.node m :: rs)) s s' done t := by
  have hmem : .node m ∈ needs [] x n := by simp [hneeds]
  have hrequires := (requires_iff hx).mpr hmem
  obtain ⟨access, hreaches⟩ := hmeets
  have hgrounded := hcalm.grounded access x hreaches
  have hclear' : w.Clear mid (.require m) := hclear.imp fun a ha => ha.required hrequires
  have hmid : ¬ mid x := fun hq => by
    obtain ⟨a, ha, access, hreaches⟩ := hclear x hq
    exact ha access hreaches
  -- Whatever becomes of the node, it is one entry further in the end.
  have hstep : ∃ done₁ t₁, Plays s s₁ t t₁ ∧ Agrees w z done₁ (fun q => q = x ∨ mid q) t₁ ∧
      w.Covers isolated pending s₁ done₁ ∧ Evolves mid (· = x) (· = x) done done₁ t t₁ ∧
      w.Drafted z x (pre ++ [.node m]) s₁.added done₁ t₁ := by
    have hmover : x ∉ s₁.added → ∀ y ∈ s₁.added, y ∉ s.added → w.Moves y x → y = m :=
      fun hwaits y hy hnew hmoves => (movers hw hsearch y hy hnew x hmoves).resolve_right hwaits
    rcases still_or_moves hw hx hmem with hstill | hmoves
    · have hcontainer : done x → t.container? x = z.container? x := fun hdone => by
        have hquiet : w.Quiet (.node m) := hstill
        have hsolved := drawn_upto hw hsolution.wiring hx (hsolution.satisfied x hgrounded n hx)
          hneeds (Or.inl hquiet)
        rw [List.foldl_concat, bring_node_of_still hsolution.wiring hstill] at hsolved
        exact hdraft.container (hagrees.wiring.trans hsolution.wiring.symm) hsolved hdone
      obtain ⟨done₁, t₁, hplays, hagrees₁, hcovers₁, hevolves, -⟩ := hm mid done t
        ⟨_, hreaches.required hrequires⟩ hclear' (hagrees.release hcontainer) hcovers
        fun owner howner => absurd howner hstill.not_moves
      refine ⟨done₁, t₁, hplays, hagrees₁.mono fun _ => Or.inr, hcovers₁,
        hevolves.mono (fun _ => id) (fun q hq => absurd hq hstill.not_moves)
          (fun _ => False.elim), ?_⟩
      exact hdraft.still hw hx hsolution hgrounded hneeds hstill hmid hagrees₁ hevolves
        (hcovers₁.added m hsearch.achieved) (hmover (hcovers₁.waits x hpending))
    · have hbusy : w.Clear (fun q => q = x ∨ mid q) (.require m) := by
        rintro q (rfl | hq)
        · exact ⟨m, hcalm.motions access q hreaches m hmoves, _, .root⟩
        · exact hclear' q hq
      obtain ⟨done₁, t₁, hplays, hagrees₁, hcovers₁, hevolves, hleaves⟩ := hm _ done t
        ⟨_, hreaches.required hrequires⟩ hbusy hagrees hcovers
        fun owner howner => by
          obtain rfl := howner.unique hmoves
          exact ⟨hpending, Or.inl rfl⟩
      have hfresh : m ∉ s.added := fun hadded =>
        not_mem_of_moves hw hx hneeds hmoves (hdraft.moves m hadded hmoves)
      refine ⟨done₁, t₁, hplays, hagrees₁, hcovers₁,
        hevolves.mono (fun _ => Or.inr) (fun q hq => hq.unique hmoves) (fun _ => False.elim), ?_⟩
      exact hdraft.motion hw hx hneeds hmoves (Or.inl rfl) hevolves id
        (hcovers₁.added m hsearch.achieved) (hmover (hcovers₁.waits x hpending))
        (hleaves hfresh x hmoves _ hdraft.drawn)
  obtain ⟨done₁, t₁, hplays, hagrees₁, hcovers₁, hevolves₁, hdraft₁⟩ := hstep
  obtain ⟨done₂, t₂, hplays₂, hagrees₂, hcovers₂, hevolves₂, hleaves⟩ :=
    hrest done₁ t₁ hagrees₁ hcovers₁ hdraft₁
  exact ⟨done₂, t₂, hplays.trans hplays₂, hagrees₂, hcovers₂, hevolves₁.trans hevolves₂, hleaves⟩

/-- Replaying what a search appends, the lists of models included. -/
theorem performs
    (hnested : ∀ m list, (∃ access, w.Reaches root access m) → w.graph.OwnsList m → m ∉ isolated →
      (nested (isolated ++ [m]) m).result = .ok list →
        list.root = m ∧ w.Replays z (isolated ++ [m]) m list)
    (h : w.graph.Search nested isolated pending task s s') (hmeets : w.Meets root task)
    (hclear : w.Clear mid task) (hagrees : Agrees w z done (task.busy mid) t)
    (hcovers : w.Covers isolated pending s done) (harises : w.Arises z mid pending s done t task) :
    w.Performs z mid isolated pending task s s' done t := by
  induction h generalizing mid done t with
  | present hadded =>
      exact ⟨done, t, .refl _ t, hagrees, hcovers, .refl mid _ _ done t,
        fun hnew => absurd hadded hnew⟩
  | @fresh pending s s₁ x own hadded hpending hnodes hgather hown ih =>
      obtain ⟨n, hx⟩ := node_of_mem_graph hnodes
      rw [requirements_of_node hx, needs_eq] at hgather ih
      by_cases hisolated : n.model?.isSome = true ∧ x ∈ isolated
      · rw [if_pos hisolated] at hgather
        obtain rfl := hgather.eq_of_gather_nil
        obtain rfl := contributes_nothing hx hisolated.1 hisolated.2 hown
        exact performs_isolated hx hisolated.1 hisolated.2 hadded hpending hagrees hcovers
      rw [if_neg hisolated] at ih
      have hmid : ¬ mid x := fun hq => hclear.apart x hq .refl
      have hmoves : ∀ y ∈ s.added, ¬ w.Moves y x := fun y hy hmoves =>
        (hcovers.owned y hy x hmoves).elim hadded hpending
      refine performs_fresh hw hsolution hcalm hx hisolated (fun list => hnested x list hmeets)
        hown hmeets hclear harises hpending ?_
      exact ih hmeets hclear (hagrees.mono fun _ => Or.inr) (hcovers.wait hadded)
        ⟨by simp, n, [], hx, rfl, .nil hagrees hmid hmoves⟩
  | gathered =>
      obtain ⟨-, n, pre, hx, hneeds, hdraft⟩ := harises
      refine ⟨done, t, .refl _ t, hagrees, hcovers, .refl mid _ _ done t, fun k hk => ?_⟩
      obtain rfl := node_unique hx hk
      rwa [hneeds, List.append_nil]
  | gap _ ih =>
      obtain ⟨hpending, n, pre, hx, hneeds, hdraft⟩ := harises
      exact ih hmeets hclear hagrees hcovers
        ⟨hpending, n, pre ++ [.gap], hx, by simp [hneeds], hdraft.gap⟩
  | @inline pending s s' x c rs hrest ih =>
      obtain ⟨hpending, n, pre, hx, hneeds, hdraft⟩ := harises
      obtain ⟨access, hreaches⟩ := hmeets
      have hgrounded := hcalm.grounded access x hreaches
      have hmem : .command c ∈ needs [] x n := by simp [hneeds]
      obtain ⟨step, rfl, hstep⟩ := emits_of_needs hx hmem
      obtain ⟨t₁, ht₁⟩ := hstep.succeeds hw hagrees.wiring
      have hclear' : w.Clear mid (.require x) := hclear.imp fun a ha => ha
      have hdraft₁ := hdraft.inline hw hx hsolution hgrounded hagrees hclear'.apart hneeds ht₁
      obtain ⟨done', t', hplays, hagrees', hcovers', hevolves, hleaves⟩ :=
        ih ⟨access, hreaches⟩ hclear (hagrees.inline hw hx (Or.inl rfl) hmem ht₁)
          ⟨hcovers.models, hcovers.added, hcovers.within, hcovers.waits, hcovers.owned⟩
          ⟨hpending, n, pre ++ [.command (.step step)], hx, by simp [hneeds], hdraft₁⟩
      have hemit : Evolves mid (· = x) (· = x) done done t t₁ :=
        ⟨fun _ => id, fun _ _ => id, fun q _ hq => container?_of_needs hx hmem ht₁ hq,
          fun q _ hq => content?_of_needs hx hmem ht₁ fun heq => absurd heq hq⟩
      exact ⟨done', t', .trans (.emit (hstep.leads hagrees.wiring ht₁)) hplays, hagrees', hcovers',
        hemit.trans hevolves, hleaves⟩
  | @upstream pending s s₁ s' x m rs hrequire hrest ihm ihrest =>
      obtain ⟨hpending, n, pre, hx, hneeds, hdraft⟩ := harises
      refine performs_upstream hw hsolution hcalm hx hneeds hrequire
        (fun mid done t => ihm) (fun done t hagrees hcovers hdraft => ?_) hmeets hclear hagrees
        hcovers hpending hdraft
      exact ihrest hmeets hclear hagrees hcovers
        ⟨hpending, n, pre ++ [.node m], hx, by simp [hneeds], hdraft⟩
  | @inHand s s' x hrequire hexpanded ih =>
      obtain ⟨done', t', hplays, hagrees', hcovers', hevolves, -⟩ := ih (hmeets.imp fun _ h => h.1)
        (hclear.imp fun a ha => ha.imp fun _ h => h.1) hagrees hcovers
        fun owner howner => absurd howner harises.not_moves
      exact ⟨done', t', hplays, hagrees', hcovers',
        hevolves.mono (fun _ => id) (fun _ hq => harises.not_moves hq) (fun _ => id), trivial⟩
  | @expand s s₁ s' x hrequire _ hchildren ihx ihchildren =>
      obtain ⟨done₁, t₁, hplays, hagrees₁, hcovers₁, hevolves, -⟩ := ihx
        (hmeets.imp fun _ h => h.1) (hclear.imp fun a ha => ha.imp fun _ h => h.1) hagrees hcovers
        fun owner howner => absurd howner harises.not_moves
      obtain ⟨done', t', hplays', hagrees', hcovers', hevolves', -⟩ := ihchildren
        (Meets.children hmeets) (hclear.imp fun a ha => Meets.children ha) hagrees₁
        ⟨hcovers₁.models, hcovers₁.added, hcovers₁.within, hcovers₁.waits, hcovers₁.owned⟩
        fun m hm => still_of_child hw hm
      exact ⟨done', t', hplays.trans hplays', hagrees', hcovers',
        (hevolves.mono (fun _ => id) (fun _ hq => harises.not_moves hq) (fun _ => id)).trans
          hevolves', trivial⟩
  | resolvedAll =>
      exact ⟨done, t, .refl _ t, hagrees, hcovers, .refl mid _ _ done t, trivial⟩
  | @child s s₁ s' x xs hresolve hrest ihx ihrest =>
      obtain ⟨done₁, t₁, hplays, hagrees₁, hcovers₁, hevolves, -⟩ := ihx
        (hmeets x List.mem_cons_self) (hclear.imp fun a ha => ha x List.mem_cons_self) hagrees
        hcovers (harises x List.mem_cons_self)
      obtain ⟨done', t', hplays', hagrees', hcovers', hevolves', -⟩ := ihrest
        (fun m hm => hmeets m (List.mem_cons_of_mem x hm))
        (hclear.imp fun a ha m hm => ha m (List.mem_cons_of_mem x hm)) hagrees₁ hcovers₁
        fun m hm => harises m (List.mem_cons_of_mem x hm)
      exact ⟨done', t', hplays.trans hplays', hagrees', hcovers', hevolves.trans hevolves',
        trivial⟩

/-- A list that was compiled can be replayed, whatever was done before. -/
theorem replays_of_compileNested {nesting : Nat} {r : NodeId} {list : SceneList}
    (howns : ∀ i ∈ isolated, w.graph.OwnsList i) (hopens : w.Opens root r) (hstill : w.Still r)
    (h : (w.graph.compileNested nesting isolated r).result = .ok list) :
    w.Replays z isolated r list := by
  induction nesting generalizing isolated r list with
  | zero => simp [RenderGraph.compileNested] at h
  | succ nesting ih =>
      rw [RenderGraph.compileNested, compileWith_eq_ok] at h
      obtain ⟨c, hc, rfl⟩ := h
      have hsearch := search_of_resolve hc
      have hassembled := hsearch.assembled
      have hnested : ∀ m list, (∃ access, w.Reaches root access m) → w.graph.OwnsList m →
          m ∉ isolated → (w.graph.compileNested nesting (isolated ++ [m]) m).result = .ok list →
            list.root = m ∧ w.Replays z (isolated ++ [m]) m list := by
        intro m list hreaches howns' hnew hlist
        have hkind := ownsList_iff.mp howns'
        obtain ⟨n, hm, -⟩ := except_bind_eq_ok.mp hkind
        refine ⟨RenderGraph.Makes.root_eq ⟨nesting, hlist⟩, ih ?_ ?_ ?_ hlist⟩
        · simpa [or_imp, forall_and] using ⟨howns, howns'⟩
        · exact hreaches.imp fun _ hreaches => ⟨hreaches, Or.inr hkind⟩
        · exact still_of_model hm ((kind_eq_model hm).mp hkind)
      refine ⟨?_, fun mid done t hagrees hmodels hclear => ?_⟩
      · refine List.eq_nil_iff_forall_not_mem.mpr fun b hb => ?_
        obtain ⟨hadded, hindex⟩ := mem_bindings.mp hb
        obtain ⟨v, hv⟩ := inputIndex_eq_some.mp hindex
        obtain ⟨access, hreaches⟩ := hopens.visited howns ((hassembled.mem_added _).mp hadded)
        refine hcalm.inputs access _ hreaches ?_
        unfold kind
        rw [hv]
        rfl
      · obtain ⟨done', t', ⟨new, hnew, hleads⟩, hagrees', hcovers, hevolves, -⟩ :=
          performs hw hsolution hcalm hnested hsearch hopens hclear hagrees
            ⟨hmodels, by simp, by simp, by simp, by simp⟩ hstill
        obtain rfl : c.emissions = new := by simpa using hnew
        refine ⟨done', t', hleads, hagrees', hevolves, fun q hq => ?_⟩
        cases hq with
        | visited hq => exact hcovers.added q ((hassembled.mem_added q).mpr hq)
        | nested hm howns' hnew hq =>
            exact hcovers.within _ ((hassembled.mem_added _).mpr hm) howns' hnew q hq

end

/-- Replaying a list that was compiled from a scene with the same wiring and the same sources. -/
theorem replay_solved (hw : w.WellFormed) (hcalm : w.Calm root) (hroot : w.IsStill root)
    {list : SceneList} (hlist : (w.graph.compile root).result = .ok list)
    (ht : t.wiring = w.wiring) (hsources : t.sourceTable = w.sourceTable)
    (inputs : InputIndex → Option Float) :
    ∃ f, t.replay list inputs = .ok f ∧ ∀ access x, w.Reaches root access x →
      ∃ n, f.scene.node x = .ok n ∧ f.scene.Satisfied x n := by
  obtain ⟨z, htouches, hsolution⟩ := exists_solution hw ht
  have hreplays : w.Replays z [] root list := replays_of_compileNested hw hsolution hcalm (by simp)
    ⟨.resolved, .root, Or.inl rfl⟩ hroot.still hlist
  obtain ⟨done, t', hleads, hagrees, -, hwithin⟩ := hreplays.leads (fun _ => False) _ t
    (.start ht hsources htouches _) (by simp) fun _ => False.elim
  obtain ⟨f, hf, rfl⟩ := hleads { scene := t } rfl
  refine ⟨f, ?_, fun access x hx => ?_⟩
  · unfold replay CommandList.replay
    rw [hreplays.inputs]
    show list.commands.foldlM Command.run { scene := t } = _
    rw [← Command.runAll_eq_foldlM, hf]
  · obtain ⟨isolated, r, hincludes, hvisited, -⟩ := includes_of_reaches hx
    have hdone := hwithin x (hincludes.within (.visited hvisited))
    have hnodes := hincludes.nodes (closed hw) (List.mem_range.mpr hroot.lt_count)
    obtain ⟨n, hn⟩ := node_of_mem_graph (hvisited.mem_nodes (closed hw isolated) hnodes.1)
    have hsatisfied := hagrees.satisfied hsolution hw ⟨hdone, fun _ => False.elim⟩ hn
    obtain ⟨n', hn', hwiring⟩ := node_of_wiring hagrees.wiring hn
    exact ⟨n', hn', satisfied_of_wiring hwiring hsatisfied⟩

end Scene

end SceneGraph
