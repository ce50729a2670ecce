import SceneGraph.Proofs.Calls

/-!
What the host sees while a list is replayed.

Main statement: each visited node with a display handle is shown once, a part or pin after its
parent, and whatever the host reads of the node then is what it would read of it after the
replay (`Session.calls_final`).
-/

namespace SceneGraph

open Relation (ReflTransGen)

/-- As what a node is shown. -/
def Node.shownAs? (id : NodeId) : Node → Option Shown
  | .part _ => some (.part id)
  | .pin _ => some (.pin id)
  | .pinnedPart _ => some (.pinnedPart id)
  | _ => none

@[simp] theorem Node.shownAs?_wiring (id : NodeId) (n : Node) :
    n.wiring.shownAs? id = n.shownAs? id := by
  cases n <;> rfl

/-- A list without duplicates is split in one way at each entry. -/
theorem split_unique {α β : Type} {f : α → β} {l l₁ l₂ l₁' l₂' : List α} {a a' : α}
    (hnodup : (l.map f).Nodup) (h : l = l₁ ++ a :: l₂) (h' : l = l₁' ++ a' :: l₂')
    (ha : f a = f a') : l₁ = l₁' ∧ a = a' := by
  have hmem : a ∈ l := h ▸ List.mem_append_right _ List.mem_cons_self
  have hmem' : a' ∈ l := h' ▸ List.mem_append_right _ List.mem_cons_self
  obtain rfl := List.inj_on_of_nodup_map hnodup hmem hmem' ha
  have hl := List.Nodup.of_map f hnodup
  have hnot : a ∉ l₁' ++ l₂' := by
    rw [h', List.nodup_middle, List.nodup_cons] at hl
    exact hl.1
  rw [List.mem_append, not_or] at hnot
  have heq := (List.append_cons_inj_of_notMem hnot.1 hnot.2).mp (h'.symm.trans h)
  exact ⟨heq.1.symm, rfl⟩

theorem Command.mem_showsAll {c : Command} {cs : List Command} (hc : c ∈ cs) {x : NodeId}
    (hx : x ∈ c.shows) : x ∈ showsAll cs := by
  induction cs with
  | nil => cases hc
  | cons c' cs ih =>
      rcases List.mem_cons.mp hc with rfl | hc
      · exact List.mem_append_left _ hx
      · exact List.mem_append_right _ (ih hc)

namespace RenderGraph

variable {ν κ : Type} [DecidableEq ν] {g : RenderGraph ν κ} {nested : Nested ν κ}
  {isolated : List ν} {root n : ν} {s : CompileState ν κ}

/-- A node's own commands close what it leads to: none of that comes later, and whatever the
node requires has been completed before. -/
theorem Assembled.own_split (h : g.Assembled nested isolated root s) (hn : n ∈ s.added) :
    ∃ before own after, s.emissions = before ++ .own n own :: after ∧
      g.Contributes nested isolated n own ∧
      (∀ e ∈ after, ¬ ReflTransGen (g.Requires isolated) n e.owner) ∧
      ∀ m, g.Requires isolated n m → ∃ cs, .own m cs ∈ before ∧
        g.Contributes nested isolated m cs := by
  obtain ⟨own, hown⟩ := h.settled n hn
  obtain ⟨before, after, hsplit, hbefore, hdue⟩ := hown.ownInTurn
  have hlater : ∀ e ∈ after, e.owner ≠ n := by
    have htrace := hown.trace
    rw [hsplit, Emission.ofNode_append, show Emission.ofNode n before = _ from hbefore,
      Emission.owner_own, List.append_cancel_left_eq] at htrace
    refine Emission.ofNode_eq_nil_iff.mp ?_
    simpa [Emission.ofNode] using htrace
  refine ⟨before, own, after, hsplit, hown.contributes, fun e he hleads => ?_, fun m hm => ?_⟩
  · rcases ReflTransGen.cases_head hleads with heq | ⟨m, hm, hleads⟩
    · exact hlater e he heq.symm
    · exact hdue m (mem_nodes.mpr hm) e.owner hleads e (List.mem_cons_of_mem _ he) rfl
  · have hadded : m ∈ s.added :=
      (h.mem_added m).mpr (.required ((h.mem_added n).mp hn) hm)
    obtain ⟨cs, hcs⟩ := h.settled m hadded
    have hmem : Emission.own m cs ∈ s.emissions := by
      refine List.mem_of_mem_filter (p := fun e => decide (e.owner = m)) ?_
      show _ ∈ Emission.ofNode m s.emissions
      rw [hcs.trace]
      exact List.mem_append_right _ (List.mem_singleton_self _)
    refine ⟨cs, ?_, hcs.contributes⟩
    rw [hsplit] at hmem
    rcases List.mem_append.mp hmem with hmem | hmem
    · exact hmem
    · exact absurd rfl (hdue m (mem_nodes.mpr hm) m .refl _ hmem)

end RenderGraph

/-- What a step tells the host: at most one call, about the scene that the step leaves. -/
theorem Step.calls_run {f f' : Frame} {step : Step} (h : step.run f = .ok f') :
    ∃ new, f'.calls = f.calls ++ new ∧ ∀ c ∈ new, c.scene = f'.scene ∧
      step.shown? = some c.shown ∧ f'.scene.display? c.shown.node = .ok (some c.handle) := by
  obtain ⟨t, ht, h⟩ := except_bind_eq_ok.mp h
  cases hshown : step.shown? with
  | none =>
      rw [hshown] at h
      cases h
      exact ⟨[], by simp [Frame.withScene], by simp⟩
  | some shown =>
      rw [hshown] at h
      obtain ⟨n, hn, h⟩ := except_bind_eq_ok.mp h
      cases hdisplay : n.display? with
      | none =>
          rw [hdisplay] at h
          cases h
          exact ⟨[], by simp [Frame.withScene], by simp⟩
      | some handle =>
          rw [hdisplay] at h
          cases h
          refine ⟨_, rfl, fun c hc => ?_⟩
          obtain rfl := List.mem_singleton.mp hc
          refine ⟨rfl, rfl, ?_⟩
          show ((f.withScene t).scene.node shown.node >>= fun n => pure n.display?) = _
          rw [hn, ok_bind, hdisplay]
          rfl

/-- A step that shows a node with a display handle makes one call. -/
theorem Step.call_run {f f' : Frame} {step : Step} (h : step.run f = .ok f') {shown : Shown}
    (hshown : step.shown? = some shown) (hdisplayed : f.scene.isDisplayed shown.node = true) :
    ∃ call, f'.calls = f.calls ++ [call] ∧ call.scene = f'.scene ∧ call.shown = shown ∧
      f'.scene.display? shown.node = .ok (some call.handle) := by
  obtain ⟨new, hnew, hcall⟩ := Step.calls_run h
  have hcalled := Step.called_run h
  have hshows : (Command.step step).shows.filter f.scene.isDisplayed = [shown.node] := by
    simp [Command.shows, hshown, hdisplayed]
  rw [hshows, Frame.called, hnew, List.map_append, Frame.called,
    List.append_cancel_left_eq] at hcalled
  obtain ⟨call, rfl, -⟩ := List.map_eq_singleton_iff.mp hcalled
  obtain ⟨hscene, hcallShown, hhandle⟩ := hcall call (List.mem_singleton_self call)
  obtain rfl : shown = call.shown := Option.some.inj (hshown.symm.trans hcallShown)
  exact ⟨call, hnew, hscene, rfl, hhandle⟩

namespace Scene

variable {w s t : Scene} {x root : NodeId} {n : Node}

/-- The host reads the same of a node in two scenes: where its content and its children are,
what is read back from it and, of a pin, where it is. -/
structure LooksAlike (x : NodeId) (s t : Scene) : Prop where
  placement : s.placement x = t.placement x
  working : s.working x = t.working x
  readbacks : ∀ n cell, s.node x = .ok n → n.Shows cell → s.value cell = t.value cell
  position : s.pinPosition? x = t.pinPosition? x

theorem Rewrites.display?_eq (h : Rewrites s t) : t.display? = s.display? := by
  funext id
  have hdisplay := h.map_node_eq (g := Node.display?) (fun v n => by cases n <;> rfl)
    (fun f n _ => by cases n <;> rfl) id
  have hread : ∀ r : Scene, r.display? id =
      (r.nodes[id]?.map Node.display?).elim (.error ⟨r.count, id⟩) .ok := by
    intro r
    unfold display? node
    cases r.nodes[id]? <;> rfl
  rw [hread, hread, hdisplay, count_eq_of_wiring h.alike.wiring]

theorem pinPosition?_of_kind_ne (hn : s.node x = .ok n) (hkind : n.kind ≠ .pin) :
    s.pinPosition? x = .ok none := by
  unfold pinPosition?
  rw [hn, ok_bind]
  cases n with
  | pin p => exact absurd rfl hkind
  | _ => rfl

/-- What leaves a group alone leaves the looks of its nodes alone. -/
theorem Keeps.looksAlike {group : NodeId → Prop} (h : Keeps w group s t) (hw : w.WellFormed)
    (hs : s.wiring = w.wiring) (hgroup : w.Closed group) (hx : group x)
    (hn : w.node x = .ok n) : LooksAlike x s t := by
  obtain ⟨n₁, hn₁, hwiring₁⟩ := node_of_wiring hs hn
  obtain ⟨n₂, hn₂, hwiring₂⟩ := node_of_wiring h.wiring hn₁
  refine ⟨(h.placement_eq hx hn₁).symm, (h.working_eq hx).symm, fun n' cell hn' hshows => ?_, ?_⟩
  · obtain rfl := node_unique hn₁ hn'
    have hdevelops : n₁.Develops n := .of_wiring hwiring₁.symm
    obtain ⟨v, hv⟩ := hw.scalar_of_shows hn (hdevelops.shows hshows)
    refine (h.values cell _ hv fun y hy => ?_).symm
    obtain rfl : x = y := Option.some.inj hy
    exact hx
  · by_cases hkind : n.kind = .pin
    · obtain ⟨p, rfl⟩ := Node.exists_pin_of_kind hkind
      exact (h.pinPosition?_eq hw hs hgroup hn (hgroup x _ hx hn)).symm
    · have hkind₁ : n₁.kind ≠ .pin := (Node.Develops.of_wiring hwiring₁).kind ▸ hkind
      have hkind₂ : n₂.kind ≠ .pin := (Node.Develops.of_wiring hwiring₂).kind ▸ hkind₁
      rw [pinPosition?_of_kind_ne hn₁ hkind₁, pinPosition?_of_kind_ne hn₂ hkind₂]

/-- What a node leads to holds all that its nodes need. -/
theorem closed_leadsTo (w : Scene) (x : NodeId) :
    w.Closed (ReflTransGen (w.graph.Requires []) x) := by
  intro id n hid hn m hm
  exact hid.tail ((requires_iff hn).mpr hm)

/-- Steps of acting nodes can be executed one after the other. -/
theorem runAll_touches (hw : w.WellFormed) {acting : NodeId → Prop} {commands : List Command}
    (hcommands : ∀ c ∈ commands, ∃ x step, acting x ∧ c = .step step ∧ Emits w x step)
    {f : Frame} (hf : f.scene.wiring = w.wiring) :
    ∃ f', Command.runAll f commands = .ok f' ∧ Touches w acting f.scene f'.scene ∧
      f.calls <+: f'.calls := by
  induction commands generalizing f with
  | nil => exact ⟨f, rfl, .refl w _ _, List.prefix_rfl⟩
  | cons c commands ih =>
      rw [List.forall_mem_cons] at hcommands
      obtain ⟨⟨x, step, hx, rfl, hstep⟩, hrest⟩ := hcommands
      obtain ⟨t, ht⟩ := hstep.succeeds hw hf
      obtain ⟨f₁, hf₁, rfl⟩ := hstep.leads hf ht f rfl
      have hrun : step.run f = .ok f₁ := by
        obtain ⟨f₂, hf₂, hnil⟩ := except_bind_eq_ok.mp hf₁
        cases hnil
        exact hf₂
      have htouches := (hstep.touches hw hf ht).mono fun y hy => hy ▸ hx
      obtain ⟨f', hf', htouches', hcalls⟩ := ih hrest (htouches.wiring.trans hf)
      obtain ⟨new, hnew, -⟩ := Step.calls_run hrun
      refine ⟨f', except_bind_eq_ok.mpr ⟨f₁, hrun, hf'⟩, htouches.trans htouches', ?_⟩
      exact (List.prefix_append f.calls new).trans (hnew ▸ hcalls)

theorem emits_of_steps (hn : w.node x = .ok n) {step : Step} (h : step ∈ n.steps x) :
    Emits w x step := by
  cases n with
  | scalar | input => cases h
  | calculated c =>
      obtain ⟨tail, htail, rfl⟩ := Option.map_eq_some_iff.mp (Option.mem_toList.mp h)
      exact .assign hn htail
  | modified m =>
      obtain rfl := List.mem_singleton.mp h
      exact .modify hn
  | transformation m =>
      obtain rfl := List.mem_singleton.mp h
      exact .transform hn
  | part p =>
      obtain rfl := List.mem_singleton.mp h
      exact .showPart hn
  | pin p =>
      obtain rfl := List.mem_singleton.mp h
      exact .showPin hn
  | pinnedPart p =>
      obtain rfl := List.mem_singleton.mp h
      exact .showPinnedPart hn

/-- A placed node ends with the step that shows it. -/
theorem steps_of_shownAs {shown : Shown} (h : n.shownAs? x = some shown) :
    ∃ step, n.steps x = [step] ∧ step.shown? = some shown ∧ shown.node = x := by
  cases n with
  | part p | pin p | pinnedPart p =>
      cases h
      exact ⟨_, rfl, rfl, rfl⟩
  | _ => cases h

/-- A part or pin needs its parent. -/
theorem needs_parent {p : NodeId} (hparent : n.parent? = some p)
    (hpinned : ∀ q, n ≠ .pinnedPart q) : .node p ∈ needs [] x n := by
  cases n with
  | part q =>
      have hparent : q.container.parent = some p := hparent
      simp [needs, partNeeds, hparent, Requirement.ofOption]
  | pin q =>
      have hparent : q.parent = some p := hparent
      simp [needs, hparent, Requirement.ofOption]
  | pinnedPart q => exact absurd rfl (hpinned q)
  | _ => cases hparent

theorem shownAs_of_isPlaced (hx : w.IsPlaced x) :
    ∃ n shown, w.node x = .ok n ∧ n.shownAs? x = some shown := by
  obtain ⟨n, hn, hkind⟩ := hx
  cases n with
  | part p | pin p | pinnedPart p => exact ⟨_, _, hn, rfl⟩
  | _ => exact (hkind.elim id nofun).elim

/-- A call to the host comes in its turn: it hands over the object that draws the node, after
the call for the node's parent unless that one is not drawn or the node is held by pins; and
the host reads what it would read at the end. -/
structure CallInTurn (s final : Scene) (before : List DisplayCall) (call : DisplayCall) : Prop where
  handle : s.display? call.shown.node = .ok (some call.handle)
  shown : ∃ n, s.node call.shown.node = .ok n ∧ n.shownAs? call.shown.node = some call.shown
  parent : ∀ p, s.parent? call.shown.node = .ok (some p) →
    (∀ id, call.shown ≠ .pinnedPart id) → s.isDisplayed p = true →
      p ∈ before.map fun c => c.shown.node
  final : LooksAlike call.shown.node call.scene final

section

variable {nested : RenderGraph.Nested NodeId Command} {c : CompileState NodeId Command}
  (hc : w.graph.Assembled nested [] root c)
  (hmodels : ∀ x ∈ c.added, ∀ n, w.node x = .ok n → n.model? = none)
include hc hmodels

/-- Without models, all that is emitted are steps of the node that emits them. -/
theorem emits_of_emission {e : Emission NodeId Command} (he : e ∈ c.emissions) {k : Command}
    (hk : k ∈ e.commands) : ∃ step, k = .step step ∧ Emits w e.owner step := by
  rcases hc.mem_emissions he with ⟨y, k', rfl, -, hk'⟩ | ⟨y, own, rfl, hy, hown⟩
  · obtain rfl := List.mem_singleton.mp hk
    obtain ⟨n, hn, hk'⟩ := mem_getD_map.mp hk'
    exact emits_of_needs hn hk'
  · obtain ⟨contribution, hcontribution, -⟩ := Traced.exists_of_mem_mapM hown hk
    obtain ⟨n, hn, -⟩ := mem_getD_map.mp hcontribution
    rw [contributes_steps hn (hmodels y hy n hn) hown] at hk
    obtain ⟨step, hstep, rfl⟩ := List.mem_map.mp hk
    exact ⟨step, rfl, emits_of_steps hn hstep⟩

/-- Some of the emissions can be executed on their own, and touch what their owners may
change. -/
theorem runAll_emissions (hw : w.WellFormed) {es : List (Emission NodeId Command)}
    (hes : es ⊆ c.emissions) {f : Frame} (hf : f.scene.wiring = w.wiring) :
    ∃ f', Command.runAll f (es.flatMap Emission.commands) = .ok f' ∧
      Touches w (fun x => ∃ e ∈ es, e.owner = x) f.scene f'.scene ∧ f.calls <+: f'.calls := by
  refine runAll_touches hw (fun k hk => ?_) hf
  obtain ⟨e, he, hk⟩ := List.mem_flatMap.mp hk
  obtain ⟨step, rfl, hstep⟩ := emits_of_emission hc hmodels (hes he) hk
  exact ⟨e.owner, step, ⟨e, he, rfl⟩, rfl, hstep⟩

/-- Once a placed node is completed, the host was called for it. -/
theorem called_of_own {es : List (Emission NodeId Command)} (hes : es ⊆ c.emissions)
    {f f' : Frame} (h : Command.runAll f (es.flatMap Emission.commands) = .ok f')
    {own : List Command} (hmem : .own x own ∈ es) (hown : w.graph.Contributes nested [] x own)
    (hplaced : w.IsPlaced x) (hdisplayed : f.scene.isDisplayed x = true) : x ∈ f'.called := by
  obtain ⟨n, shown, hn, hshown⟩ := shownAs_of_isPlaced hplaced
  obtain ⟨step, hsteps, hstepShown, hnode⟩ := steps_of_shownAs hshown
  rw [contributes_steps hn (hmodels x (hc.owners _ (hes hmem)) n hn) hown, hsteps] at hmem
  have hcommand : .step step ∈ es.flatMap Emission.commands :=
    List.mem_flatMap.mpr ⟨_, hmem, List.mem_singleton_self _⟩
  rw [Command.called_runAll _ h]
  refine List.mem_append_right _ (List.mem_filter.mpr ⟨?_, hdisplayed⟩)
  exact Command.mem_showsAll hcommand (by simp [Command.shows, hstepShown, hnode])

/-- The moment at which a node is shown. -/
theorem shown_inTurn (hw : w.WellFormed) {f₁ f : Frame} (hs : Rewrites s f₁.scene)
    (hwiring : s.wiring = w.wiring)
    (hrun : Command.runAll f₁ (c.emissions.flatMap Emission.commands) = .ok f)
    (hx : x ∈ c.added) (hn : w.node x = .ok n) {shown : Shown}
    (hshown : n.shownAs? x = some shown) (hdisplayed : s.isDisplayed x = true) :
    ∃ before call after, f.calls = before ++ call :: after ∧ call.shown.node = x ∧
      CallInTurn s f.scene before call := by
  obtain ⟨es, own, later, hsplit, hown, hlater, hrequired⟩ := hc.own_split hx
  obtain ⟨step, hsteps, hstepShown, rfl⟩ := steps_of_shownAs hshown
  rw [contributes_steps hn (hmodels _ hx n hn) hown, hsteps] at hsplit
  have hwiring₁ : f₁.scene.wiring = w.wiring := hs.alike.wiring.trans hwiring
  have hes : es ⊆ c.emissions := hsplit ▸ List.subset_append_left es _
  have hlaterEs : later ⊆ c.emissions := fun e he => hsplit ▸
    List.mem_append_right _ (List.mem_cons_of_mem _ he)
  -- The run stops before and after the step that shows the node.
  obtain ⟨g, hg, -, -⟩ := runAll_emissions hc hmodels hw hes hwiring₁
  rw [hsplit, List.flatMap_append, Command.runAll_append, hg, ok_bind] at hrun
  obtain ⟨g', hg', hrest⟩ := except_bind_eq_ok.mp hrun
  have hsg : Rewrites s g.scene := hs.trans (Command.runAll_rewrites _ hg)
  have hsg' : Rewrites s g'.scene := hsg.trans (Command.run_rewrites (.step step) hg')
  have hwiring' : g'.scene.wiring = w.wiring := hsg'.alike.wiring.trans hwiring
  obtain ⟨f', hf', htouches, after, hafter⟩ := runAll_emissions hc hmodels hw hlaterEs hwiring'
  obtain rfl : f' = f := Except.ok.inj (hf'.symm.trans hrest)
  obtain ⟨call, hcalls, hscene, rfl, hhandle⟩ := Step.call_run hg' hstepShown
    (by rw [hsg.isDisplayed_eq, hdisplayed])
  obtain ⟨n', hn', heq⟩ := node_of_wiring hwiring hn
  refine ⟨g.calls, call, after, by rw [← hafter, hcalls, List.append_assoc]; rfl, rfl,
    ⟨?_, ?_, ?_, ?_⟩⟩
  · rw [← hsg'.display?_eq, hhandle]
  · exact ⟨n', hn', by rw [← Node.shownAs?_wiring, heq, Node.shownAs?_wiring, hshown]⟩
  · intro p hparent hpinned hp
    have hparent : n.parent? = some p := by
      rw [parent?, hn'] at hparent
      rw [← Node.parent?_wiring, ← heq, Node.parent?_wiring]
      exact Except.ok.inj hparent
    have hneed : .node p ∈ needs [] call.shown.node n := by
      refine needs_parent hparent ?_
      rintro q rfl
      exact hpinned call.shown.node (Option.some.inj hshown).symm
    obtain ⟨cs, hcs, hcontributes⟩ := hrequired p ((requires_iff hn).mpr hneed)
    exact called_of_own hc hmodels hes hg hcs hcontributes
      (parent_isContainer hw hn hparent).isPlaced (by rw [hs.isDisplayed_eq, hp])
  · rw [hscene]
    have hkeeps := (closed_leadsTo w call.shown.node).keeps hw htouches
      fun y ⟨e, he, hy⟩ => hy ▸ hlater e he
    exact hkeeps.looksAlike hw hwiring' (closed_leadsTo w _) .refl hn

end

theorem isShown_iff : n.isShown [] x = true ↔ n.kind.IsPlaced := by
  cases n with
  | part p =>
      cases hmodel : p.model <;>
        simp [Node.isShown, Node.kind, NodeKind.IsPlaced, NodeKind.IsContainer, hmodel]
  | _ => simp [Node.isShown, Node.kind, NodeKind.IsPlaced, NodeKind.IsContainer]

/-- Without models, no list is replayed within the list. -/
theorem showsAll_of_steps {commands : List Command}
    (h : ∀ k ∈ commands, ∃ step, k = .step step) :
    Command.showsAll commands = Command.shownIn commands := by
  induction commands with
  | nil => rfl
  | cons k commands ih =>
      rw [List.forall_mem_cons] at h
      obtain ⟨⟨step, rfl⟩, hrest⟩ := h
      rw [Command.showsAll, ih hrest]
      cases hshown : step.shown? <;> simp [Command.shows, Command.shownIn, Command.shown?, hshown]

/-- Replaying a list that was compiled from a scene with the same wiring. -/
theorem replay_shows (hw : w.WellFormed) {list : SceneList}
    (hlist : (w.compile root).result = .ok list)
    (hplain : ∀ id, w.graph.Visited [] root id → w.kind id ≠ .ok .model)
    (hs : s.wiring = w.wiring) (inputs : InputIndex → Option Float) :
    ∃ f, s.replay list inputs = .ok f ∧ f.called.Nodup ∧
      (∀ x, x ∈ f.called ↔
        w.graph.Visited [] root x ∧ w.IsPlaced x ∧ s.isDisplayed x = true) ∧
      ∀ before call after, f.calls = before ++ call :: after →
        CallInTurn s f.scene before call := by
  have hmakes := makes_of_compile hlist
  obtain ⟨c, hc, rfl⟩ := RenderGraph.assembled_of_compile (mapError_eq_ok.mp hlist)
  have hmodels : ∀ x ∈ c.added, ∀ n, w.node x = .ok n → n.model? = none := fun x hx n hn =>
    model?_eq_none hn (hplain x ((hc.mem_added x).mp hx))
  have hnumber : ∀ b ∈ w.graph.bindings c, w.IsNumber b.node := by
    intro b hb
    obtain ⟨v, hv⟩ := inputIndex_eq_some.mp (RenderGraph.mem_bindings.mp hb).2
    exact ⟨_, hv, trivial⟩
  obtain ⟨f₁, hwrites, hwiring₁, -⟩ :=
    writes_supplied hc.bindings_nodup hnumber inputs { scene := s } hs
  have hrewrites : Rewrites s f₁.scene := Frame.writes_rewrites hwrites
  obtain ⟨f, hrun, -⟩ := runAll_emissions hc hmodels hw (List.Subset.refl _) hwiring₁
  have hreplay : s.replay (w.graph.finish root c) inputs = .ok f := by
    unfold replay CommandList.replay
    show ((CommandList.writes inputs (w.graph.bindings c)).foldlM Frame.write _ >>= _) = _
    rw [hwrites, ok_bind, ← Command.runAll_eq_foldlM]
    exact hrun
  have hcalled : f.called =
      (Command.shownIn (w.graph.finish root c).commands).filter s.isDisplayed := by
    rw [called_replay hreplay, ← showsAll_of_steps]
    · rfl
    · intro k hk
      obtain ⟨e, he, hk⟩ := List.mem_flatMap.mp hk
      exact (emits_of_emission hc hmodels he hk).imp fun step h => h.1
  have hnodup : f.called.Nodup := hcalled ▸ (nodup_shownIn hmakes).filter _
  have hmem : ∀ x, x ∈ f.called ↔
      w.graph.Visited [] root x ∧ w.IsPlaced x ∧ s.isDisplayed x = true := by
    intro x
    rw [hcalled, List.mem_filter, mem_shownIn_iff hmakes, and_assoc]
    simp only [isShown_iff, HasKind]
  refine ⟨f, hreplay, hnodup, hmem, fun before call after hcalls => ?_⟩
  obtain ⟨hvisited, hplaced, hdisplayed⟩ := (hmem call.shown.node).mp <| by
    rw [Frame.called, hcalls]
    exact List.mem_map_of_mem (List.mem_append_right _ List.mem_cons_self)
  obtain ⟨n, shown, hn, hshown⟩ := shownAs_of_isPlaced hplaced
  obtain ⟨before', call', after', hcalls', hnode, hturn⟩ := shown_inTurn hc hmodels hw hrewrites hs
    hrun ((hc.mem_added _).mpr hvisited) hn hshown hdisplayed
  obtain ⟨rfl, rfl⟩ := split_unique hnodup hcalls' hcalls hnode
  exact hturn

end Scene

namespace Session

variable {σ τ : Session}

/-- What the host sees is final, and parents come first.  Take a list that was compiled for a
node of a scene, no model being among the visited nodes, and replay it after any edits of
values.  The replay succeeds.  It calls the host once for each visited part, pin or pinned part
with a display handle and for nothing else, and each call comes in its turn. -/
theorem calls_final (hσ : Reachable σ) {root : NodeId} {list : SceneList}
    (hlist : (σ.scene.compile root).result = .ok list)
    (hplain : ∀ id, σ.scene.graph.Visited [] root id → σ.scene.kind id ≠ .ok .model)
    (hedits : Edits σ τ) (inputs : List (Option Float)) :
    ∃ f, τ.scene.replay list (suppliedBy inputs) = .ok f ∧ f.called.Nodup ∧
      (∀ x, x ∈ f.called ↔ σ.scene.graph.Visited [] root x ∧ σ.scene.IsPlaced x ∧
        τ.scene.isDisplayed x = true) ∧
      ∀ before call after, f.calls = before ++ call :: after →
        Scene.CallInTurn τ.scene f.scene before call :=
  Scene.replay_shows hσ.sound.wellFormed hlist hplain (wiring_of_edits hedits) (suppliedBy inputs)

/-- A part with a child and, on it, a pin; all of them are drawn. -/
def drawnChain : List Operation :=
  [.part, .part, .pin, .addChild 3 4, .addChild 4 5, .setDisplay 5 9, .setDisplay 4 8,
    .setDisplay 3 7]

theorem calls_final_drawnChain : ∃ σ list f, (start 100.0).runAll drawnChain = some σ ∧
    (σ.scene.compile 5).result = .ok list ∧ σ.scene.replay list (suppliedBy []) = .ok f ∧
    f.called = [3, 4, 5] ∧
    ∀ before call after, f.calls = before ++ call :: after →
      Scene.CallInTurn σ.scene f.scene before call := by
  have hrun : ∃ σ ∈ (start 100.0).runAll drawnChain, ∃ f ∈ σ.frame? 5,
      f.called = [3, 4, 5] ∧ NodeKind.model ∉ σ.scene.nodes.toList.map Node.kind := by
    decide +kernel
  obtain ⟨σ, hσ, f, hf, hcalled, hmodel⟩ := hrun
  obtain ⟨list, hlist, hreplay⟩ := frame?_eq_some.mp hf
  obtain ⟨f', hf', -, -, hturn⟩ :=
    calls_final ⟨100.0, runs_of_runAll hσ⟩ hlist (fun id _ => Scene.kind_ne hmodel id) .refl []
  obtain rfl := Except.ok.inj (hreplay.symm.trans hf')
  exact ⟨σ, list, f, hσ, hlist, hreplay, hcalled, hturn⟩

end Session

end SceneGraph
