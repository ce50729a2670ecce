import SceneGraph.Proofs.Effects

/-!
Executing what a node contributes.

In a well-formed scene the commands of a compiled list can be executed one after the other,
whatever frame they start on.  Once all that a node needs is in place, its own commands leave
its equation satisfied.
-/

namespace SceneGraph

open RenderGraph (Nested)

/-- The steps that a node takes itself, once it has all that it needs. -/
def Node.steps (id : NodeId) : Node → List Step
  | .scalar .. | .input .. => []
  | .calculated c => (c.modifiers.getLast?.map fun tail => .assign id tail).toList
  | .modified m => [.modify id m.op m.target m.operand]
  | .transformation t => [.transform t.owner t.motion t.amount]
  | .part _ => [.showPart id]
  | .pin _ => [.showPin id]
  | .pinnedPart _ => [.showPinnedPart id]

theorem Command.runAll_append (f : Frame) (cs cs' : List Command) :
    Command.runAll f (cs ++ cs') = Command.runAll f cs >>= fun f' => Command.runAll f' cs' := by
  simp only [Command.runAll_eq_foldlM, List.foldlM_append]

namespace Scene

variable {w s t u : Scene} {x : NodeId} {n : Node}

/-- Executing commands leads from one scene to another, on any frame. -/
def Leads (cs : List Command) (s t : Scene) : Prop :=
  ∀ f : Frame, f.scene = s → ∃ f', Command.runAll f cs = .ok f' ∧ f'.scene = t

theorem leads_nil (s : Scene) : Leads [] s s :=
  fun f hf => ⟨f, rfl, hf⟩

theorem Leads.append {cs cs' : List Command} (hst : Leads cs s t) (htu : Leads cs' t u) :
    Leads (cs ++ cs') s u := by
  intro f hf
  obtain ⟨f', hf', hscene⟩ := hst f hf
  obtain ⟨f'', hf'', hscene'⟩ := htu f' hscene
  refine ⟨f'', ?_, hscene'⟩
  rw [Command.runAll_append, hf']
  exact hf''

theorem Leads.rewrites {cs : List Command} (h : Leads cs s t) : Rewrites s t := by
  obtain ⟨f, hf, rfl⟩ := h { scene := s } rfl
  exact Command.runAll_rewrites cs hf

/-- A step of a node shows the node itself. -/
theorem Emits.shown {step : Step} (h : Emits w x step) {shown : Shown}
    (hshown : step.shown? = some shown) : shown.node = x := by
  cases h <;> cases hshown <;> rfl

theorem Emits.node {step : Step} (h : Emits w x step) : ∃ n, w.node x = .ok n := by
  cases h <;> exact ⟨_, by assumption⟩

theorem Emits.leads (hs : s.wiring = w.wiring) {step : Step} (hstep : Emits w x step)
    (h : step.change s = .ok t) : Leads [.step step] s t := by
  rintro f rfl
  have ht := (step.change_rewrites f.scene t h).alike.wiring.trans hs
  have hrun : ∃ f', step.run f = .ok f' ∧ f'.scene = t := by
    cases hshown : step.shown? with
    | none =>
        refine ⟨f.withScene t, except_bind_eq_ok.mpr ⟨t, h, ?_⟩, rfl⟩
        rw [hshown]
        rfl
    | some shown =>
        obtain ⟨n, hn⟩ := hstep.node
        obtain ⟨n', hn', -⟩ := node_of_wiring ht hn
        have hpresent : ∃ f', (f.withScene t).present shown = .ok f' := by
          refine bind_succeeds (a := n') ?_ ?_
          · rw [hstep.shown hshown]
            exact hn'
          · cases n'.display? <;> exact ⟨_, rfl⟩
        obtain ⟨f', hf'⟩ := hpresent
        refine ⟨f', except_bind_eq_ok.mpr ⟨t, h, ?_⟩, Frame.scene_present hf'⟩
        rw [hshown]
        exact hf'
  obtain ⟨f', hf', hscene⟩ := hrun
  refine ⟨f', ?_, hscene⟩
  show (step.run f >>= fun f' => Command.runAll f' []) = _
  rw [hf']
  rfl

theorem requirements_of_node {isolated : List NodeId} (hx : w.node x = .ok n) :
    w.graph.requirements isolated x = needs isolated x n := by
  show (w.nodes[x]?.map (needs isolated x)).getD [] = _
  rw [node_eq_ok.mp hx]
  rfl

theorem requires_iff (hx : w.node x = .ok n) {m : NodeId} :
    w.graph.Requires [] x m ↔ .node m ∈ needs [] x n := by
  rw [RenderGraph.Requires, requirements_of_node hx]

theorem contributions_of_node {isolated : List NodeId} (hx : w.node x = .ok n) :
    w.graph.contributions isolated x = contributions isolated x n := by
  show (w.nodes[x]?.map (contributions isolated x)).getD [] = _
  rw [node_eq_ok.mp hx]
  rfl

/-- Isolated models need nothing, and isolation makes no other difference to what is needed. -/
theorem needs_eq (isolated : List NodeId) (x : NodeId) (n : Node) :
    needs isolated x n = if n.model?.isSome = true ∧ x ∈ isolated then [] else needs [] x n := by
  cases n with
  | part p =>
      by_cases h : p.model.isSome = true ∧ x ∈ isolated <;> simp [needs, Node.model?, h]
  | _ => simp [needs, Node.model?]

theorem mem_needs {isolated : List NodeId} {e : Need} (h : e ∈ needs isolated x n) :
    e ∈ needs [] x n := by
  rw [needs_eq] at h
  split at h
  · cases h
  · exact h

theorem mem_resolvedAfter {isolated : List NodeId} {m : NodeId} :
    m ∈ resolvedAfter isolated x n ↔ (n.model?.isSome = true → x ∈ isolated) ∧
      m ∈ (n.container?.map Container.children).getD [] := by
  cases n with
  | part p =>
      by_cases h : p.model.isSome = true <;> by_cases hx : x ∈ isolated <;>
        simp [resolvedAfter, Node.model?, Node.container?, h, hx]
  | _ => simp [resolvedAfter, Node.model?, Node.container?]

/-- A node that has no list of its own contributes its steps. -/
theorem contributes_steps {isolated : List NodeId} {nested : Nested NodeId Command}
    (hx : w.node x = .ok n) (hmodel : n.model? = none) {own : List Command}
    (hown : w.graph.Contributes nested isolated x own) : own = (n.steps x).map .step := by
  have hcs : contributions isolated x n = ((n.steps x).map .step).map .command := by
    cases n with
    | calculated c => cases htail : c.modifiers.getLast? <;> simp [contributions, Node.steps, htail]
    | part p =>
        have hmodel : p.model = none := hmodel
        simp [contributions, Node.steps, hmodel]
    | _ => rfl
  unfold RenderGraph.Contributes at hown
  rw [contributions_of_node hx, hcs, Traced.result_mapM_eq_ok, List.forall₂_map_left_iff] at hown
  simp only [RenderGraph.contribute, Traced.result_pure, Except.ok.injEq,
    List.forall₂_eq_eq_eq] at hown
  exact hown.symm

/-- A node is in order once its own commands are executed: its equation holds, and if it is an
extra motion its container is one entry further. -/
structure Completes (w : Scene) (x : NodeId) (n : Node) (s t : Scene) : Prop where
  touches : Touches w (· = x) s t
  satisfied : t.Satisfied x n
  moves : ∀ owner, w.Moves x owner → ∀ known, s.Drawn owner known →
    t.Drawn owner (t.bring known (.node x))

theorem Completes.of_still (hx : w.node x = .ok n) (hn : n.transformation? = none)
    (htouches : Touches w (· = x) s t) (hsatisfied : t.Satisfied x n) : Completes w x n s t := by
  refine ⟨htouches, hsatisfied, ?_⟩
  rintro owner ⟨motion, amount, hmoves⟩
  obtain rfl := node_unique hx hmoves
  cases hn

variable {group : NodeId → Prop}

/-- The steps of a node that has all it needs. -/
theorem completes (hw : w.WellFormed) (hs : s.wiring = w.wiring) (hgroup : w.Closed group)
    (hsatisfied : ∀ y, group y → ∀ n, w.node y = .ok n → s.Satisfied y n)
    (hx : w.node x = .ok n) (hready : Ready group x n) (hfresh : ¬ group x)
    (hdrawn : s.Drawn x ((needs [] x n).foldl s.bring {})) :
    ∃ t, Leads ((n.steps x).map .step) s t ∧ Completes w x n s t := by
  have hnone : n.steps x = [] → s.Satisfied x n → n.transformation? = none →
      ∃ t, Leads ((n.steps x).map .step) s t ∧ Completes w x n s t := by
    intro hsteps hsat hstill
    rw [hsteps]
    exact ⟨s, leads_nil s, .of_still hx hstill (.refl w _ s) hsat⟩
  have hone : ∀ {step : Step}, n.steps x = [step] → Emits w x step → ∃ t,
      step.change s = .ok t ∧ Leads ((n.steps x).map .step) s t ∧ Touches w (· = x) s t := by
    intro step hsteps hstep
    obtain ⟨t, ht⟩ := hstep.succeeds hw hs
    rw [hsteps]
    exact ⟨t, ht, hstep.leads hs ht, hstep.touches hw hs ht⟩
  cases n with
  | scalar v requirement =>
      refine hnone rfl ?_ rfl
      cases requirement with
      | none => trivial
      | some owner =>
          obtain ⟨k, hk, hshows⟩ := hw.fits x _ hx
          have howner := hready owner (by simp [needs, Requirement.ofOption])
          exact readsBack_of_owner hs hk hshows (hsatisfied owner howner k hk)
  | input v index => exact hnone rfl trivial rfl
  | calculated c =>
      cases htail : c.modifiers.getLast? with
      | none =>
          have hempty := List.getLast?_eq_none_iff.mp htail
          exact hnone (by simp [Node.steps, htail]) (fun h => absurd hempty h) rfl
      | some tail =>
          obtain ⟨t, ht, hleads, htouches⟩ := hone (by simp [Node.steps, htail]) (.assign hx htail)
          exact ⟨t, hleads, .of_still hx rfl htouches
            (satisfied_assign hw hs hgroup hfresh hsatisfied hx hready htail ht)⟩
  | modified m =>
      obtain ⟨t, ht, hleads, htouches⟩ := hone rfl (.modify hx)
      exact ⟨t, hleads, .of_still hx rfl htouches
        (satisfied_modify hw hs hgroup hfresh hx hready ht)⟩
  | transformation step =>
      obtain ⟨t, ht, hleads, htouches⟩ := hone rfl (.transform hx)
      refine ⟨t, hleads, htouches, trivial, ?_⟩
      rintro owner ⟨motion, amount, hmoves⟩ known hd
      obtain rfl := Node.transformation.inj (node_unique hx hmoves)
      exact drawn_transform hw hs hgroup hfresh hx hready ht hd
  | part p =>
      obtain ⟨t, ht, hleads, htouches⟩ := hone rfl (.showPart hx)
      exact ⟨t, hleads, .of_still hx rfl htouches
        (satisfied_showPart hw hs hgroup hfresh hx hready hdrawn ht)⟩
  | pin p =>
      obtain ⟨t, ht, hleads, htouches⟩ := hone rfl (.showPin hx)
      exact ⟨t, hleads, .of_still hx rfl htouches
        (satisfied_showPin hw hs hgroup hfresh hx hready ht)⟩
  | pinnedPart p =>
      obtain ⟨t, ht, hleads, htouches⟩ := hone rfl (.showPinnedPart hx)
      exact ⟨t, hleads, .of_still hx rfl htouches
        (satisfied_showPinnedPart hw hs hgroup hfresh hx hready hdrawn ht)⟩

end Scene

end SceneGraph
