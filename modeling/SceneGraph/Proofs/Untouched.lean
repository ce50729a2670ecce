import SceneGraph.Proofs.Enclosure
import SceneGraph.Proofs.Ownership
import SceneGraph.Proofs.Usage

/-!
What a replay leaves as it is.

Executing a list overwrites numbers and matrices and nothing else, and of these only the ones
that some command of the list is there for.  That holds of every list, however old.  Main
statement: the numbers and matrices that a replay may change are known in advance, from the
list, from the sources of models, and from the read-backs that there are
(`Session.replay_confined`).
-/

namespace SceneGraph

/-- The link that adds an operand. -/
def ChainLink.adding (operand : Operand) : ChainLink :=
  ⟨.add, some operand, rfl⟩

namespace Node

/-- A node without its number and its matrices. -/
def outline : Node → Node
  | .scalar _ requirement => .scalar 0.0 requirement
  | .input _ index => .input 0.0 index
  | .calculated c => .calculated { c with value := 0.0 }
  | .modified m => .modified { m with value := 0.0 }
  | .transformation t => .transformation t
  | .part p => .part { p with container := p.container.wiring }
  | .pin p => .pin p
  | .pinnedPart p => .pinnedPart { p with container := p.container.wiring }

@[simp] theorem outline_setValue (v : Float) (n : Node) : (n.setValue v).outline = n.outline := by
  cases n <;> rfl

theorem outline_mapContainer {f : Container → Container} (hf : ∀ c, (f c).wiring = c.wiring)
    (n : Node) : (n.mapContainer f).outline = n.outline := by
  cases n <;> simp [outline, mapContainer, hf]

end Node

/-- The node that a step computes the number of. -/
def Step.computed? : Step → Option NodeId
  | .modify dest _ _ _ | .assign dest _ => some dest
  | _ => none

/-- Executing a step may overwrite the number of a node: the step computes it, or it shows what
the node reads back. -/
def Step.Writes (s : Scene) (step : Step) (x : NodeId) : Prop :=
  step.computed? = some x ∨
    ∃ shown n, step.shown? = some shown ∧ s.node shown.node = .ok n ∧ n.Shows x

/-- A list holds a step itself, or a list within it does. -/
def Command.HasStep (list : SceneList) (step : Step) : Prop :=
  ∃ models l, Encloses list models l ∧ .step step ∈ l.commands

theorem Command.HasStep.within {list inner : SceneList} {step : Step} {model : NodeId}
    (h : HasStep inner step) (hmodel : .replayModel model inner ∈ list.commands) :
    HasStep list step := by
  obtain ⟨models, l, hl, hstep⟩ := h
  exact ⟨model :: models, l, .inner hmodel hl, hstep⟩

namespace Scene

open Command (Encloses HasStep)

variable {s t w : Scene} {x : NodeId} {step : Step} {f f' : Frame} {list : SceneList}
  {inputs : InputIndex → Option Float}

/-- The scene without the numbers and matrices of its nodes. -/
def outline (s : Scene) : Array Node :=
  s.nodes.map Node.outline

theorem Rewrites.outline_eq (h : Rewrites s t) : t.outline = s.outline := by
  apply Array.ext_getElem?
  intro i
  simp only [outline, Array.getElem?_map]
  exact h.map_node_eq Node.outline_setValue (fun f n hf => Node.outline_mapContainer hf n) i

theorem writes_iff_of_wiring (h : t.wiring = s.wiring) : step.Writes t x ↔ step.Writes s x := by
  have himp : ∀ {s t : Scene}, t.wiring = s.wiring → step.Writes t x → step.Writes s x := by
    rintro s t h (hcomputed | ⟨shown, n, hshown, hn, hx⟩)
    · exact .inl hcomputed
    · obtain ⟨n', hn', hwiring⟩ := node_of_wiring h.symm hn
      exact .inr ⟨shown, n', hshown, hn', (Node.shows_of_wiring hwiring).mpr hx⟩
  exact ⟨himp h, himp h.symm⟩

/-- All that changed are certain numbers and the matrices of certain containers. -/
structure Confined (writes draws : NodeId → Prop) (s t : Scene) : Prop where
  values : ∀ x, ¬ writes x → t.value x = s.value x
  containers : ∀ x, ¬ draws x → t.container? x = s.container? x

namespace Confined

variable {writes draws writes' draws' : NodeId → Prop} {u : Scene} {id : NodeId}

theorem refl (s : Scene) : Confined writes draws s s :=
  ⟨fun _ _ => rfl, fun _ _ => rfl⟩

theorem trans (hst : Confined writes draws s t) (htu : Confined writes draws t u) :
    Confined writes draws s u :=
  ⟨fun x hx => (htu.values x hx).trans (hst.values x hx),
    fun x hx => (htu.containers x hx).trans (hst.containers x hx)⟩

theorem mono (h : Confined writes draws s t) (hwrites : ∀ x, writes x → writes' x)
    (hdraws : ∀ x, draws x → draws' x) : Confined writes' draws' s t :=
  ⟨fun x hx => h.values x fun hwrite => hx (hwrites x hwrite),
    fun x hx => h.containers x fun hdraw => hx (hdraws x hdraw)⟩

theorem setValue {v : Float} (h : s.setValue id v = .ok t) (hid : writes id) :
    Confined writes draws s t :=
  ⟨fun _ hx => value_update_of_ne h fun heq => hx (heq ▸ hid),
    fun x _ => container?_setValue h x⟩

theorem mapContainer {f : Container → Container} (h : s.update id (Node.mapContainer f) = .ok t)
    (hid : draws id) : Confined writes draws s t :=
  ⟨fun x _ => value_mapContainer h x,
    fun _ hx => container?_update_of_ne h fun heq => hx (heq ▸ hid)⟩

end Confined

section Showing

variable {draws : NodeId → Prop} {owner : NodeId}

theorem refreshReadbacks_confined (h : s.refreshReadbacks owner = .ok t) :
    Confined (fun x => ∃ n, s.node owner = .ok n ∧ n.Shows x) draws s t := by
  obtain ⟨n, hn, hrest⟩ := except_bind_eq_ok.mp h
  cases hslots : n.readbacks? with
  | none =>
      rw [hslots] at hrest
      cases hrest
      exact .refl s
  | some slots =>
      rw [hslots] at hrest
      refine foldlM_related Confined.refl Confined.trans (fun {u r v} hr => ?_) Readback.all hrest
      unfold refreshReadback at hr
      cases hcell : slots r with
      | none =>
          rw [hcell] at hr
          cases hr
          exact .refl u
      | some cell =>
          rw [hcell] at hr
          obtain ⟨_, -, hset⟩ := except_bind_eq_ok.mp hr
          exact .setValue hset ⟨n, hn, .inl ⟨r, by rw [Node.readback?, hslots]; exact hcell⟩⟩

theorem setSlotValue_confined {writes : NodeId → Prop} {slot : Option NodeId} {v : Float}
    (h : s.setSlotValue slot v = .ok t) (hslot : ∀ cell, slot = some cell → writes cell) :
    Confined writes draws s t := by
  cases slot with
  | none =>
      cases h
      exact .refl s
  | some cell => exact .setValue h (hslot cell rfl)

theorem refreshPin_confined (h : s.refreshPin owner = .ok t) :
    Confined (fun x => ∃ n, s.node owner = .ok n ∧ n.Shows x) draws s t := by
  obtain ⟨position, -, hrest⟩ := except_bind_eq_ok.mp h
  cases position with
  | none =>
      cases hrest
      exact .refl s
  | some world =>
      obtain ⟨n, hn, hrest⟩ := except_bind_eq_ok.mp hrest
      obtain ⟨u, hu, ht⟩ := except_bind_eq_ok.mp hrest
      have hslot : ∀ axis cell, n.pinReadback? axis = some cell →
          ∃ n, s.node owner = .ok n ∧ n.Shows cell := fun axis _ hcell =>
        ⟨n, hn, .inr ⟨axis, hcell⟩⟩
      exact (setSlotValue_confined hu (hslot .x)).trans (setSlotValue_confined ht (hslot .y))

end Showing

/-- A step changes nothing but the numbers that it writes and the matrices that it is about. -/
theorem change_confined (h : step.change s = .ok t) :
    Confined (step.Writes s) (step.drawn? = some ·) s t := by
  cases step with
  | modify dest op target operand =>
      obtain ⟨_, -, h⟩ := except_bind_eq_ok.mp h
      obtain ⟨_, -, hset⟩ := except_bind_eq_ok.mp h
      exact .setValue hset (.inl rfl)
  | assign dest source =>
      obtain ⟨_, -, hset⟩ := except_bind_eq_ok.mp h
      exact .setValue hset (.inl rfl)
  | compose part cells =>
      obtain ⟨_, -, h⟩ := except_bind_eq_ok.mp h
      obtain ⟨_, -, h⟩ := except_bind_eq_ok.mp h
      obtain ⟨_, -, h⟩ := except_bind_eq_ok.mp h
      obtain ⟨_, -, h⟩ := except_bind_eq_ok.mp h
      obtain ⟨_, -, hmap⟩ := except_bind_eq_ok.mp h
      exact .mapContainer hmap rfl
  | transform owner motion amount =>
      obtain ⟨_, -, hmap⟩ := except_bind_eq_ok.mp h
      exact .mapContainer hmap rfl
  | concatParent part parent =>
      obtain ⟨n, -, h⟩ := except_bind_eq_ok.mp h
      cases hc : n.container? with
      | none =>
          rw [hc] at h
          cases h
          exact .refl s
      | some c =>
          rw [hc] at h
          exact .mapContainer h rfl
  | placeContent part originX originY =>
      obtain ⟨_, -, h⟩ := except_bind_eq_ok.mp h
      obtain ⟨_, -, hmap⟩ := except_bind_eq_ok.mp h
      exact .mapContainer hmap rfl
  | solvePins part pins width height =>
      obtain ⟨_, -, h⟩ := except_bind_eq_ok.mp h
      obtain ⟨_, -, h⟩ := except_bind_eq_ok.mp h
      obtain ⟨_, -, hmap⟩ := except_bind_eq_ok.mp h
      exact .mapContainer hmap rfl
  | showPart id | showPinnedPart id =>
      exact (refreshReadbacks_confined h).mono
        (fun x ⟨n, hn, hx⟩ => .inr ⟨_, n, rfl, hn, hx⟩) fun _ hx => hx
  | showPin id =>
      exact (refreshPin_confined h).mono
        (fun x ⟨n, hn, hx⟩ => .inr ⟨_, n, rfl, hn, hx⟩) fun _ hx => hx

theorem writes_confined {draws : NodeId → Prop} {bindings : List (InputBinding NodeId)}
    {writes : List (NodeId × Float)} (hwrites : writes ⊆ CommandList.writes inputs bindings)
    (h : writes.foldlM Frame.write f = .ok f') :
    Confined (fun x => ∃ index, ⟨x, index⟩ ∈ bindings ∧ (inputs index).isSome = true) draws
      f.scene f'.scene := by
  induction writes generalizing f with
  | nil =>
      cases h
      exact .refl _
  | cons write writes ih =>
      rw [List.foldlM_cons] at h
      obtain ⟨f₁, hwrite, hrest⟩ := except_bind_eq_ok.mp h
      obtain ⟨u, hu, rfl⟩ := except_map_eq_ok.mp hwrite
      obtain ⟨⟨x, index⟩, hb, v, hv, rfl⟩ := binding_of_mem_writes (hwrites List.mem_cons_self)
      exact Confined.trans (.setValue hu ⟨index, hb, by rw [hv]; rfl⟩)
        (ih (List.subset_of_cons_subset hwrites) hrest)

/-- Where numbers may change when a list is replayed that may name anything: at inputs for which
the list or a list within it gets a value, and wherever a step writes. -/
inductive Overwritten (s : Scene) (supplied : InputIndex → Prop) (list : SceneList) :
    NodeId → Prop
  | input {x : NodeId} {index : InputIndex} (hx : ⟨x, index⟩ ∈ list.inputs)
      (hsupplied : supplied index) : Overwritten s supplied list x
  | fed {x model : NodeId} {index : InputIndex} {models : List NodeId} {l : SceneList}
      (hl : Encloses list (models ++ [model]) l) (hx : ⟨x, index⟩ ∈ l.inputs)
      (hsource : ((s.sourceTable model).source? index).isSome = true) :
      Overwritten s supplied list x
  | written {x : NodeId} {step : Step} (hstep : HasStep list step) (hx : step.Writes s x) :
      Overwritten s supplied list x

/-- Where numbers may change when a list is replayed: at inputs for which the list or a list
within it gets a value, at links and calculated values that a step computes, and at the
read-backs of nodes that a step shows. -/
inductive Exposed (s : Scene) (supplied : InputIndex → Prop) (list : SceneList) : NodeId → Prop
  | input {x : NodeId} {index : InputIndex} (hkind : s.HasKind (· = .input) x)
      (hx : ⟨x, index⟩ ∈ list.inputs) (hsupplied : supplied index) : Exposed s supplied list x
  | fed {x model : NodeId} {index : InputIndex} {models : List NodeId} {l : SceneList}
      (hkind : s.HasKind (· = .input) x) (hl : Encloses list (models ++ [model]) l)
      (hx : ⟨x, index⟩ ∈ l.inputs)
      (hsource : ((s.sourceTable model).source? index).isSome = true) : Exposed s supplied list x
  | computed {x : NodeId} {step : Step}
      (hkind : s.HasKind (fun k => k = .modified ∨ k = .calculated) x) (hstep : HasStep list step)
      (hx : step.computed? = some x) : Exposed s supplied list x
  | readBack {x : NodeId} {v : Float} {step : Step} {shown : Shown} {n : Node}
      (hkind : s.node x = .ok (.scalar v (some shown.node))) (hstep : HasStep list step)
      (hshown : step.shown? = some shown) (hn : s.node shown.node = .ok n) (hx : n.Shows x) :
      Exposed s supplied list x

/-- Replaying the list changes the matrices of a container. -/
def Draws (list : SceneList) (x : NodeId) : Prop :=
  ∃ step, HasStep list step ∧ step.drawn? = some x

section Within

variable {supplied : InputIndex → Prop} {model : NodeId} {inner : SceneList}
  (hmodel : .replayModel model inner ∈ list.commands)
include hmodel

theorem Overwritten.within
    (h : w.Overwritten (fun index => ((w.sourceTable model).source? index).isSome = true) inner
      x) : w.Overwritten supplied list x := by
  cases h with
  | input hx hsource =>
      have hinner : Encloses list ([] ++ [model]) inner := .inner hmodel (.refl inner)
      exact .fed hinner hx hsource
  | @fed model' index models l hl hx hsource =>
      have hl : Encloses list (model :: models ++ [model']) l := .inner hmodel hl
      exact .fed hl hx hsource
  | written hstep hx => exact .written (hstep.within hmodel) hx

theorem Draws.within (h : Draws inner x) : Draws list x := by
  obtain ⟨step, hstep, hx⟩ := h
  exact ⟨step, hstep.within hmodel, hx⟩

end Within

/-- A model is supplied only with what it has sources for. -/
theorem source_of_supplied {model : NodeId} {inputs : List (InputIndex × Float)}
    {index : InputIndex} (h : s.suppliedInputs model = .ok inputs)
    (hindex : (inputs.lookup index).isSome = true) :
    ((s.sourceTable model).source? index).isSome = true := by
  have hlookup := suppliedInputs_lookup h index
  cases hsource : (s.sourceTable model).source? index with
  | some cell => rfl
  | none =>
      rw [hsource] at hlookup
      rw [hlookup] at hindex
      cases hindex

/-- Writing supplied values is part of what a replay is there for. -/
theorem supplied_confined {supplied : InputIndex → Prop} {writes : List (NodeId × Float)}
    (hsupplied : ∀ index, (inputs index).isSome = true → supplied index)
    (hwrites : writes ⊆ CommandList.writes inputs list.inputs)
    (h : writes.foldlM Frame.write f = .ok f') :
    Confined (w.Overwritten supplied list) (Draws list) f.scene f'.scene := by
  refine (writes_confined hwrites h).mono (fun x hx => ?_) fun _ hx => hx
  obtain ⟨index, hb, hindex⟩ := hx
  exact .input hb (hsupplied index hindex)

mutual

theorem command_confined : (c : Command) → {supplied : InputIndex → Prop} → {list : SceneList} →
    c ∈ list.commands → {f f' : Frame} → Alike w f.scene → c.run f = .ok f' →
    Confined (w.Overwritten supplied list) (Draws list) f.scene f'.scene
  | .step step, supplied, list, hc, f, f', hf, h => by
      have hstep : HasStep list step := ⟨[], list, .refl list, hc⟩
      exact (change_confined (Step.scene_run h)).mono
        (fun x hx => .written hstep ((writes_iff_of_wiring hf.wiring).mp hx)) fun x hx =>
          ⟨step, hstep, hx⟩
  | .replayModel model inner, supplied, list, hc, f, f', hf, h => by
      obtain ⟨inputs, hinputs, hrun⟩ := except_bind_eq_ok.mp h
      have hsources : ∀ index, (inputs.lookup index).isSome = true →
          ((w.sourceTable model).source? index).isSome = true := fun index hindex =>
        hf.sources ▸ source_of_supplied hinputs hindex
      exact (list_confined inner hsources hf hrun).mono (fun x hx => hx.within hc) fun x hx =>
        hx.within hc

theorem list_confined : (list : SceneList) → {inputs : InputIndex → Option Float} →
    {supplied : InputIndex → Prop} → (∀ index, (inputs index).isSome = true → supplied index) →
    {f f' : Frame} → Alike w f.scene → Command.runList inputs f list = .ok f' →
    Confined (w.Overwritten supplied list) (Draws list) f.scene f'.scene
  | ⟨root, commands, bindings⟩, inputs, supplied, hsupplied, f, f', hf, h => by
      obtain ⟨f₁, hwrites, hrest⟩ := except_bind_eq_ok.mp h
      have hf₁ := hf.trans (Frame.writes_rewrites hwrites).alike
      exact (supplied_confined hsupplied (List.Subset.refl _) hwrites).trans
        (commands_confined commands (List.Subset.refl _) hf₁ hrest)

theorem commands_confined : (cs : List Command) → {supplied : InputIndex → Prop} →
    {list : SceneList} → cs ⊆ list.commands → {f f' : Frame} → Alike w f.scene →
    Command.runAll f cs = .ok f' →
    Confined (w.Overwritten supplied list) (Draws list) f.scene f'.scene
  | [], _, _, _, f, f', _, h => by
      cases h
      exact .refl _
  | c :: cs, supplied, list, hcs, f, f', hf, h => by
      obtain ⟨f₁, hrun, hrunAll⟩ := except_bind_eq_ok.mp h
      have hf₁ := hf.trans (Command.run_rewrites c hrun).alike
      exact (command_confined c (hcs List.mem_cons_self) hf hrun).trans
        (commands_confined cs (List.subset_of_cons_subset hcs) hf₁ hrunAll)

end

/-- Whatever a list names, replaying it overwrites nothing but what it is there to write. -/
theorem replay_overwrites (h : w.replay list inputs = .ok f) {supplied : InputIndex → Prop}
    (hsupplied : ∀ index, (inputs index).isSome = true → supplied index) :
    Confined (w.Overwritten supplied list) (Draws list) w f.scene := by
  unfold replay at h
  rw [← Command.runList_eq_replay] at h
  exact list_confined list hsupplied (Alike.refl w) h

section Naming

theorem Step.computed_isKind (h : w.Bears step.mentions) (hx : step.computed? = some x) :
    w.HasKind (fun k => k = .modified ∨ k = .calculated) x := by
  cases step with
  | modify dest op target operand =>
      obtain rfl := Option.some.inj hx
      exact (bears_cons.mp h).1.imp fun _ => .inl
  | assign dest source =>
      obtain rfl := Option.some.inj hx
      exact (bears_cons.mp h).1.imp fun _ => .inr
  | _ => cases hx

theorem bears_mentionsOf (h : w.Bears (Command.mentionsOf list)) :
    (∀ b ∈ list.inputs, w.HasKind (· = .input) b.node) ∧
      w.Bears (Command.mentionsAll list.commands) := by
  cases list
  obtain ⟨hhead, hcommands⟩ := bears_append.mp h
  exact ⟨fun b hb => (bears_cons.mp hhead).2 _ (List.mem_map_of_mem hb), hcommands⟩

theorem bears_mentionsAll {cs : List Command} :
    w.Bears (Command.mentionsAll cs) ↔ ∀ c ∈ cs, w.Bears c.mentions := by
  induction cs with
  | nil => exact iff_of_true (bears_nil w) nofun
  | cons c cs ih => rw [Command.mentionsAll, bears_append, ih, List.forall_mem_cons]

theorem bears_of_encloses {ms : List NodeId} {l : SceneList} (hl : Encloses list ms l)
    (h : w.Bears (Command.mentionsOf list)) : w.Bears (Command.mentionsOf l) := by
  induction hl with
  | refl => exact h
  | inner hmodel _ ih =>
      exact ih (bears_cons.mp (bears_mentionsAll.mp (bears_mentionsOf h).2 _ hmodel)).2

variable (hbears : w.Bears (Command.mentionsOf list))
include hbears

theorem bears_of_hasStep (h : HasStep list step) : w.Bears step.mentions := by
  obtain ⟨models, l, hl, hstep⟩ := h
  exact bears_mentionsAll.mp (bears_mentionsOf (bears_of_encloses hl hbears)).2 _ hstep

/-- A list that takes its nodes for what they are overwrites inputs, links, calculated values and
read-backs. -/
theorem Overwritten.exposed (hw : w.WellFormed) {supplied : InputIndex → Prop}
    (h : w.Overwritten supplied list x) : w.Exposed supplied list x := by
  cases h with
  | input hx hsupplied => exact .input ((bears_mentionsOf hbears).1 _ hx) hx hsupplied
  | fed hl hx hsource =>
      exact .fed ((bears_mentionsOf (bears_of_encloses hl hbears)).1 _ hx) hl hx hsource
  | written hstep hx =>
      rcases hx with hx | ⟨shown, n, hshown, hn, hx⟩
      · exact .computed (Step.computed_isKind (bears_of_hasStep hbears hstep) hx) hstep hx
      · obtain ⟨v, hv⟩ := hw.scalar_of_shows hn hx
        exact .readBack hv hstep hshown hn hx

end Naming

/-- What a replay of a list leaves as it is: all but the numbers and matrices that it is there
to change. -/
structure Spares (list : SceneList) (supplied : InputIndex → Prop) (s t : Scene) : Prop where
  outline : t.outline = s.outline
  generation : t.generation = s.generation
  defaultSize : t.defaultSize = s.defaultSize
  values : ∀ x, ¬ s.Exposed supplied list x → t.value x = s.value x
  containers : ∀ x, ¬ Draws list x → t.container? x = s.container? x
  plain : ∀ x, s.IsPlain x → t.value x = s.value x
  compiled : ∀ root, t.compile root = s.compile root

/-- A cell is exposed only if what it is read back from is shown. -/
theorem Exposed.shown {supplied : InputIndex → Prop} (h : w.Exposed supplied list x) {v : Float}
    {requirement : Option NodeId} (hx : w.node x = .ok (.scalar v requirement)) :
    ∃ step shown, HasStep list step ∧ step.shown? = some shown ∧
      requirement = some shown.node := by
  have hscalar : w.HasKind (· = .scalar) x := .of_node hx rfl
  cases h with
  | input hkind => cases hkind.of_kind hscalar
  | fed hkind => cases hkind.of_kind hscalar
  | computed hkind => exact (hkind.of_kind hscalar).elim nofun nofun
  | readBack hkind hstep hshown _ _ =>
      cases node_unique hx hkind
      exact ⟨_, _, hstep, hshown, rfl⟩

theorem IsPlain.not_exposed {supplied : InputIndex → Prop} (h : w.IsPlain x) :
    ¬ w.Exposed supplied list x := by
  obtain ⟨v, hv⟩ := h
  intro hexposed
  obtain ⟨_, _, -, -, hnone⟩ := hexposed.shown hv
  cases hnone

/-- Replaying a list that takes its nodes for what they are. -/
theorem replay_spares (hw : w.WellFormed) (hbears : w.Bears (Command.mentionsOf list))
    (h : w.replay list inputs = .ok f) {supplied : InputIndex → Prop}
    (hsupplied : ∀ index, (inputs index).isSome = true → supplied index) :
    Spares list supplied w f.scene := by
  have hrewrites := replay_rewrites h
  have hconfined : Confined (w.Exposed supplied list) (Draws list) w f.scene :=
    (replay_overwrites h hsupplied).mono (fun _ hx => hx.exposed hbears hw) fun _ hx => hx
  exact
    { outline := hrewrites.outline_eq
      generation := hrewrites.alike.generation
      defaultSize := hrewrites.alike.defaultSize
      values := hconfined.values
      containers := hconfined.containers
      plain := fun x hx => hconfined.values x hx.not_exposed
      compiled := compile_eq_of_wiring hrewrites.alike.wiring }

theorem replayModel_spares {model : NodeId} (hw : w.WellFormed)
    (hbears : w.Bears (Command.mentionsOf list)) (h : w.replayModel model list = .ok f) :
    Spares list (fun index => ((w.sourceTable model).source? index).isSome = true) w f.scene := by
  obtain ⟨_, hinputs, hreplay⟩ := except_bind_eq_ok.mp h
  exact replay_spares hw hbears hreplay fun _ => source_of_supplied hinputs

/-- The list puts a container together from the start. -/
def Composes (list : SceneList) (x : NodeId) : Prop :=
  ∃ step, HasStep list step ∧ step.composed? = some x

/-- A list composes all containers that it changes, unless it was compiled for an extra motion
alone. -/
theorem Draws.composes {root : NodeId} (hs : s.WellFormed)
    (h : (s.compile root).result = .ok list) (hroot : s.Still root) (hx : Draws list x) :
    Composes list x := by
  obtain ⟨step, ⟨models, l, hl, hstep⟩, hx⟩ := hx
  obtain ⟨hmakes, -, hmodels⟩ := makes_of_encloses (makes_of_compile h) hl List.nodup_nil
  have hstill : s.Still (models.getLast?.getD root) := by
    cases hlast : models.getLast? with
    | none => exact hroot
    | some m => exact (hmodels m (List.mem_of_getLast? hlast)).still nofun
  obtain ⟨step', hstep', hx⟩ := composed_of_drawn hs hmakes hstill hstep hx
  exact ⟨step', ⟨models, l, hl, hstep'⟩, hx⟩

/-- A model is rendered by a replay of its current list. -/
theorem renderModel_eq_ok {model : NodeId} (h : (s.renderModel model).result = .ok f) :
    ∃ list t, (s.currentList model).result = .ok (list, t) ∧ t.replayModel model list = .ok f := by
  rw [renderModel, Traced.result_bind] at h
  obtain ⟨⟨list, t⟩, hcurrent, h⟩ := except_bind_eq_ok.mp h
  refine ⟨list, t, hcurrent, ?_⟩
  simp only [Traced.result_bind, result_reach] at h
  obtain ⟨inputs, hinputs, h⟩ := except_bind_eq_ok.mp h
  exact except_bind_eq_ok.mpr ⟨inputs, mapError_eq_ok.mp hinputs, mapError_eq_ok.mp h⟩

/-- The current list of a model is the one that it keeps, or a new one. -/
theorem currentList_eq_ok {model : NodeId} (h : (s.currentList model).result = .ok (list, t)) :
    s.cached? model = some ⟨s.generation, list⟩ ∧ t = s ∨
      (s.compile model).result = .ok list ∧ s.keep model list = .ok t := by
  simp only [currentList, Traced.result_bind, result_reach] at h
  obtain ⟨kept, hkept, h⟩ := except_bind_eq_ok.mp h
  cases kept with
  | some kept =>
      cases h
      exact .inl ⟨cached?_of_keptList? (mapError_eq_ok.mp hkept), rfl⟩
  | none =>
      simp only [Traced.result_bind, Traced.result_report] at h
      exact .inr (result_compileModel_eq_ok h)

section Constants

variable {named named' : NodeId → Prop}

/-- An operand that nobody has named is a cell of its own. -/
def ConstantsPlain (named : NodeId → Prop) (s : Scene) : Prop :=
  ∀ id m cell, s.node id = .ok (.modified m) → m.operand = some cell → named cell ∨ s.IsPlain cell

theorem ConstantsPlain.mono (h : s.ConstantsPlain named) (hnamed : ∀ id, named id → named' id) :
    s.ConstantsPlain named' :=
  fun id m cell hm hcell => (h id m cell hm hcell).imp_left (hnamed cell)

theorem constantsPlain_empty (defaultSize : Float) :
    (empty defaultSize).ConstantsPlain named := by
  intro id m cell hm
  obtain ⟨v, hv⟩ := (wellFormed_empty defaultSize).shared id (lt_count_of_node hm)
  cases node_unique hv hm

/-- Links keep their operand. -/
theorem operand_of_develops {id : NodeId} {n : Node} {m : Modified} (hn : s.node id = .ok n)
    (ht : t.node id = .ok (.modified m)) (hst : Develops s t) :
    ∃ m', n = .modified m' ∧ m'.operand = m.operand := by
  obtain ⟨n', hn', hdevelops⟩ := hst id n hn
  obtain rfl := node_unique ht hn'
  have hcore := hdevelops.core
  cases n with
  | modified m' =>
      have hoperand : m.operand = m'.operand := by
        simp only [Node.core, Node.modified.injEq, Modified.mk.injEq] at hcore
        exact hcore.2.2.1
      exact ⟨m', rfl, hoperand.symm⟩
  | _ => simp [Node.core] at hcore

theorem ConstantsPlain.develop (hs : s.ConstantsPlain named) (hst : Develops s t)
    (hnew : ∀ id m cell, t.node id = .ok (.modified m) → m.operand = some cell → s.count ≤ id →
      named cell ∨ t.IsPlain cell) : t.ConstantsPlain named := by
  intro id m cell hm hcell
  by_cases hid : id < s.count
  · obtain ⟨n, hn⟩ := node_of_lt_count hid
    obtain ⟨m', rfl, hoperand⟩ := operand_of_develops hn hm hst
    exact (hs id m' cell hn (hoperand.trans hcell)).imp_right fun hplain => hplain.mono hst
  · exact hnew id m cell hm hcell (Nat.le_of_not_lt hid)

/-- A new link has a named operand, or a cell that was added along with it. -/
theorem Change.constantsPlain (h : Change named s t) (hs : s.ConstantsPlain named) :
    t.ConstantsPlain named := by
  refine hs.develop h.develops fun id m cell hm hcell hid => ?_
  cases h with
  | inPlace hwiring =>
      have hlt := lt_count_of_node hm
      rw [count_eq_of_wiring hwiring] at hlt
      exact absurd hid (Nat.not_le_of_lt hlt)
  | @add owner f news hadds hextends =>
      have hmem : .modified m ∈ news := by
        rcases hextends.node_cases hm with ⟨n, hn, -⟩ | ⟨i, -, hi⟩
        · exact absurd hid (Nat.not_le_of_lt (lt_count_of_node hn))
        · exact List.mem_of_getElem? hi
      cases hadds with
      | link op operand howner hop hoperand =>
          cases List.mem_singleton.mp hmem
          exact .inl (hoperand cell hcell)
      | linkConstant op v howner hop =>
          obtain rfl : m = ⟨op, _, some s.count, 0.0⟩ := by simpa using hmem
          obtain rfl := Option.some.inj hcell
          exact .inr ⟨v, hextends.new 0 _ rfl⟩
      | blank hn =>
          rw [← List.mem_singleton.mp hmem] at hn
          cases hn
      | _ => simp [cellNodes] at hmem

theorem Changes.constantsPlain (h : Changes named s t) (hs : s.ConstantsPlain named) :
    t.ConstantsPlain named := by
  induction h with
  | refl => exact hs
  | tail _ hstep ih => exact hstep.constantsPlain ih

theorem Rearranged.constantsPlain (h : Rearranged s t) (hst : Develops s t)
    (hs : s.ConstantsPlain named) : t.ConstantsPlain named := by
  refine hs.develop hst fun id m cell hm _ hid => ?_
  have hlt := lt_count_of_node hm
  rw [h.count_eq] at hlt
  exact absurd hid (Nat.not_le_of_lt hlt)

end Constants

end Scene

namespace Session

open Scene

variable {σ τ : Session}

theorem Reachable.constantsPlain (h : Reachable σ) :
    σ.scene.ConstantsPlain σ.HasValue := by
  obtain ⟨defaultSize, hrun⟩ := h
  induction hrun with
  | refl => exact constantsPlain_empty defaultSize
  | @tail ρ τ hrun hnext ih =>
      have hρ : Reachable ρ := ⟨defaultSize, hrun⟩
      obtain ⟨op, hallowed, hperform⟩ := hnext
      obtain ⟨o, ho, rfl⟩ := perform_eq_some hperform
      refine ConstantsPlain.mono ?_ fun id => hasValue_follow
      by_cases hop : op.IsRelinking
      · exact (Operation.outcome?_rearranged hop ho).constantsPlain
          (Sound.next hρ.sound ⟨op, hallowed, hperform⟩).2 ih
      · exact (Operation.outcome?_changes hρ.sound hallowed hop ho).constantsPlain ih

/-- What is made for bases and constants are plain cells. -/
theorem Reachable.isPlain_of_owns (hσ : Reachable σ) {x : Holding} (hx : σ.Owns x)
    (hrole : x.role = .base ∨ x.role = .operand) : σ.scene.IsPlain x.cell := by
  obtain ⟨⟨n, hn, hheld⟩, -, hconstant⟩ := hx
  rcases hrole with hrole | hrole
  · rw [hrole] at hheld
    exact hσ.serves hn hheld
  · rw [hrole] at hheld
    cases n with
    | modified m =>
        exact (hσ.constantsPlain _ m _ hn hheld).resolve_left (hconstant hrole)
    | _ => cases hheld

/-- What was no extra motion when a list was compiled for it has the list compose all
containers that the list changes. -/
theorem composes_of_draws {ρ : Session} {root x : NodeId} {list : SceneList} (hρ : Reachable ρ)
    (hrun : Runs ρ σ) (hlist : (ρ.scene.compile root).result = .ok list)
    (hroot : σ.scene.Still root) (hx : Draws list x) : Composes list x := by
  refine hx.composes hρ.sound.wellFormed hlist fun t ht => ?_
  obtain ⟨n, hn, hdevelops⟩ := hrun.develops hρ root _ ht
  obtain rfl := hdevelops.transformation
  exact hroot t hn

/-- Replaying a list that was compiled on the way changes no more than it is there to change,
however old the list is, and so does the replay in the course of rendering a model.  Bases,
constants, the shared cells and all cells that the host made for itself stay as they are. -/
theorem replay_confined (hσ : Reachable σ) :
    (∀ ρ root list inputs, Reachable ρ → Runs ρ σ → (ρ.scene.compile root).result = .ok list →
      (∃ f, σ.scene.replay list inputs = .ok f ∧
        Spares list (fun index => (inputs index).isSome = true) σ.scene f.scene) ∧
      ((∃ h ∈ ρ.handles, h.id = root) → ∀ x, Draws list x → Composes list x)) ∧
    (∀ model f, σ.HasModel model → (σ.scene.renderModel model).result = .ok f →
      ∃ list t, (σ.scene.currentList model).result = .ok (list, t) ∧
        t.replayModel model list = .ok f ∧
        Spares list (fun index => ((t.sourceTable model).source? index).isSome = true) t f.scene ∧
        (∀ x, Draws list x → Composes list x) ∧
        ∀ root, f.scene.compile root = σ.scene.compile root) ∧
    (∀ x, x < 3 → σ.scene.IsPlain x) ∧
    (∀ x, σ.Owns x → x.role = .base ∨ x.role = .operand → σ.scene.IsPlain x.cell) ∧
    ∀ ρ v τ, Reachable ρ → ρ.perform (.scalar v) = some τ → Runs τ σ →
      σ.scene.IsPlain ρ.scene.count := by
  have hs := hσ.sound.wellFormed
  refine ⟨fun ρ root list inputs hρ hrun hlist => ⟨?_, ?_⟩, fun model f hmodel hf => ?_,
    hs.shared, fun x => hσ.isPlain_of_owns, fun ρ v τ hρ hτ hrun => ?_⟩
  · have hbears : σ.scene.Bears (Command.mentionsOf list) :=
      Knows.bears ⟨ρ, root, hρ, hrun, hlist⟩
    obtain ⟨f, hf⟩ := replay_succeeds hs hσ.strict.sourcesStand hbears inputs
    exact ⟨f, hf, replay_spares hs hbears hf fun _ => id⟩
  · rintro ⟨h, hh, rfl⟩ x
    exact composes_of_draws hρ hrun hlist (hσ.sound.still (hrun.mem_handles hh))
  · have hstill : σ.scene.Still model := hσ.sound.still hmodel
    obtain ⟨list, t, hcurrent, hreplay⟩ := renderModel_eq_ok hf
    refine ⟨list, t, hcurrent, hreplay, ?_⟩
    rcases currentList_eq_ok hcurrent with ⟨hcached, rfl⟩ | ⟨hlist, hkeep⟩
    · obtain ⟨ρ, hρ, hrun, hlist⟩ := hσ.compiled hcached
      have hspares := replayModel_spares hs (hσ.knows hcached).bears hreplay
      exact ⟨hspares, fun x => composes_of_draws hρ hrun hlist hstill, hspares.compiled⟩
    · have hwiring := (recompiled_of_keep hlist hkeep).wiring
      have hbears : t.Bears (Command.mentionsOf list) :=
        (bears_of_compile hs hσ.strict.links hlist).mono (.of_wiring hwiring)
      have hspares := replayModel_spares (hs.of_wiring hwiring) hbears hreplay
      exact ⟨hspares, fun x => composes_of_draws hσ .refl hlist hstill, fun root =>
        (hspares.compiled root).trans (compile_eq_of_wiring hwiring root)⟩
  · have hτ' : Next ρ τ := ⟨.scalar v, trivial, hτ⟩
    obtain ⟨o, ho, rfl⟩ := perform_eq_some hτ
    cases ho
    have hplain : (ρ.scene.push (.scalar v none)).IsPlain ρ.scene.count :=
      ⟨v, node_push_self _ _⟩
    exact IsPlain.mono hplain (hrun.develops (hρ.runs (.single hτ')))

/-- A model with a part, the attribute of which goes on to grow. -/
def outgrownModel : List Operation :=
  [.model, .part, .addChild 3 4, .partAttribute 4 .x, .readback 4 .x,
    .modify 6 [.adding (.constant 2.0)]]

set_option synthInstance.maxSize 256 in
/-- The list that was compiled before the read-back and the link were added, and a render with a
new list. -/
theorem replay_confined_outgrown : ∃ ρ σ list f g, Reachable σ ∧ Runs ρ σ ∧
    (ρ.scene.compile 3).result = .ok list ∧ ρ.scene.count < σ.scene.count ∧
    σ.scene.replay list (fun _ => none) = .ok f ∧ f.scene.outline = σ.scene.outline ∧
    f.scene.value 5 = σ.scene.value 5 ∧ (∀ x, Draws list x → Composes list x) ∧
    (σ.scene.renderModel 3).result = .ok g ∧
    (∀ root, g.scene.compile root = σ.scene.compile root) ∧ σ.scene.IsPlain 8 := by
  have hrun : ∃ ρ ∈ (start 100.0).runAll (outgrownModel.take 4),
      ∃ σ ∈ ρ.runAll (outgrownModel.drop 4), ∃ list ∈ (ρ.scene.compile 3).result.toOption,
      ∃ g ∈ (σ.scene.renderModel 3).result.toOption,
        ρ.scene.count < σ.scene.count ∧ .model 3 ∈ ρ.handles ∧
        σ.scene.nodes[6]?.bind (Node.held? .base) = some 5 ∧
        σ.scene.nodes[9]?.bind (Node.held? .operand) = some 8 ∧ ¬ σ.HasValue 8 := by
    decide +kernel
  obtain ⟨ρ, hρ, σ, hσ, list, hlist, g, hg, hgrown, hroot, hbase, hoperand, hconstant⟩ := hrun
  have hlist := toOption_eq_some.mp hlist
  have hg := toOption_eq_some.mp hg
  have hreach : Reachable ρ := ⟨100.0, runs_of_runAll hρ⟩
  have hrun : Runs ρ σ := runs_of_runAll hσ
  have hσ' := hreach.runs hrun
  obtain ⟨hlists, hrender, -, hmade, -⟩ := replay_confined hσ'
  obtain ⟨⟨f, hf, hspares⟩, hcomposes⟩ := hlists ρ 3 list (fun _ => none) hreach hrun hlist
  obtain ⟨_, _, -, -, -, -, hcompiled⟩ := hrender 3 g (hrun.mem_handles hroot) hg
  have hholds : ∀ x : Holding, σ.scene.nodes[x.owner]?.bind (Node.held? x.role) = some x.cell →
      σ.scene.Holds x := fun x hx => by
    obtain ⟨n, hn, hheld⟩ := Option.bind_eq_some_iff.mp hx
    exact ⟨n, node_eq_ok.mpr hn, hheld⟩
  have hbase : σ.scene.IsPlain 5 := hmade ⟨6, .base, 5⟩ ⟨hholds _ hbase, trivial, nofun⟩ (.inl rfl)
  exact ⟨ρ, σ, list, f, g, hσ', hrun, hlist, hgrown, hf, hspares.outline, hspares.plain 5 hbase,
    hcomposes ⟨_, hroot, rfl⟩, hg, hcompiled,
    hmade ⟨9, .operand, 8⟩ ⟨hholds _ hoperand, trivial, fun _ => hconstant⟩ (.inr rfl)⟩

end Session

end SceneGraph
