import SceneGraph.Proofs.Cells
import SceneGraph.Proofs.Parallel

/-!
Scenes before and after an accessor made something.

An accessor fills an empty slot.  The cell that it makes for an attribute, a coordinate or a
dimension stands for what was read while the slot was empty; a read-back is read by nothing that
was there before.  So the render graphs agree up to idle nodes (`Scene.Widens.beside`), and their
lists agree but for a cell that commands read.
-/

namespace SceneGraph

/-- What an accessor makes of a scene.  A cell stands from now on for a shared cell, or for the
zero that is read in an empty slot. -/
structure Widening where
  /-- The number of old nodes. -/
  first : NodeId
  shared : NodeId
  cell : NodeId
  /-- What both cells hold. -/
  base : Float
  apart : cell = shared ∨ first ≤ cell
  zero : shared = Scene.zeroCell → base = 0.0

namespace Widening

variable (γ : Widening)

/-- A slot is as it was, or the new cell was put into it. -/
def Fills (shared : NodeId) (o o' : Option NodeId) : Prop :=
  o' = o ∨ shared = γ.shared ∧ o = none ∧ o' = some γ.cell

/-- A slot of a read-back is as it was, or a new node was put into it. -/
def Adds (o o' : Option NodeId) : Prop :=
  o' = o ∨ o = none ∧ ∃ x, o' = some x ∧ γ.first ≤ x ∧ x ≠ γ.cell

/-- A cell that is read in place of another one. -/
def Stands (x x' : NodeId) : Prop :=
  x' = x ∨ x = γ.shared ∧ x' = γ.cell

/-- Neither of the two cells makes a difference to a list. -/
def IsIdle (x : NodeId) : Prop :=
  x = γ.shared ∨ x = γ.cell

instance : DecidablePred γ.IsIdle :=
  fun _ => inferInstanceAs (Decidable (_ ∨ _))

variable {γ}

theorem Fills.getD {shared : NodeId} {o o' : Option NodeId} (h : γ.Fills shared o o') :
    γ.Stands (o.getD shared) (o'.getD shared) := by
  rcases h with rfl | ⟨rfl, rfl, rfl⟩
  · exact .inl rfl
  · exact .inr ⟨rfl, rfl⟩

end Widening

variable {γ : Widening}

structure Part.Widens (γ : Widening) (p p' : Part) : Prop where
  container : p'.container = p.container
  display : p'.display = p.display
  model : p'.model = p.model
  attributes : ∀ a, γ.Fills a.sharedCell (p.attributes a) (p'.attributes a)
  readbacks : ∀ r, γ.Adds (p.readbacks r) (p'.readbacks r)

structure Pin.Widens (γ : Widening) (p p' : Pin) : Prop where
  parent : p'.parent = p.parent
  display : p'.display = p.display
  coordinates : ∀ axis, γ.Fills Scene.zeroCell (p.coordinates axis) (p'.coordinates axis)
  readbacks : ∀ axis, γ.Adds (p.readbacks axis) (p'.readbacks axis)

structure PinnedPart.Widens (γ : Widening) (p p' : PinnedPart) : Prop where
  container : p'.container = p.container
  display : p'.display = p.display
  pins : p'.pins = p.pins
  size : ∀ d, γ.Fills Scene.sizeCell (p.size d) (p'.size d)
  readbacks : ∀ r, γ.Adds (p.readbacks r) (p'.readbacks r)

theorem Part.Widens.refl (p : Part) : p.Widens γ p :=
  ⟨rfl, rfl, rfl, fun _ => .inl rfl, fun _ => .inl rfl⟩

theorem Pin.Widens.refl (p : Pin) : p.Widens γ p :=
  ⟨rfl, rfl, fun _ => .inl rfl, fun _ => .inl rfl⟩

theorem PinnedPart.Widens.refl (p : PinnedPart) : p.Widens γ p :=
  ⟨rfl, rfl, rfl, fun _ => .inl rfl, fun _ => .inl rfl⟩

/-- A node before and after an accessor made something for it or for another node. -/
inductive Node.Widens (γ : Widening) : Node → Node → Prop
  | refl (n : Node) : Widens γ n n
  | part {p p' : Part} (h : p.Widens γ p') : Widens γ (.part p) (.part p')
  | pin {p p' : Pin} (h : p.Widens γ p') : Widens γ (.pin p) (.pin p')
  | pinnedPart {p p' : PinnedPart} (h : p.Widens γ p') : Widens γ (.pinnedPart p) (.pinnedPart p')

namespace Node.Widens

variable {n n' : Node} (h : n.Widens γ n')
include h

theorem value : n'.value = n.value := by
  cases h <;> rfl

theorem container? : n'.container? = n.container? := by
  cases h with
  | refl | pin => rfl
  | part h | pinnedPart h => exact congrArg some h.container

theorem placement? : n'.placement? = n.placement? := by
  cases h with
  | refl | pin => rfl
  | part h => exact congrArg (fun c : Container => some c.content) h.container
  | pinnedPart h => exact congrArg (fun c : Container => some c.working) h.container

theorem display? : n'.display? = n.display? := by
  cases h with
  | refl => rfl
  | part h | pin h | pinnedPart h => exact h.display

theorem model? : n'.model? = n.model? := by
  cases h with
  | part h => exact h.model
  | _ => rfl

theorem sizeCellOf (d : Dimension) : γ.Stands (Scene.sizeCellOf n d) (Scene.sizeCellOf n' d) := by
  cases h with
  | refl => exact .inl rfl
  | part h =>
      cases d with
      | width => exact (h.attributes .width).getD
      | height => exact (h.attributes .height).getD
  | pin => exact .inl rfl
  | pinnedPart h => cases d <;> exact (h.size _).getD

theorem pinReadback? (axis : Axis) : γ.Adds (n.pinReadback? axis) (n'.pinReadback? axis) := by
  cases h with
  | pin h => exact h.readbacks axis
  | _ => exact .inl rfl

theorem setValue (v : Float) : (n.setValue v).Widens γ (n'.setValue v) := by
  cases h with
  | refl => exact .refl _
  | part h => exact .part h
  | pin h => exact .pin h
  | pinnedPart h => exact .pinnedPart h

theorem mapContainer (f : Container → Container) :
    (n.mapContainer f).Widens γ (n'.mapContainer f) := by
  cases h with
  | refl => exact .refl _
  | part h => exact .part { h with container := congrArg f h.container }
  | pin h => exact .pin h
  | pinnedPart h => exact .pinnedPart { h with container := congrArg f h.container }

end Node.Widens

/-- A number that nothing computes. -/
inductive Node.IsConstant (v : Float) : Node → Prop
  | scalar : IsConstant v (.scalar v none)
  | calculated (base : NodeId) : IsConstant v (.calculated ⟨base, v, []⟩)

/-- A step reads a cell that stands for the cell that another step reads. -/
inductive Step.Like (γ : Widening) : Step → Step → Prop
  | refl (step : Step) : Like γ step step
  | compose (part : NodeId) {c c' : PlacementCells} (h : List.Forall₂ γ.Stands c.toList c'.toList) :
      Like γ (.compose part c) (.compose part c')
  | placeContent (part : NodeId) {x x' y y' : NodeId} (hx : γ.Stands x x') (hy : γ.Stands y y') :
      Like γ (.placeContent part x y) (.placeContent part x' y')
  | solvePins (part : NodeId) (pins : List PinCells) {w w' h h' : NodeId} (hw : γ.Stands w w')
      (hh : γ.Stands h h') : Like γ (.solvePins part pins w h) (.solvePins part pins w' h')

/-- Commands that do the same, and nested lists of such commands. -/
inductive Command.Like (γ : Widening) : Command → Command → Prop
  | step {step step' : Step} (h : step.Like γ step') : Like γ (.step step) (.step step')
  | replayModel {model root : NodeId} {commands commands' : List Command}
      {inputs : List (InputBinding NodeId)} (h : List.Forall₂ (Like γ) commands commands') :
      Like γ (.replayModel model ⟨root, commands, inputs⟩)
        (.replayModel model ⟨root, commands', inputs⟩)

namespace Scene

variable {s t : Scene} {id : NodeId} {n n' : Node}

/-- A scene before and after an accessor made something. -/
structure Widens (γ : Widening) (s t : Scene) : Prop where
  count : s.count = γ.first
  node : ∀ id n, s.node id = .ok n → ∃ n', t.node id = .ok n' ∧ n.Widens γ n'
  shared : s.node γ.shared = .ok (.scalar γ.base none)
  cell : ∃ n, t.node γ.cell = .ok n ∧ n.IsConstant γ.base

section Needs

/-- Entries of what has to come before a node, before and after. -/
abbrev SimilarNeeds (γ : Widening) : List Need → List Need → Prop :=
  List.Forall₂ (RenderGraph.SimilarNeed γ.IsIdle (Command.Like γ))

variable {xs xs' : List NodeId} {o o' : Option NodeId}

theorem similarNeeds_nodes (h : List.Forall₂ γ.Stands xs xs') :
    SimilarNeeds γ (xs.map .node) (xs'.map .node) := by
  induction h with
  | nil => exact .nil
  | cons hfirst _ ih =>
      refine .cons ?_ ih
      rcases hfirst with rfl | ⟨rfl, rfl⟩
      · exact .node _
      · exact .skips (.inl rfl) (.inr rfl)

theorem similarNeeds_refl (xs : List NodeId) : SimilarNeeds γ (xs.map .node) (xs.map .node) :=
  similarNeeds_nodes (List.forall₂_same.mpr fun _ _ => .inl rfl)

theorem similarNeeds_option {shared : NodeId} (h : γ.Fills shared o o') :
    SimilarNeeds γ [.ofOption o] [.ofOption o'] := by
  refine .cons ?_ .nil
  rcases h with rfl | ⟨-, rfl, rfl⟩
  · cases o' with
    | none => exact .skips trivial trivial
    | some x => exact .node x
  · exact .skips trivial (.inr rfl)

theorem similarNeeds_same (o : Option NodeId) : SimilarNeeds γ [.ofOption o] [.ofOption o] := by
  have hfills : γ.Fills zeroCell o o := .inl rfl
  exact similarNeeds_option hfills

theorem similarNeeds_emit {step step' : Step} (h : step.Like γ step') :
    SimilarNeeds γ [emit step] [emit step'] :=
  .cons (.command (.step h)) .nil

/-- What a part needs, before and after. -/
theorem similarNeeds_part {p p' : Part} (h : p.Widens γ p') :
    SimilarNeeds γ (partNeeds id p) (partNeeds id p') := by
  have hstands : ∀ a, γ.Stands (p.cell a) (p'.cell a) := fun a => (h.attributes a).getD
  have hplacement : List.Forall₂ γ.Stands p.placementCells.toList p'.placementCells.toList :=
    .cons (hstands .x) (.cons (hstands .y) (.cons (hstands .scaleX) (.cons (hstands .scaleY)
      (.cons (hstands .rotation) .nil))))
  have hconcat : SimilarNeeds γ (p.container.parent.map fun k => emit (.concatParent id k)).toList
      (p.container.parent.map fun k => emit (.concatParent id k)).toList := by
    cases p.container.parent with
    | none => exact .nil
    | some k => exact similarNeeds_emit (.refl _)
  have horigin := similarNeeds_nodes (.cons (hstands .originX) (.cons (hstands .originY) .nil))
  have hplace := similarNeeds_emit (.placeContent id (hstands .originX) (hstands .originY))
  have hsize := List.rel_append (similarNeeds_option (h.attributes .width))
    (similarNeeds_option (h.attributes .height))
  unfold partNeeds
  rw [h.container]
  refine List.rel_append (List.rel_append (List.rel_append (List.rel_append (List.rel_append
    (similarNeeds_same _) (similarNeeds_nodes hplacement))
    (similarNeeds_emit (.compose id hplacement))) (similarNeeds_refl _)) hconcat) ?_
  exact List.rel_append horigin (List.rel_append hplace hsize)

/-- What a pinned part needs, before and after. -/
theorem similarNeeds_pinnedPart {p p' : PinnedPart} (h : p.Widens γ p') :
    SimilarNeeds γ (pinnedPartNeeds id p) (pinnedPartNeeds id p') := by
  have hstands : ∀ d, γ.Stands (p.sizeCell d) (p'.sizeCell d) := fun d => (h.size d).getD
  have hcells : p'.pinCells = p.pinCells := by rw [PinnedPart.pinCells, h.pins]; rfl
  have hsize := similarNeeds_nodes (.cons (hstands .width) (.cons (hstands .height) .nil))
  have hsolve := similarNeeds_emit
    (.solvePins id p.pinCells (hstands .width) (hstands .height))
  unfold pinnedPartNeeds
  rw [h.container, hcells]
  exact List.rel_append (List.rel_append (similarNeeds_refl _) (List.rel_append hsize hsolve))
    (similarNeeds_refl _)

/-- What a pin needs, before and after. -/
theorem similarNeeds_pin {p p' : Pin} (h : p.Widens γ p') (isolated : List NodeId) :
    SimilarNeeds γ (needs isolated id (.pin p)) (needs isolated id (.pin p')) := by
  simp only [needs, h.parent]
  exact List.rel_append (similarNeeds_same _) (List.rel_append
    (similarNeeds_option (h.coordinates .x)) (similarNeeds_option (h.coordinates .y)))

theorem similarNeeds (isolated : List NodeId) (h : n.Widens γ n') :
    SimilarNeeds γ (needs isolated id n) (needs isolated id n') := by
  have hpart : ∀ {p p' : Part}, p.Widens γ p' →
      SimilarNeeds γ (needs isolated id (.part p)) (needs isolated id (.part p')) := by
    intro p p' h
    simp only [needs, h.model]
    split
    · exact .nil
    · exact similarNeeds_part h
  cases h with
  | part h => exact hpart h
  | pin h => exact similarNeeds_pin h isolated
  | pinnedPart h => exact similarNeeds_pinnedPart h
  | refl n =>
      cases n with
      | scalar v requirement => exact similarNeeds_same requirement
      | input v index => exact .nil
      | calculated c =>
          simp only [needs]
          cases c.modifiers.getLast? with
          | none => exact .nil
          | some tail => exact similarNeeds_refl [tail]
      | modified m => exact List.rel_append (similarNeeds_refl [m.target]) (similarNeeds_same _)
      | transformation step => exact similarNeeds_refl [step.amount]
      | part p => exact hpart (.refl p)
      | pin p => exact similarNeeds_pin (.refl p) isolated
      | pinnedPart p => exact similarNeeds_pinnedPart (.refl p)

end Needs

section Graph

variable {isolated : List NodeId} {root : NodeId}

theorem contributions_widens (isolated : List NodeId) (h : n.Widens γ n') :
    contributions isolated id n' = contributions isolated id n := by
  cases h with
  | refl | pin | pinnedPart => rfl
  | part h => simp only [contributions, h.model]

theorem resolvedAfter_widens (isolated : List NodeId) (h : n.Widens γ n') :
    resolvedAfter isolated id n' = resolvedAfter isolated id n := by
  cases h with
  | refl | pin => rfl
  | part h => simp only [resolvedAfter, h.model, h.container]
  | pinnedPart h => simp only [resolvedAfter, h.container]

theorem boundInput_widens (h : n.Widens γ n') : boundInput n' = boundInput n := by
  cases h <;> rfl

/-- What a node contributes is like itself. -/
theorem similarContributions (hn : s.node id = .ok n) :
    List.Forall₂ (RenderGraph.SimilarContribution s.graph (Command.Like γ))
      (contributions isolated id n) (contributions isolated id n) := by
  have hstep : ∀ step, RenderGraph.SimilarContribution s.graph (Command.Like γ)
      (.command (.step step)) (.command (.step step)) := fun step => .command (.step (.refl step))
  have hembed : RenderGraph.SimilarContribution s.graph (Command.Like γ) (.embed id) (.embed id) :=
    .embed (List.mem_range.mpr (lt_count_of_node hn))
  refine List.forall₂_same.mpr fun c hc => ?_
  cases n with
  | scalar | input => cases hc
  | calculated c =>
      obtain ⟨tail, -, rfl⟩ := Option.map_eq_some_iff.mp (Option.mem_toList.mp hc)
      exact hstep _
  | part p =>
      simp only [contributions] at hc
      split at hc
      · exact List.mem_singleton.mp hc ▸ hstep _
      · split at hc
        · cases hc
        · rcases List.mem_pair.mp hc with rfl | rfl
          · exact hstep _
          · exact hembed
  | _ => exact List.mem_singleton.mp hc ▸ hstep _

theorem inert_of_constant {v : Float} (hn : s.node id = .ok n) (h : n.IsConstant v) :
    s.graph.Inert isolated id where
  requirements := by
    rw [requirements_of_node hn]
    cases h <;> simp [needs, Requirement.ofOption]
  contributions := by
    rw [contributions_of_node hn]
    cases h <;> rfl
  inputIndex := by
    show s.nodes[id]?.bind boundInput = none
    rw [node_eq_ok.mp hn]
    cases h <;> rfl

theorem inert_of_count_le (h : s.count ≤ id) : s.graph.Inert isolated id := by
  have hnone : s.nodes[id]? = none := Array.getElem?_eq_none h
  refine ⟨?_, ?_, ?_⟩ <;> simp [graph, hnone]

namespace Widens

variable (h : s.Widens γ t)
include h

theorem shared' : t.node γ.shared = .ok (.scalar γ.base none) := by
  obtain ⟨n', hn', hwidens⟩ := h.node _ _ h.shared
  cases hwidens
  exact hn'

theorem exists_nodes (hid : id < s.count) :
    ∃ n n', s.node id = .ok n ∧ t.node id = .ok n' ∧ n.Widens γ n' := by
  obtain ⟨n, hn⟩ := node_of_lt_count hid
  obtain ⟨n', hn', hwidens⟩ := h.node id n hn
  exact ⟨n, n', hn, hn', hwidens⟩

theorem lt_count (hid : id < s.count) : id < t.count := by
  obtain ⟨_, _, -, hn', -⟩ := h.exists_nodes hid
  exact lt_count_of_node hn'

/-- No node is an input that was none before. -/
theorem inputIndex_eq (hnew : ∀ id, γ.first ≤ id → ¬ t.HasKind (· = .input) id) :
    t.graph.inputIndex = s.graph.inputIndex := by
  funext id
  show t.nodes[id]?.bind boundInput = s.nodes[id]?.bind boundInput
  by_cases hid : id < s.count
  · obtain ⟨n, n', hn, hn', hwidens⟩ := h.exists_nodes hid
    rw [node_eq_ok.mp hn, node_eq_ok.mp hn']
    exact boundInput_widens hwidens
  · have hnone : s.nodes[id]? = none := Array.getElem?_eq_none (Nat.le_of_not_lt hid)
    rw [hnone]
    cases hn : t.nodes[id]? with
    | none => rfl
    | some n =>
        have hkind : n.kind ≠ .input := fun hkind =>
          hnew id (h.count ▸ Nat.le_of_not_lt hid) ⟨n, node_eq_ok.mpr hn, hkind⟩
        cases n with
        | input => exact (hkind rfl).elim
        | _ => rfl

/-- The graph of a scene to which an accessor added something, as long as that is no input. -/
theorem beside (hs : s.WellFormed)
    (hnew : ∀ id, γ.first ≤ id → ¬ t.HasKind (· = .input) id) :
    s.graph.Beside t.graph γ.IsIdle (Command.Like γ) where
  nodes id hid := List.mem_range.mpr (h.lt_count (List.mem_range.mp hid))
  inert isolated id hid := by
    by_cases heq : id = γ.shared
    · subst heq
      exact inert_of_constant h.shared .scalar
    · obtain rfl := hid.resolve_left heq
      exact inert_of_count_le (h.count ▸ γ.apart.resolve_left heq)
  inert' isolated id hid := by
    rcases hid with rfl | rfl
    · exact inert_of_constant h.shared' .scalar
    · obtain ⟨n, hn, hconstant⟩ := h.cell
      exact inert_of_constant hn hconstant
  nodes' id hid := by
    refine List.mem_range.mpr ?_
    rcases hid with rfl | rfl
    · exact lt_count_of_node h.shared'
    · obtain ⟨n, hn, -⟩ := h.cell
      exact lt_count_of_node hn
  closed := closed hs
  requirements isolated id hid := by
    obtain ⟨n, n', hn, hn', hwidens⟩ := h.exists_nodes (List.mem_range.mp hid)
    rw [requirements_of_node hn, requirements_of_node hn']
    exact similarNeeds isolated hwidens
  contributions isolated id hid := by
    obtain ⟨n, n', hn, hn', hwidens⟩ := h.exists_nodes (List.mem_range.mp hid)
    rw [contributions_of_node hn, contributions_of_node hn', contributions_widens isolated hwidens]
    exact similarContributions hn
  children isolated id hid := by
    obtain ⟨n, n', hn, hn', hwidens⟩ := h.exists_nodes (List.mem_range.mp hid)
    show (t.nodes[id]?.map (resolvedAfter isolated id)).getD [] =
      (s.nodes[id]?.map (resolvedAfter isolated id)).getD []
    rw [node_eq_ok.mp hn, node_eq_ok.mp hn']
    exact resolvedAfter_widens isolated hwidens
  inputIndex := h.inputIndex_eq hnew
  embed := by
    rintro ⟨root, commands, inputs⟩ ⟨_, commands', _⟩ ⟨rfl, hcommands, rfl⟩
    exact .replayModel hcommands

end Widens

/-- How two compiles of one root compare: both close the same cycle, or their lists are alike. -/
inductive SameOutcome (γ : Widening) :
    Except SceneFailure SceneList → Except SceneFailure SceneList → Prop
  | cycle (c : Cycle NodeId) : SameOutcome γ (.error (.cycle c)) (.error (.cycle c))
  | ok {list list' : SceneList} (h : CommandList.Like (Command.Like γ) list list') :
      SameOutcome γ (.ok list) (.ok list')

namespace SameOutcome

variable {x y : Except SceneFailure SceneList} (h : SameOutcome γ x y)
include h

theorem isOk_iff : (∃ list, x = .ok list) ↔ ∃ list, y = .ok list := by
  cases h with
  | cycle c => exact iff_of_false nofun nofun
  | @ok list list' => exact iff_of_true ⟨list, rfl⟩ ⟨list', rfl⟩

theorem cycle_iff (c : Cycle NodeId) : x = .error (.cycle c) ↔ y = .error (.cycle c) := by
  cases h with
  | cycle => exact Iff.rfl
  | ok => exact iff_of_false nofun nofun

theorem like {list list' : SceneList} (hx : x = .ok list) (hy : y = .ok list') :
    CommandList.Like (Command.Like γ) list list' := by
  cases h with
  | cycle => cases hx
  | ok hlike =>
      cases hx
      cases hy
      exact hlike

end SameOutcome

theorem compile_widens (h : s.Widens γ t) (hs : s.WellFormed) (ht : t.WellFormed)
    (hnew : ∀ id, γ.first ≤ id → ¬ t.HasKind (· = .input) id)
    (hroot : root < s.count) : SameOutcome γ (s.compile root).result (t.compile root).result := by
  have htogether : Together (CommandList.Like (Command.Like γ)) (s.graph.compile root).result
      (t.graph.compile root).result := (h.beside hs hnew).compileNested (List.mem_range.mpr hroot)
  show SameOutcome γ ((s.graph.compile root).result.mapError s.failure)
    ((t.graph.compile root).result.mapError t.failure)
  rcases outcome_of_graph hs hroot with ⟨list, hlist⟩ | ⟨c, hc⟩ <;>
    rcases outcome_of_graph ht (h.lt_count hroot) with ⟨list', hlist'⟩ | ⟨c', hc'⟩
  · rw [hlist, hlist'] at htogether ⊢
    cases htogether with
    | ok hlike => exact .ok hlike
  · rw [hlist, hc'] at htogether
    cases htogether
  · rw [hc, hlist'] at htogether
    cases htogether
  · rw [hc, hc'] at htogether ⊢
    cases htogether with
    | error => exact .cycle c

end Graph

end Scene

end SceneGraph
