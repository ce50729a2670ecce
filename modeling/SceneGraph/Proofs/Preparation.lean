import SceneGraph.Proofs.Order
import SceneGraph.Proofs.Stability

/-!
What a container's requirements make of its matrices.

The requirements of a container are gone through in order.  Some entries start its working
matrix afresh, some append to it, and the rest leave it alone; what comes out in the end is
the matrix that the container's equation asks for.  Whatever a command reads is among the
nodes that were required before it.
-/

namespace SceneGraph

theorem append_cons_eq_append {α : Type} {pre rs before after : List α} {e : α}
    (h : pre ++ e :: rs = before ++ after) :
    (∃ rest, before = pre ++ e :: rest) ∨ ∃ l, pre = before ++ l ∧ after = l ++ e :: rs := by
  rcases List.append_eq_append_iff.mp h with ⟨l, rfl, hafter⟩ | ⟨l, rfl, hl⟩
  · cases l with
    | nil => exact Or.inr ⟨[], by simp, by simpa using hafter.symm⟩
    | cons e' l =>
        obtain ⟨rfl, -⟩ := List.cons.inj hafter
        exact Or.inl ⟨l, rfl⟩
  · exact Or.inr ⟨l, rfl, hl⟩

/-- What is known of the two matrices of a container. -/
structure Matrices where
  working : Option (Matrix Float) := none
  content : Option (Matrix Float) := none

/-- What is known of a container is true. -/
structure Matrices.Describes (known : Matrices) (c : Container) : Prop where
  working : ∀ m, known.working = some m → c.working = m
  content : ∀ m, known.content = some m → c.content = m

theorem Matrices.describes_empty (c : Container) : Matrices.Describes {} c :=
  ⟨by simp, by simp⟩

namespace Scene

variable {w s t : Scene} {id : NodeId} {group : NodeId → Prop}

/-- The nodes that an entry reads. -/
def reads : Need → List NodeId
  | .node step => [step]
  | .command (.step (.compose _ cells)) => cells.toList
  | .command (.step (.concatParent _ parent)) => [parent]
  | .command (.step (.placeContent _ originX originY)) => [originX, originY]
  | .command (.step (.solvePins _ pins width height)) =>
    pins.flatMap PinCells.toList ++ [width, height]
  | _ => []

/-- What is known of the matrices of a container after one more of its requirements. -/
def bring (s : Scene) (known : Matrices) : Need → Matrices
  | .node step => { known with working := known.working.map fun m => s.moved m step }
  | .command (.step (.compose _ cells)) => { known with working := some (s.placedBy cells) }
  | .command (.step (.concatParent _ parent)) =>
    { known with working := known.working.map (s.carried (some parent)) }
  | .command (.step (.placeContent _ originX originY)) =>
    { known with content := known.working.map (s.contentBy originX originY) }
  | .command (.step (.solvePins _ pins width height)) =>
    { known with working := some (s.solvedBy pins width height) }
  | _ => known

/-- Entries that read nothing but a group are brought alike as long as the group is left
alone. -/
theorem Keeps.bring_eq (hs : s.wiring = w.wiring) (hgroup : w.Closed group)
    (h : Keeps w group s t) {r : Need} (hreads : ∀ x ∈ reads r, group x) (known : Matrices) :
    t.bring known r = s.bring known r := by
  unfold bring
  split
  · next step => simp only [h.moved_eq hs hgroup (hreads step (by simp [reads]))]
  · next cells => rw [h.placedBy_eq hs hgroup fun cell hcell => hreads cell hcell]
  · next parent =>
      have hcarried : t.carried (some parent) = s.carried (some parent) := by
        funext m
        exact h.carried_eq (by simpa [reads] using hreads) m
      rw [hcarried]
  · next originX originY =>
      have hcontent : t.contentBy originX originY = s.contentBy originX originY := by
        funext m
        exact h.contentBy_eq hs hgroup (hreads originX (by simp [reads]))
          (hreads originY (by simp [reads])) m
      rw [hcontent]
  · next pins width height =>
      rw [h.solvedBy_eq hs hgroup
        (fun cell hcell => hreads cell (List.mem_append_left _ hcell))
        (hreads width (by simp [reads])) (hreads height (by simp [reads]))]
  · rfl

theorem Keeps.foldl_bring_eq (hs : s.wiring = w.wiring) (hgroup : w.Closed group)
    (h : Keeps w group s t) {rs : List Need} (hreads : ∀ r ∈ rs, ∀ x ∈ reads r, group x)
    (known : Matrices) : rs.foldl t.bring known = rs.foldl s.bring known :=
  List.foldl_ext _ _ _ fun known r hr => h.bring_eq hs hgroup (hreads r hr) known

/-- Each entry reads only what is known from the beginning and the nodes up to itself. -/
def Orderly (known : List NodeId) : List Need → Prop
  | [] => True
  | r :: rs =>
    (∀ x ∈ reads r, x ∈ known ++ Requirement.nodes [r]) ∧
      Orderly (known ++ Requirement.nodes [r]) rs

theorem nodes_cons (r : Need) (rs : List Need) :
    Requirement.nodes (r :: rs) = Requirement.nodes [r] ++ Requirement.nodes rs :=
  Requirement.nodes_append [r] rs

theorem orderly_append {known : List NodeId} {rs rs' : List Need} :
    Orderly known (rs ++ rs') ↔ Orderly known rs ∧ Orderly (known ++ Requirement.nodes rs) rs' := by
  induction rs generalizing known with
  | nil => simp [Orderly, Requirement.nodes]
  | cons r rs ih =>
      rw [List.cons_append, Orderly, Orderly, ih, nodes_cons r rs, List.append_assoc, and_assoc]

@[simp] theorem nodes_map_node (l : List NodeId) :
    Requirement.nodes (l.map (.node : NodeId → Need)) = l := by
  induction l with
  | nil => rfl
  | cons id l ih => rw [List.map_cons, nodes_cons, ih]; rfl

theorem orderly_map_node (known l : List NodeId) : Orderly known (l.map .node) := by
  induction l generalizing known with
  | nil => trivial
  | cons id l ih =>
      refine ⟨fun x hx => ?_, ih _⟩
      obtain rfl : x = id := by simpa [reads] using hx
      simp [Requirement.nodes]

theorem orderly_ofOption (known : List NodeId) (slot : Option NodeId) :
    Orderly known [.ofOption slot] := by
  cases slot <;> simp [Orderly, reads, Requirement.ofOption, Requirement.nodes]

theorem orderly_emit {known : List NodeId} {step : Step}
    (h : ∀ x ∈ reads (emit step), x ∈ known) : Orderly known [emit step] :=
  ⟨fun x hx => List.mem_append_left _ (h x hx), trivial⟩

theorem reads_mem_of_orderly {known : List NodeId} {pre post : List Need} {r : Need}
    (h : Orderly known (pre ++ r :: post)) :
    ∀ x ∈ reads r, x ∈ known ++ Requirement.nodes pre ++ Requirement.nodes [r] :=
  (orderly_append.mp h).2.1

theorem orderly_node (known : List NodeId) (id : NodeId) : Orderly known [.node id] :=
  orderly_map_node known [id]

/-- The requirements of a part, piece by piece. -/
theorem partNeeds_eq (id : NodeId) (p : Part) : partNeeds id p =
    [.ofOption p.container.parent] ++ p.placementCells.toList.map .node ++
      [emit (.compose id p.placementCells)] ++ p.container.transformations.map .node ++
      (p.container.parent.map fun parent => emit (.concatParent id parent)).toList ++
      ([.node (p.cell .originX)] ++ [.node (p.cell .originY)] ++
        [emit (.placeContent id (p.cell .originX) (p.cell .originY))] ++
        [.ofOption (p.attributes .width)] ++ [.ofOption (p.attributes .height)]) :=
  rfl

theorem pinnedPartNeeds_eq (id : NodeId) (p : PinnedPart) : pinnedPartNeeds id p =
    (p.pinCells.flatMap PinCells.toList).map .node ++
      ([.node (p.sizeCell .width)] ++ [.node (p.sizeCell .height)] ++
        [emit (.solvePins id p.pinCells (p.sizeCell .width) (p.sizeCell .height))]) ++
      p.container.transformations.map .node :=
  rfl

theorem orderly_partNeeds (id : NodeId) (p : Part) : Orderly [] (partNeeds id p) := by
  rw [partNeeds_eq]
  simp only [orderly_append, Requirement.nodes_append, nodes_map_node, orderly_map_node,
    orderly_ofOption, orderly_node, true_and, and_true]
  refine ⟨⟨orderly_emit fun x hx => ?_, ?_⟩, orderly_emit fun x hx => ?_⟩
  · simpa [reads, emit] using Or.inr hx
  · cases p.container.parent with
    | none => trivial
    | some parent => exact orderly_emit (by simp [reads, emit, Requirement.ofOption])
  · rcases (by simpa [reads, emit] using hx) with rfl | rfl <;> simp [Requirement.nodes]

theorem orderly_pinnedPartNeeds (id : NodeId) (p : PinnedPart) :
    Orderly [] (pinnedPartNeeds id p) := by
  rw [pinnedPartNeeds_eq]
  simp only [orderly_append, Requirement.nodes_append, nodes_map_node, orderly_map_node,
    orderly_node, true_and, and_true]
  refine orderly_emit fun x hx => ?_
  simpa [reads, emit, Requirement.nodes] using hx

theorem needs_part (id : NodeId) (p : Part) : needs [] id (.part p) = partNeeds id p :=
  if_neg (by simp)

/-- Whatever an entry of a node's requirements reads is required before. -/
theorem orderly_needs (id : NodeId) (n : Node) : Orderly [] (needs [] id n) := by
  cases n with
  | scalar v requirement => exact orderly_ofOption [] requirement
  | input v index => trivial
  | calculated c =>
      show Orderly [] (c.modifiers.getLast?.map Requirement.node).toList
      cases c.modifiers.getLast? with
      | none => trivial
      | some tail => exact orderly_node [] tail
  | modified m => exact orderly_append.mpr ⟨orderly_node [] m.target, orderly_ofOption _ m.operand⟩
  | transformation step => exact orderly_node [] step.amount
  | part p => exact needs_part id p ▸ orderly_partNeeds id p
  | pin p =>
      have hsplit : needs [] id (.pin p) =
          [.ofOption p.parent] ++ [.ofOption (p.coordinates .x)] ++
            [.ofOption (p.coordinates .y)] := rfl
      rw [hsplit]
      simp only [orderly_append, orderly_ofOption, true_and]
  | pinnedPart p => exact orderly_pinnedPartNeeds id p

/-- A node that is not an extra motion. -/
def Still (w : Scene) (id : NodeId) : Prop :=
  ∀ t, w.node id ≠ .ok (.transformation t)

theorem HasKind.still {p : NodeKind → Prop} (h : w.HasKind p id)
    (hp : ¬ p .transformation) : w.Still id := by
  intro t ht
  obtain ⟨n, hn, hk⟩ := h
  obtain rfl := node_unique hn ht
  exact hp hk

/-- A node of the scene, and not an extra motion. -/
abbrev IsStill (w : Scene) : NodeId → Prop :=
  w.HasKind (· ≠ .transformation)

theorem HasKind.isStill {p : NodeKind → Prop} (h : w.HasKind p id)
    (hp : ¬ p .transformation) : w.IsStill id :=
  h.imp fun _ hk heq => hp (heq ▸ hk)

theorem IsStill.still (h : w.IsStill id) : w.Still id :=
  HasKind.still h fun hne => hne rfl

theorem IsNumber.isStill (h : w.IsNumber id) : w.IsStill id :=
  HasKind.isStill h fun hnumber => hnumber

theorem slot_isStill {p : NodeKind → Prop} (hp : ¬ p .transformation) {slot : Option NodeId}
    (hslot : ∀ cell, slot = some cell → w.HasKind p cell) : ∀ m ∈ slot.toList, w.IsStill m :=
  fun m hm => HasKind.isStill (hslot m (by simpa using hm)) hp

@[simp] theorem nodes_ofOption (slot : Option NodeId) :
    Requirement.nodes [(.ofOption slot : Need)] = slot.toList := by
  cases slot <;> rfl

@[simp] theorem nodes_emit (step : Step) : Requirement.nodes [emit step] = [] :=
  rfl

theorem nodes_partNeeds (id : NodeId) (p : Part) : Requirement.nodes (partNeeds id p) =
    (p.container.parent.toList ++ p.placementCells.toList) ++ p.container.transformations ++
      ([p.cell .originX, p.cell .originY] ++ (p.attributes .width).toList ++
        (p.attributes .height).toList) := by
  have hconcat : Requirement.nodes
      (p.container.parent.map fun parent => emit (.concatParent id parent)).toList = [] := by
    cases p.container.parent <;> rfl
  rw [partNeeds_eq]
  simp only [Requirement.nodes_append, nodes_map_node, nodes_ofOption, nodes_emit, hconcat,
    List.append_assoc]
  rfl

theorem nodes_pinnedPartNeeds (id : NodeId) (p : PinnedPart) :
    Requirement.nodes (pinnedPartNeeds id p) =
      (p.pinCells.flatMap PinCells.toList ++ [p.sizeCell .width, p.sizeCell .height]) ++
        p.container.transformations ++ [] := by
  rw [pinnedPartNeeds_eq]
  simp only [Requirement.nodes_append, nodes_map_node, nodes_emit, List.append_nil,
    List.append_assoc]
  rfl

/-- Among the nodes that a node needs there are its own extra motions, in one piece, and no
other ones. -/
theorem nodes_needs (hw : w.WellFormed) {n : Node} (hn : w.node id = .ok n) :
    ∃ before after, Requirement.nodes (needs [] id n) = before ++ n.transformations ++ after ∧
      ∀ m ∈ before ++ after, w.IsStill m := by
  have hfits := hw.fits id n hn
  have hplain : n.transformations = [] → (∀ m ∈ Requirement.nodes (needs [] id n), w.IsStill m) →
      ∃ before after, Requirement.nodes (needs [] id n) =
        before ++ n.transformations ++ after ∧ ∀ m ∈ before ++ after, w.IsStill m :=
    fun hnone hstill =>
      ⟨Requirement.nodes (needs [] id n), [], by simp [hnone], by simpa using hstill⟩
  cases n with
  | scalar v requirement =>
      refine hplain rfl ?_
      cases requirement with
      | none => simp [needs]
      | some owner =>
          obtain ⟨k, hk, hshows⟩ := hfits
          have howner : w.IsStill owner := by
            refine ⟨k, hk, fun hkind => ?_⟩
            cases k with
            | transformation step => rcases hshows with ⟨_, h⟩ | ⟨_, h⟩ <;> cases h
            | part p => cases hmodel : p.model <;> simp [Node.kind, hmodel] at hkind
            | _ => cases hkind
          simpa [needs] using howner
  | input v index => exact hplain rfl (by simp [needs, Requirement.nodes])
  | calculated c =>
      refine hplain rfl ?_
      have htail := isNumber_tail hfits.1 hfits.2
      cases hlast : c.modifiers.getLast? with
      | none => simp [needs, hlast, Requirement.nodes]
      | some tail =>
          rw [Calculated.tail, hlast] at htail
          simpa [needs, hlast] using htail.isStill
  | modified m =>
      refine hplain rfl ?_
      have hneeds : Requirement.nodes (needs [] id (.modified m)) =
          [m.target] ++ m.operand.toList := by
        rw [← nodes_ofOption, needs]
        rfl
      rw [hneeds]
      simpa [or_imp, forall_and] using
        ⟨hfits.1.isStill, fun cell hcell => (hfits.2 cell hcell).isStill⟩
  | transformation step => exact hplain rfl (by simpa [needs] using hfits.1.isStill)
  | part p =>
      have hnodes := nodes_partNeeds id p
      rw [← needs_part] at hnodes
      refine ⟨_, _, hnodes, ?_⟩
      have hparent := slot_isStill (by simp [NodeKind.IsContainer]) hfits.1.parent
      have hslot := fun a => slot_isStill (by simp) (hfits.2.1 a)
      have hcell := fun a => (cell_isNumber hw hn a).isStill
      simp only [List.mem_append, or_imp, forall_and, PlacementCells.toList, List.forall_mem_cons,
        List.not_mem_nil, false_imp_iff, implies_true, and_true]
      exact ⟨⟨hparent, hcell .x, hcell .y, hcell .scaleX, hcell .scaleY, hcell .rotation⟩,
        ⟨⟨hcell .originX, hcell .originY⟩, hslot .width⟩, hslot .height⟩
  | pin p =>
      refine hplain rfl ?_
      have hneeds : Requirement.nodes (needs [] id (.pin p)) =
          p.parent.toList ++ (p.coordinates .x).toList ++ (p.coordinates .y).toList := by
        simp only [← nodes_ofOption, ← Requirement.nodes_append]
        rfl
      have hparent := slot_isStill (by simp [NodeKind.IsContainer]) hfits.1
      have hslot := fun axis => slot_isStill (by simp) (hfits.2.1 axis)
      rw [hneeds]
      simp only [List.mem_append, or_imp, forall_and]
      exact ⟨⟨hparent, hslot .x⟩, hslot .y⟩
  | pinnedPart p =>
      refine ⟨_, _, nodes_pinnedPartNeeds id p, ?_⟩
      have hpins : ∀ m ∈ p.pinCells.flatMap PinCells.toList, w.IsStill m := by
        intro m hm
        obtain ⟨c, hc, hcell⟩ := List.mem_flatMap.mp hm
        exact (pinCells_isNumber hw hn hc m hcell).isStill
      have hsize := fun d => (sizeCell_isNumber hw hn d).isStill
      simp only [List.append_nil, List.mem_append, or_imp, forall_and, List.forall_mem_cons,
        List.not_mem_nil, false_imp_iff, implies_true, and_true]
      exact ⟨hpins, hsize .width, hsize .height⟩

/-- What a container lists as its extra motions belongs to it. -/
theorem moves_of_transformation (hw : w.WellFormed) {n : Node} (hn : w.node id = .ok n)
    {m : NodeId} (hm : m ∈ n.transformations) : w.Moves m id := by
  cases n with
  | part p | pinnedPart p => exact (hw.fits id _ hn).1.transformations m hm
  | _ => cases hm

/-- What a node needs is not an extra motion, or it is one of its own. -/
theorem isStill_or_moves (hw : w.WellFormed) {n : Node} (hn : w.node id = .ok n) {m : NodeId}
    (hm : .node m ∈ needs [] id n) : w.IsStill m ∨ w.Moves m id := by
  obtain ⟨before, after, hnodes, hstill⟩ := nodes_needs hw hn
  have hmem := RenderGraph.mem_nodes.mpr hm
  rw [hnodes, List.mem_append, List.mem_append] at hmem
  rcases hmem with (hmem | hmem) | hmem
  · exact Or.inl (hstill m (List.mem_append_left _ hmem))
  · exact Or.inr (moves_of_transformation hw hn hmem)
  · exact Or.inl (hstill m (List.mem_append_right _ hmem))

theorem still_or_moves (hw : w.WellFormed) {n : Node} (hn : w.node id = .ok n) {m : NodeId}
    (hm : .node m ∈ needs [] id n) : w.Still m ∨ w.Moves m id :=
  (isStill_or_moves hw hn hm).imp_left IsStill.still

/-- What a node needs is a node of the scene. -/
theorem lt_count_of_needs (hw : w.WellFormed) {n : Node} (hn : w.node id = .ok n) {m : NodeId}
    (hm : .node m ∈ needs [] id n) : m < w.count := by
  rcases isStill_or_moves hw hn hm with hstill | ⟨motion, amount, hmoves⟩
  · exact hstill.lt_count
  · exact lt_count_of_node hmoves

theorem nodup_transformations (hw : w.WellFormed) {n : Node} (hn : w.node id = .ok n) :
    n.transformations.Nodup := by
  cases n with
  | part p | pinnedPart p => exact (hw.fits id _ hn).1.nodup
  | _ => exact List.nodup_nil

/-- An extra motion is needed in one place. -/
theorem not_mem_of_moves (hw : w.WellFormed) {n : Node} (hn : w.node id = .ok n)
    {pre post : List Need} {m : NodeId} (hneeds : needs [] id n = pre ++ .node m :: post)
    (hm : w.Moves m id) : .node m ∉ pre := by
  obtain ⟨before, after, hnodes, hstill⟩ := nodes_needs hw hn
  obtain ⟨motion, amount, hstep⟩ := hm
  have hother : m ∉ before ++ after := fun hmem => (hstill m hmem).still _ hstep
  intro hmem
  have hmany : 2 ≤ (Requirement.nodes (needs [] id n)).count m := by
    rw [hneeds, Requirement.nodes_append, nodes_cons (.node m) post, List.count_append,
      List.count_append]
    have hfirst := List.count_pos_iff.mpr (RenderGraph.mem_nodes.mpr hmem)
    have hsecond : (Requirement.nodes [(.node m : Need)]).count m = 1 := by
      simp [Requirement.nodes]
    omega
  have hone := List.nodup_iff_count_le_one.mp (nodup_transformations hw hn) m
  rw [hnodes, List.count_append, List.count_append] at hmany
  rw [List.mem_append, not_or] at hother
  have hbefore := List.count_eq_zero.mpr hother.1
  have hafter := List.count_eq_zero.mpr hother.2
  omega

theorem bring_node_of_still (hs : s.wiring = w.wiring) (h : w.Still id) (known : Matrices) :
    s.bring known (.node id) = known := by
  simp only [bring, moved_of_ne hs h, Option.map_id']

theorem bring_ofOption (hs : s.wiring = w.wiring) {slot : Option NodeId}
    (hslot : ∀ cell ∈ slot.toList, w.Still cell) (known : Matrices) :
    s.bring known (.ofOption slot) = known := by
  cases slot with
  | none => rfl
  | some cell => exact bring_node_of_still hs (hslot cell (by simp)) known

theorem foldl_bring_nodes (s : Scene) (l : List NodeId) (known : Matrices) :
    (l.map .node).foldl s.bring known =
      { known with working := known.working.map fun m => l.foldl s.moved m } := by
  induction l generalizing known with
  | nil => cases known with | mk working content => cases working <;> rfl
  | cons id l ih =>
      rw [List.map_cons, List.foldl_cons, ih]
      simp [bring, Function.comp_def]

/-- An entry that says nothing of the matrices of a container. -/
def Quiet (w : Scene) : Need → Prop
  | .gap => True
  | .node m => w.Still m
  | .command _ => False

theorem Quiet.ofOption {slot : Option NodeId} (h : ∀ m ∈ slot.toList, w.Still m) :
    w.Quiet (.ofOption slot) := by
  cases slot with
  | none => trivial
  | some m => exact h m (by simp)

theorem foldl_bring_quiet (hs : s.wiring = w.wiring) {rs : List Need} (h : ∀ e ∈ rs, w.Quiet e)
    (known : Matrices) : rs.foldl s.bring known = known := by
  induction rs with
  | nil => rfl
  | cons e rs ih =>
      obtain ⟨he, hrs⟩ := List.forall_mem_cons.mp h
      have hbring : s.bring known e = known := by
        cases e with
        | gap => rfl
        | node m => exact bring_node_of_still hs he known
        | command c => exact he.elim
      rw [List.foldl_cons, hbring, ih hrs]

/-- Once a working matrix is started, it is there. -/
theorem working_foldl_bring {rs : List Need} {known : Matrices}
    (h : known.working.isSome) : ((rs.foldl s.bring known).working).isSome := by
  induction rs generalizing known with
  | nil => exact h
  | cons e rs ih =>
      refine ih ?_
      unfold bring
      split <;> simp [h]

/-- The requirements of a part up to its working matrix. -/
def composing (id : NodeId) (p : Part) : List Need :=
  [.ofOption p.container.parent] ++ p.placementCells.toList.map .node ++
    (emit (.compose id p.placementCells) :: p.container.transformations.map .node ++
      (p.container.parent.map fun parent => emit (.concatParent id parent)).toList)

/-- The requirements of a part after its working matrix. -/
def placing (id : NodeId) (p : Part) : List Need :=
  [.node (p.cell .originX), .node (p.cell .originY),
    emit (.placeContent id (p.cell .originX) (p.cell .originY)),
    .ofOption (p.attributes .width), .ofOption (p.attributes .height)]

theorem needs_part_split (id : NodeId) (p : Part) :
    needs [] id (.part p) = composing id p ++ placing id p := by
  simp [needs_part, partNeeds, composing, placing]

theorem needs_pinnedPart_split (id : NodeId) (p : PinnedPart) : needs [] id (.pinnedPart p) =
    ((p.pinCells.flatMap PinCells.toList).map .node ++
      [.node (p.sizeCell .width), .node (p.sizeCell .height)]) ++
    emit (.solvePins id p.pinCells (p.sizeCell .width) (p.sizeCell .height)) ::
      p.container.transformations.map .node := by
  simp [needs, pinnedPartNeeds]

/-- What a part is placed by, before its matrix is started. -/
theorem quiet_partNeeds (hw : w.WellFormed) {p : Part} (hn : w.node id = .ok (.part p)) :
    ∀ e ∈ ([.ofOption p.container.parent] ++ p.placementCells.toList.map .node : List Need),
      w.Quiet e := by
  have hfits := hw.fits id _ hn
  have hcell := fun a => (cell_isNumber hw hn a).isStill.still
  have hparent : w.Quiet (.ofOption p.container.parent) := .ofOption fun m hm =>
    (slot_isStill (by simp [NodeKind.IsContainer]) hfits.1.parent m hm).still
  simpa [PlacementCells.toList, Part.placementCells] using
    ⟨hparent, hcell .x, hcell .y, hcell .scaleX, hcell .scaleY, hcell .rotation⟩

theorem quiet_pinnedPartNeeds (hw : w.WellFormed) {p : PinnedPart}
    (hn : w.node id = .ok (.pinnedPart p)) :
    ∀ e ∈ ((p.pinCells.flatMap PinCells.toList).map .node ++
      [.node (p.sizeCell .width), .node (p.sizeCell .height)] : List Need), w.Quiet e := by
  have hsize := fun d => (sizeCell_isNumber hw hn d).isStill.still
  intro e he
  rcases List.mem_append.mp he with he | he
  · obtain ⟨m, hm, rfl⟩ := List.mem_map.mp he
    obtain ⟨c, hc, hcell⟩ := List.mem_flatMap.mp hm
    exact (pinCells_isNumber hw hn hc m hcell).isStill.still
  · rcases List.mem_cons.mp he with rfl | he
    · exact hsize .width
    · obtain rfl := List.mem_singleton.mp he
      exact hsize .height

/-- The requirements of a node say nothing of its matrices until one entry starts the working
matrix, if any does. -/
theorem quiet_until_started (hw : w.WellFormed) {n : Node} (hn : w.node id = .ok n) :
    (∀ e ∈ needs [] id n, w.Quiet e) ∨ ∃ early start rest, needs [] id n = early ++ start :: rest ∧
      (∀ e ∈ early, w.Quiet e) ∧
      ∀ (s : Scene) known, ((s.bring known start).working).isSome := by
  cases n with
  | part p =>
      refine Or.inr ⟨[.ofOption p.container.parent] ++ p.placementCells.toList.map .node,
        emit (.compose id p.placementCells), p.container.transformations.map .node ++
          (p.container.parent.map fun parent => emit (.concatParent id parent)).toList ++
            placing id p, ?_, quiet_partNeeds hw hn, fun s known => rfl⟩
      simp [needs_part_split, composing]
  | pinnedPart p =>
      exact Or.inr ⟨_, _, _, needs_pinnedPart_split id p, quiet_pinnedPartNeeds hw hn,
        fun s known => rfl⟩
  | _ =>
      refine Or.inl fun e he => ?_
      cases e with
      | gap => trivial
      | command c => simp [needs, requirement_ofOption_ne_command.symm] at he
      | node m =>
          refine (still_or_moves hw hn he).resolve_right ?_
          rintro ⟨motion, amount, hm⟩
          obtain ⟨-, n', hn', hmem⟩ := hw.fits m _ hm
          obtain rfl := node_unique hn hn'
          cases hmem

/-- Once an entry was gone through that is not quiet, the working matrix is started. -/
theorem working_of_not_quiet (hw : w.WellFormed) {n : Node} (hn : w.node id = .ok n)
    {pre rs : List Need} {e : Need} (hneeds : needs [] id n = pre ++ e :: rs) (he : ¬ w.Quiet e)
    (known : Matrices) : (((pre ++ [e]).foldl s.bring known).working).isSome := by
  rcases quiet_until_started hw hn with hquiet | ⟨early, start, rest, hsplit, hearly, hstart⟩
  · exact absurd (hquiet e (by simp [hneeds])) he
  rcases append_cons_eq_append (hneeds.symm.trans hsplit) with ⟨l, rfl⟩ | ⟨l, rfl, hl⟩
  · exact absurd (hearly e (by simp)) he
  rw [List.append_assoc, List.foldl_append]
  cases l with
  | nil =>
      obtain ⟨rfl, -⟩ := List.cons.inj hl
      exact hstart s _
  | cons e' l =>
      obtain ⟨rfl, -⟩ := List.cons.inj hl
      rw [List.cons_append, List.foldl_cons]
      exact working_foldl_bring (hstart s _)

theorem bring_composing (hw : w.WellFormed) (hs : s.wiring = w.wiring) {p : Part}
    (hn : w.node id = .ok (.part p)) :
    (composing id p).foldl s.bring {} = ⟨some (s.composed p), none⟩ := by
  have hconcat : ∀ m, (p.container.parent.map fun parent =>
      (.command (.step (.concatParent id parent)) : Need)).toList.foldl s.bring ⟨some m, none⟩ =
        ⟨some (s.carried p.container.parent m), none⟩ := by
    intro m
    cases p.container.parent <;> rfl
  rw [composing, List.foldl_append, foldl_bring_quiet hs (quiet_partNeeds hw hn)]
  simp only [List.cons_append, List.foldl_cons, List.foldl_append, foldl_bring_nodes]
  simp only [emit, bring, Option.map_some, hconcat, composed_eq_placedBy]

theorem quiet_or_placeContent (hw : w.WellFormed) {p : Part} (hn : w.node id = .ok (.part p)) :
    ∀ e ∈ placing id p,
      w.Quiet e ∨ e = emit (.placeContent id (p.cell .originX) (p.cell .originY)) := by
  have hcell := fun a => (cell_isNumber hw hn a).isStill.still
  have hslot : ∀ a, w.Quiet (.ofOption (p.attributes a)) := fun a => .ofOption fun m hm =>
    (slot_isStill (by simp) ((hw.fits id _ hn).2.1 a) m hm).still
  have hx : w.Quiet (.node (p.cell .originX)) := hcell .originX
  have hy : w.Quiet (.node (p.cell .originY)) := hcell .originY
  simp [placing, hx, hy, hslot]

/-- What the requirements of a part make of its matrices. -/
theorem bring_partNeeds (hw : w.WellFormed) (hs : s.wiring = w.wiring) {p : Part}
    (hn : w.node id = .ok (.part p)) :
    (partNeeds id p).foldl s.bring {} = ⟨some (s.composed p), some (s.contents p)⟩ := by
  have hcell := fun a => (cell_isNumber hw hn a).isStill.still
  have hslot : ∀ a, ∀ m ∈ (p.attributes a).toList, w.Still m := fun a m hm =>
    (slot_isStill (by simp) ((hw.fits id _ hn).2.1 a) m hm).still
  rw [← needs_part, needs_part_split, List.foldl_append, bring_composing hw hs hn,
    contents_eq_contentBy]
  simp only [placing, List.foldl_cons, List.foldl_nil, bring_ofOption hs (hslot _),
    bring_node_of_still hs (hcell _)]
  rfl

theorem bring_pinnedPartNeeds (s : Scene) (id : NodeId) (p : PinnedPart) :
    (pinnedPartNeeds id p).foldl s.bring {} = ⟨some (s.solved p), none⟩ := by
  unfold pinnedPartNeeds
  simp only [List.foldl_append, List.foldl_cons, List.foldl_nil, foldl_bring_nodes]
  simp only [emit, bring, Option.map_some, solved_eq_solvedBy]

end Scene

end SceneGraph
