import SceneGraph.Proofs.Equations

/-!
Equations stay satisfied.

A group of nodes that holds whatever its nodes need is not disturbed by the steps of other
nodes: nothing that the equations of the group read is written outside of it.
-/

namespace SceneGraph

namespace Scene

variable {w s t u : Scene} {id : NodeId} {group acting : NodeId → Prop}

/-- A group holds what a node needs. -/
def Ready (group : NodeId → Prop) (id : NodeId) (n : Node) : Prop :=
  ∀ m, .node m ∈ needs [] id n → group m

/-- A group holds what its nodes need. -/
def Closed (w : Scene) (group : NodeId → Prop) : Prop :=
  ∀ id n, group id → w.node id = .ok n → Ready group id n

/-- What the nodes of a group write, and their matrices, are as before.  So are the numbers
that no node writes. -/
structure Keeps (w : Scene) (group : NodeId → Prop) (s t : Scene) : Prop where
  wiring : t.wiring = s.wiring
  values : ∀ id n, w.node id = .ok n → (∀ x, n.writer? id = some x → group x) →
    t.value id = s.value id
  containers : ∀ id, group id → t.container? id = s.container? id

/-- A container needs its extra motions. -/
theorem needs_of_transformation {n : Node} {step : NodeId} (h : step ∈ n.transformations) :
    .node step ∈ needs [] id n := by
  cases n with
  | part p =>
      have hstep : step ∈ p.container.transformations := h
      simp [needs, partNeeds, hstep]
  | pinnedPart p =>
      have hstep : step ∈ p.container.transformations := h
      simp [needs, pinnedPartNeeds, hstep]
  | _ => cases h

theorem Ready.slot {n : Node} (hready : Ready group id n) (slot : Option NodeId)
    (hslot : .ofOption slot ∈ needs [] id n) : ∀ cell, slot = some cell → group cell := by
  rintro cell rfl
  exact hready cell hslot

theorem Ready.tail {c : Calculated} (hready : Ready group id (.calculated c))
    (hmodifiers : c.modifiers ≠ []) : group (c.modifiers.getLast?.getD c.base) := by
  have hlast := List.getLast?_eq_some_getLast hmodifiers
  rw [hlast]
  exact hready _ (by simp [needs, hlast])

namespace Closed

variable (hgroup : w.Closed group)
include hgroup

/-- With the end of a chain, a group holds all of the chain. -/
theorem chain {target : NodeId} {links : List NodeId} (hchain : w.Chained target links)
    (hlast : group (links.getLast?.getD target)) :
    group target ∧ ∀ link ∈ links, group link := by
  induction links generalizing target with
  | nil => exact ⟨hlast, by simp⟩
  | cons link links ih =>
      obtain ⟨⟨m, hm, rfl⟩, hrest⟩ := hchain
      rw [List.getLast?_cons] at hlast
      obtain ⟨hlink, hlinks⟩ := ih hrest hlast
      refine ⟨hgroup link _ hlink hm m.target (by simp [needs]), ?_⟩
      simpa using ⟨hlink, hlinks⟩

/-- Steps of nodes outside of a group do not disturb it. -/
theorem keeps (hw : w.WellFormed) (h : Touches w acting s t)
    (hacting : ∀ x, acting x → ¬ group x) : Keeps w group s t where
  wiring := h.wiring
  values id n hn hid := h.values id n hn fun x hx => Or.inl fun hact => hacting x hact (hid x hx)
  containers id hid := by
    refine h.containers id (fun hact => hacting id hact hid) fun x hact => ?_
    rintro ⟨motion, amount, hx⟩
    obtain ⟨-, n, hn, hmem⟩ := hw.fits x _ hx
    exact hacting x hact (hgroup id n hid hn x (needs_of_transformation hmem))

end Closed

theorem node_error_of_wiring (h : t.wiring = s.wiring) (hid : ¬ id < s.count) :
    t.node id = s.node id := by
  have hcount := count_eq_of_wiring h
  have hnone : ∀ r : Scene, ¬ id < r.count → r.node id = .error ⟨r.count, id⟩ := by
    intro r hr
    have hr : ¬ id < r.nodes.size := hr
    simp [node, hr]
  rw [hnone s hid, hnone t (hcount ▸ hid), hcount]

theorem working_eq_map (s : Scene) (id : NodeId) : s.working id =
    (s.container? id).map fun c => (c.map Container.working).getD Matrix.identity := by
  unfold working container?
  cases s.node id <;> rfl

/-- A matrix places a node as its container says. -/
theorem placement?_of_container? (hwiring : t.wiring = s.wiring)
    (h : t.container? id = s.container? id) {n : Node} (hn : s.node id = .ok n) :
    ∃ n', t.node id = .ok n' ∧ n'.wiring = n.wiring ∧ n'.placement? = n.placement? := by
  obtain ⟨n', hn', heq⟩ := node_of_wiring hwiring hn
  refine ⟨n', hn', heq, ?_⟩
  unfold container? at h
  rw [hn, hn'] at h
  have hcontainer : n'.container? = n.container? := Except.ok.inj h
  cases n <;> cases n' <;> simp_all [Node.wiring, Node.container?, Node.placement?]

theorem pinPosition?_of_pin {p : Pin} (hn : s.node id = .ok (.pin p)) {parent : NodeId}
    (hparent : p.parent = some parent) {n : Node} (hparentNode : s.node parent = .ok n) :
    s.pinPosition? id = (n.placement?.map fun m => do
      let x ← s.slotValue (p.coordinates .x)
      let y ← s.slotValue (p.coordinates .y)
      pure (some (m.image ⟨x, y⟩))).getD (.ok none) := by
  unfold pinPosition?
  rw [hn, ok_bind]
  simp only [hparent]
  rw [hparentNode, ok_bind]
  cases n.placement? <;> rfl

namespace Keeps

variable (hw : w.WellFormed) (hs : s.wiring = w.wiring) (hgroup : w.Closed group)
  (h : Keeps w group s t)
include hs hgroup h

theorem value_eq (hid : group id) : t.value id = s.value id := by
  by_cases hcount : id < w.count
  · obtain ⟨n, hn⟩ := node_of_lt_count hcount
    refine h.values id n hn fun x hx => ?_
    cases n with
    | scalar v requirement =>
        exact (hgroup id _ hid hn).slot requirement (by simp [needs]) x hx
    | calculated c => exact Option.some.inj hx ▸ hid
    | modified m => exact Option.some.inj hx ▸ hid
    | _ => cases hx
  · unfold value
    rw [node_error_of_wiring h.wiring (count_eq_of_wiring hs ▸ hcount)]

theorem number_eq (hid : group id) : t.number id = s.number id :=
  Scene.number_eq (h.value_eq hs hgroup hid)

theorem slotValue_eq {slot : Option NodeId} (hslot : ∀ cell, slot = some cell → group cell) :
    t.slotValue slot = s.slotValue slot := by
  cases slot with
  | none => rfl
  | some cell => exact h.value_eq hs hgroup (hslot cell rfl)

theorem slotNumber_eq {slot : Option NodeId} (hslot : ∀ cell, slot = some cell → group cell) :
    t.slotNumber slot = s.slotNumber slot := by
  cases slot with
  | none => rfl
  | some cell => exact h.number_eq hs hgroup (hslot cell rfl)

omit hs hgroup in
theorem working_eq (hid : group id) : t.working id = s.working id := by
  rw [working_eq_map, h.containers id hid, working_eq_map]

omit hs hgroup in
theorem matrix_eq (hid : group id) : t.matrix id = s.matrix id := by
  rw [matrix, h.working_eq hid, matrix]

omit hs hgroup in
theorem placement_eq (hid : group id) {n : Node} (hn : s.node id = .ok n) :
    t.placement id = s.placement id := by
  obtain ⟨n', hn', -, heq⟩ := placement?_of_container? h.wiring (h.containers id hid) hn
  unfold placement
  rw [hn, hn']
  show Except.ok _ = Except.ok _
  rw [heq]

theorem link_eq (hid : group id) (running : Float) : t.link running id = s.link running id := by
  unfold link
  rw [bind_node_of_wiring h.wiring Node.link?_wiring, bind_node_of_wiring hs Node.link?_wiring]
  cases hn : w.nodes[id]? with
  | none => rfl
  | some n =>
      cases n with
      | modified m =>
          have hready := hgroup id _ hid (node_eq_ok.mpr hn)
          have hslot := hready.slot m.operand (by simp [needs])
          exact congrArg (m.op.apply running) (h.slotNumber_eq hs hgroup hslot)
      | _ => rfl

theorem moved_eq (hid : group id) (m : Matrix Float) : t.moved m id = s.moved m id := by
  unfold moved
  rw [bind_node_of_wiring h.wiring Node.transformation?_wiring,
    bind_node_of_wiring hs Node.transformation?_wiring]
  cases hn : w.nodes[id]? with
  | none => rfl
  | some n =>
      cases n with
      | transformation step =>
          have hamount := hgroup id _ hid (node_eq_ok.mpr hn) step.amount (by simp [needs])
          exact congrArg (m.moved step.motion) (h.number_eq hs hgroup hamount)
      | _ => rfl

theorem placedBy_eq {c : PlacementCells} (hc : ∀ cell ∈ c.toList, group cell) :
    t.placedBy c = s.placedBy c := by
  have hnumber : ∀ cell ∈ c.toList, t.number cell = s.number cell := fun cell hcell =>
    h.number_eq hs hgroup (hc cell hcell)
  simp only [PlacementCells.toList, List.mem_cons, List.not_mem_nil, or_false, forall_eq_or_imp,
    forall_eq] at hnumber
  simp only [placedBy, hnumber]

theorem contentBy_eq {originX originY : NodeId} (hx : group originX) (hy : group originY)
    (m : Matrix Float) : t.contentBy originX originY m = s.contentBy originX originY m := by
  simp only [contentBy, h.number_eq hs hgroup hx, h.number_eq hs hgroup hy]

theorem solvedBy_eq {pins : List PinCells} {width height : NodeId}
    (hpins : ∀ cell ∈ pins.flatMap PinCells.toList, group cell) (hwidth : group width)
    (hheight : group height) : t.solvedBy pins width height = s.solvedBy pins width height := by
  have hnumbers : pins.map t.pinNumbers = pins.map s.pinNumbers := by
    refine List.map_congr_left fun c hc => ?_
    have hnumber : ∀ cell ∈ c.toList, t.number cell = s.number cell := fun cell hcell =>
      h.number_eq hs hgroup (hpins cell (List.mem_flatMap_of_mem hc hcell))
    simp only [PinCells.toList, List.mem_cons, List.not_mem_nil, or_false, forall_eq_or_imp,
      forall_eq] at hnumber
    simp only [pinNumbers, hnumber]
  simp only [solvedBy, hnumbers, h.number_eq hs hgroup hwidth, h.number_eq hs hgroup hheight]

omit hs hgroup in
theorem carried_eq {parent : Option NodeId} (hparent : ∀ k, parent = some k → group k)
    (m : Matrix Float) : t.carried parent m = s.carried parent m := by
  cases parent with
  | none => rfl
  | some k => exact congrArg m.concat (h.matrix_eq (hparent k rfl))

theorem composed_eq {p : Part} (hready : Ready group id (.part p)) :
    t.composed p = s.composed p := by
  have hparent := hready.slot p.container.parent (by simp [needs, partNeeds])
  have hcells : ∀ cell ∈ p.placementCells.toList, group cell := fun cell hcell =>
    hready cell (by simp [needs, partNeeds, hcell])
  have hsteps : ∀ step ∈ p.container.transformations, group step := fun step hstep =>
    hready step (by simp [needs, partNeeds, hstep])
  rw [composed_eq_placedBy, composed_eq_placedBy, h.carried_eq hparent,
    h.placedBy_eq hs hgroup hcells,
    List.foldl_ext t.moved s.moved _ fun m step hstep => h.moved_eq hs hgroup (hsteps step hstep) m]

theorem contents_eq {p : Part} (hready : Ready group id (.part p)) :
    t.contents p = s.contents p := by
  have horiginX := hready (p.cell .originX) (by simp [needs, partNeeds])
  have horiginY := hready (p.cell .originY) (by simp [needs, partNeeds])
  rw [contents_eq_contentBy, contents_eq_contentBy, h.composed_eq hs hgroup hready,
    h.contentBy_eq hs hgroup horiginX horiginY]

theorem solved_eq {p : PinnedPart} (hready : Ready group id (.pinnedPart p)) :
    t.solved p = s.solved p := by
  have hpins : ∀ cell ∈ p.pinCells.flatMap PinCells.toList, group cell := fun cell hcell =>
    hready cell (List.mem_append_left _ (List.mem_append_left _ (List.mem_map_of_mem hcell)))
  have hsizes : ∀ d, group (p.sizeCell d) := fun d =>
    hready _ (by cases d <;> simp [needs, pinnedPartNeeds])
  have hsteps : ∀ step ∈ p.container.transformations, group step := fun step hstep =>
    hready step (by simp [needs, pinnedPartNeeds, hstep])
  rw [solved_eq_solvedBy, solved_eq_solvedBy,
    h.solvedBy_eq hs hgroup hpins (hsizes .width) (hsizes .height),
    List.foldl_ext t.moved s.moved _ fun m step hstep => h.moved_eq hs hgroup (hsteps step hstep) m]

include hw in
theorem pinPosition?_eq {p : Pin} (hn : w.node id = .ok (.pin p))
    (hready : Ready group id (.pin p)) : t.pinPosition? id = s.pinPosition? id := by
  obtain ⟨n₁, hn₁, hwiring₁⟩ := node_of_wiring hs hn
  obtain ⟨n₂, hn₂, hwiring₂⟩ := node_of_wiring h.wiring hn₁
  obtain ⟨display₁, rfl⟩ := Node.eq_pin_of_wiring hwiring₁
  obtain ⟨display₂, rfl⟩ := Node.eq_pin_of_wiring (hwiring₂.trans hwiring₁)
  have hcoordinate : ∀ axis,
      t.slotValue (p.coordinates axis) = s.slotValue (p.coordinates axis) := by
    refine fun axis => h.slotValue_eq hs hgroup (hready.slot _ ?_)
    cases axis <;> simp [needs]
  cases hparent : p.parent with
  | none => rw [pinPosition?_of_detached hn₁ hparent, pinPosition?_of_detached hn₂ hparent]
  | some parent =>
      have hmem := hready.slot (some parent) (by simp [needs, hparent])
      obtain ⟨k, hk⟩ := node_of_lt_count
        (count_eq_of_wiring hs ▸ HasKind.lt_count ((hw.fits id _ hn).1 parent hparent))
      obtain ⟨k', hk', -, hplacement⟩ :=
        placement?_of_container? h.wiring (h.containers parent (hmem parent rfl)) hk
      rw [pinPosition?_of_pin hn₁ hparent hk, pinPosition?_of_pin hn₂ hparent hk', hplacement,
        hcoordinate, hcoordinate]

include hw in
theorem value_sizeCellOf_eq {n : Node} (hready : Ready group id n) (d : Dimension) :
    t.value (sizeCellOf n d) = s.value (sizeCellOf n d) := by
  have hshared : ∀ cell, cell < 3 → t.value cell = s.value cell := by
    intro cell hcell
    obtain ⟨v, hv⟩ := hw.shared cell hcell
    exact h.values cell _ hv (by simp [Node.writer?])
  cases n with
  | part p =>
      have hcell : ∀ a : PartAttribute, .ofOption (p.attributes a) ∈ needs [] id (.part p) →
          t.value (p.cell a) = s.value (p.cell a) := by
        intro a ha
        unfold Part.cell
        cases hslot : p.attributes a with
        | none => exact hshared _ (sharedCell_lt a)
        | some cell => exact h.value_eq hs hgroup (hready.slot _ ha cell hslot)
      cases d
      · exact hcell .width (by simp [needs, partNeeds])
      · exact hcell .height (by simp [needs, partNeeds])
  | pinnedPart p =>
      refine h.value_eq hs hgroup (hready _ ?_)
      cases d <;> simp [needs, pinnedPartNeeds, sizeCellOf, PinnedPart.sizeCell]
  | _ => exact hshared sizeCell (by decide)

include hw in
theorem number_sizeCellOf_eq {n : Node} (hready : Ready group id n) (d : Dimension) :
    t.number (sizeCellOf n d) = s.number (sizeCellOf n d) :=
  Scene.number_eq (h.value_sizeCellOf_eq hw hs hgroup hready d)

include hw in
/-- The width and the height of a part of the group stay what they are. -/
theorem partSize_eq {p : Part} (hready : Ready group id (.part p)) {a : PartAttribute}
    (ha : a = .width ∨ a = .height) : t.partNumber p a = s.partNumber p a := by
  rw [partNumber_eq, partNumber_eq]
  rcases ha with rfl | rfl
  · exact h.number_sizeCellOf_eq hw hs hgroup hready .width
  · exact h.number_sizeCellOf_eq hw hs hgroup hready .height

include hw in
theorem extent_eq {p : PinnedPart} (hready : Ready group id (.pinnedPart p)) (d : Dimension) :
    t.extent p d = s.extent p d := by
  rw [Scene.extent_eq, Scene.extent_eq]
  exact h.number_sizeCellOf_eq hw hs hgroup hready d

theorem coordinate_eq {p : Pin} (hready : Ready group id (.pin p)) (axis : Axis) :
    t.slotNumber (p.coordinates axis) = s.slotNumber (p.coordinates axis) := by
  refine h.slotNumber_eq hs hgroup (hready.slot _ ?_)
  cases axis <;> simp [needs]

include hw in
theorem readbackValue_eq {n : Node} (hn : w.node id = .ok n) (hready : Ready group id n)
    (hcontainer : t.container? id = s.container? id) (r : Readback) :
    t.readbackValue id r = s.readbackValue id r := by
  obtain ⟨n₁, hn₁, hwiring₁⟩ := node_of_wiring hs hn
  obtain ⟨n₂, hn₂, hwiring₂, hplacement⟩ :=
    placement?_of_container? h.wiring hcontainer hn₁
  have hsize : ∀ d, t.value (sizeCellOf n₂ d) = s.value (sizeCellOf n₁ d) := by
    intro d
    rw [sizeCellOf_of_wiring hwiring₂, sizeCellOf_of_wiring hwiring₁]
    exact h.value_sizeCellOf_eq hw hs hgroup hready d
  unfold readbackValue
  rw [hn₁, hn₂, ok_bind, ok_bind, hplacement]
  cases n₁.placement? with
  | none => rfl
  | some m => cases r <;> simp only [hsize]

omit hs hgroup in
/-- The value of a read-back of a node of the group. -/
theorem value_readback_eq {ι : Type} {slots : Slots ι} (hslots : w.SlotsShow id slots)
    (hid : group id) {i : ι} {cell : NodeId} (hcell : slots i = some cell) :
    t.value cell = s.value cell := by
  obtain ⟨v, hv⟩ := hslots.cell i cell hcell
  exact h.values cell _ hv (by simpa [Node.writer?] using hid)

theorem chainNumber_eq {c : Calculated} (hbase : group c.base)
    (hlinks : ∀ link ∈ c.modifiers, group link) : t.chainNumber c = s.chainNumber c := by
  unfold chainNumber
  rw [h.number_eq hs hgroup hbase]
  exact List.foldl_ext _ _ _ fun running link hlink =>
    h.link_eq hs hgroup (hlinks link hlink) running

include hw in
/-- Where a node of the group is shown to be does not change, nor what shows it. -/
theorem showsPlace (hid : group id) {n : Node} (hn : w.node id = .ok n)
    (hshows : s.ShowsPlace n) : t.ShowsPlace n := by
  have hfits := hw.fits id n hn
  have hready := hgroup id n hid hn
  cases n with
  | part p =>
      intro r cell hcell
      rw [h.value_readback_eq hfits.2.2 hid hcell, h.contents_eq hs hgroup hready,
        h.partSize_eq hw hs hgroup hready (.inl rfl), h.partSize_eq hw hs hgroup hready (.inr rfl)]
      exact hshows r cell hcell
  | pin p =>
      intro parent m hparent hm axis cell hcell
      have hparent' := hready.slot p.parent (by simp [needs]) parent hparent
      obtain ⟨k, hk, -⟩ := HasKind.mono (hfits.1 parent hparent) (.of_wiring hs)
      rw [h.placement_eq hparent' hk] at hm
      rw [h.value_readback_eq hfits.2.2 hid hcell, h.coordinate_eq hs hgroup hready,
        h.coordinate_eq hs hgroup hready]
      exact hshows parent m hparent hm axis cell hcell
  | pinnedPart p =>
      intro r cell hcell
      rw [h.value_readback_eq hfits.2.2.2 hid hcell, h.solved_eq hs hgroup hready,
        h.extent_eq hw hs hgroup hready, h.extent_eq hw hs hgroup hready]
      exact hshows r cell hcell
  | _ => trivial

include hw in
theorem readsBack {owner cell : NodeId} (howner : group owner) {n : Node}
    (hn : w.node owner = .ok n) (hreads : s.ReadsBack owner cell) : t.ReadsBack owner cell := by
  obtain ⟨n₁, hn₁, hshows, hplace⟩ := hreads
  obtain ⟨n', hn', hwiring⟩ := node_of_wiring hs hn
  obtain rfl := node_unique hn₁ hn'
  obtain ⟨n₂, hn₂, hwiring'⟩ := node_of_wiring (h.wiring.trans hs) hn
  have hplace' := h.showsPlace hw hs hgroup howner hn (showsPlace_of_wiring hwiring.symm hplace)
  refine ⟨n₂, hn₂, ?_, showsPlace_of_wiring hwiring' hplace'⟩
  rw [Node.shows_of_wiring hwiring', ← Node.shows_of_wiring hwiring]
  exact hshows

include hw in
/-- Steps that leave a group alone leave its equations satisfied. -/
theorem satisfied (hid : group id) {n : Node} (hn : w.node id = .ok n)
    (hsatisfied : s.Satisfied id n) : t.Satisfied id n := by
  have hfits := hw.fits id n hn
  have hready := hgroup id n hid hn
  have hplace := h.showsPlace hw hs hgroup hid hn hsatisfied.showsPlace
  obtain ⟨n', hn', -⟩ := node_of_wiring hs hn
  cases n with
  | scalar v requirement =>
      cases requirement with
      | none => trivial
      | some owner =>
          obtain ⟨k, hk, -⟩ := hfits
          have howner := hready owner (by simp [needs, Requirement.ofOption])
          exact h.readsBack hw hs hgroup howner hk hsatisfied
  | input v index => trivial
  | transformation step => trivial
  | calculated c =>
      intro hmodifiers
      obtain ⟨hbase, hlinks⟩ := hgroup.chain hfits.2 (hready.tail hmodifiers)
      rw [h.chainNumber_eq hs hgroup hbase hlinks, h.value_eq hs hgroup hid]
      exact hsatisfied hmodifiers
  | modified m =>
      have htarget := h.number_eq hs hgroup (hready m.target (by simp [needs]))
      have hslot := hready.slot m.operand (by simp [needs])
      show t.value id = _
      rw [htarget, h.slotNumber_eq hs hgroup hslot, h.value_eq hs hgroup hid]
      exact hsatisfied
  | part p =>
      obtain ⟨hworking, hplacement, -⟩ := hsatisfied
      refine ⟨?_, ?_, hplace⟩
      · rw [h.working_eq hid, h.composed_eq hs hgroup hready, hworking]
      · rw [h.placement_eq hid hn', h.contents_eq hs hgroup hready, hplacement]
  | pin p => exact hplace
  | pinnedPart p =>
      refine ⟨?_, hplace⟩
      rw [h.working_eq hid, h.solved_eq hs hgroup hready, hsatisfied.1]

end Keeps

end Scene

end SceneGraph
