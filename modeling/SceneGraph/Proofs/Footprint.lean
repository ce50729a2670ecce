import SceneGraph.Proofs.WellFormed

/-!
What a step of a replay reads and writes.

Every step of a compiled list belongs to a node.  It writes the numbers that its node writes,
each number being written by one node at most, and the matrices of its node or, for an extra
motion, of the container that the motion belongs to.  In a well-formed scene no step fails.
-/

namespace SceneGraph

theorem bind_succeeds {ε α β : Type} {x : Except ε α} {f : α → Except ε β} {a : α}
    (ha : x = .ok a) (hf : ∃ b, f a = .ok b) : ∃ b, (x >>= f) = .ok b := by
  rw [ha]
  exact hf

/-- A loop succeeds if every round does that begins where a round can begin. -/
theorem foldlM_succeeds {ε α β : Type} {P : β → Prop} {f : β → α → Except ε β} {l : List α}
    (hf : ∀ b, ∀ a ∈ l, P b → ∃ c, f b a = .ok c ∧ P c) {b : β} (hb : P b) :
    ∃ c, l.foldlM f b = .ok c ∧ P c := by
  induction l generalizing b with
  | nil => exact ⟨b, rfl, hb⟩
  | cons a l ih =>
      obtain ⟨c, hc, hP⟩ := hf b a List.mem_cons_self hb
      obtain ⟨d, hd, hPd⟩ := ih (fun b a' ha' => hf b a' (List.mem_cons_of_mem a ha')) hP
      refine ⟨d, ?_, hPd⟩
      rw [List.foldlM_cons, hc]
      exact hd

theorem mapM_succeeds {ε α β : Type} {f : α → Except ε β} {l : List α}
    (hf : ∀ a ∈ l, ∃ b, f a = .ok b) : ∃ bs, l.mapM f = .ok bs := by
  induction l with
  | nil => exact ⟨[], rfl⟩
  | cons a l ih =>
      obtain ⟨b, hb⟩ := hf a List.mem_cons_self
      obtain ⟨bs, hbs⟩ := ih fun a' ha' => hf a' (List.mem_cons_of_mem a ha')
      rw [List.mapM_cons]
      exact bind_succeeds hb (bind_succeeds hbs ⟨_, rfl⟩)

/-- The node that writes the number of a node during a replay, if there is one. -/
def Node.writer? (id : NodeId) : Node → Option NodeId
  | .scalar _ requirement => requirement
  | .calculated _ | .modified _ => some id
  | _ => none

/-- The node has nothing to write during a replay: a value without a chain, or a pin that is
nowhere. -/
def Node.IsIdle : Node → Prop
  | .calculated c => c.modifiers = []
  | .pin p => p.parent = none
  | _ => False

/-- The nodes that a step names. -/
def Step.names : Step → List NodeId
  | .modify dest _ target operand => [dest, target] ++ operand.toList
  | .assign dest source => [dest, source]
  | .compose part cells => part :: cells.toList
  | .transform owner _ amount => [owner, amount]
  | .concatParent part parent => [part, parent]
  | .placeContent part originX originY => [part, originX, originY]
  | .solvePins part pins width height => part :: (pins.flatMap PinCells.toList ++ [width, height])
  | .showPart id | .showPin id | .showPinnedPart id => [id]

namespace Scene

variable {w s t u : Scene} {id : NodeId}

/-- The scene has an idle node in a certain place. -/
def Idle (w : Scene) (id : NodeId) : Prop :=
  ∃ n, w.node id = .ok n ∧ n.IsIdle

theorem not_idle_of_node {n : Node} (hn : w.node id = .ok n) (h : ¬ n.IsIdle) : ¬ w.Idle id := by
  rintro ⟨n', hn', hidle⟩
  obtain rfl := node_unique hn hn'
  exact h hidle

/-- What shows its matrix is not idle. -/
theorem not_idle_of_readbacks {n : Node} (hn : w.node id = .ok n) {slots : Slots Readback}
    (hslots : n.readbacks? = some slots) : ¬ w.Idle id :=
  not_idle_of_node hn <| by
    cases n with
    | calculated | pin => cases hslots
    | _ => exact fun h => h

/-- The content matrix of a container. -/
def content? (s : Scene) (id : NodeId) : Except OutOfRange (Option (Matrix Float)) := do
  return (← s.node id).container?.map Container.content

/-- The container that a node is. -/
def container? (s : Scene) (id : NodeId) : Except OutOfRange (Option Container) := do
  return (← s.node id).container?

/-- A node is an extra motion of a container. -/
def Moves (w : Scene) (step owner : NodeId) : Prop :=
  ∃ motion amount, w.node step = .ok (.transformation ⟨owner, motion, amount⟩)

/-- The steps that belong to a node. -/
inductive Emits (w : Scene) : NodeId → Step → Prop
  | assign {x c tail} (hx : w.node x = .ok (.calculated c))
      (htail : c.modifiers.getLast? = some tail) : Emits w x (.assign x tail)
  | modify {x m} (hx : w.node x = .ok (.modified m)) :
      Emits w x (.modify x m.op m.target m.operand)
  | transform {x t} (hx : w.node x = .ok (.transformation t)) :
      Emits w x (.transform t.owner t.motion t.amount)
  | compose {x p} (hx : w.node x = .ok (.part p)) : Emits w x (.compose x p.placementCells)
  | concatParent {x p parent} (hx : w.node x = .ok (.part p))
      (hparent : p.container.parent = some parent) : Emits w x (.concatParent x parent)
  | placeContent {x p} (hx : w.node x = .ok (.part p)) :
      Emits w x (.placeContent x (p.cell .originX) (p.cell .originY))
  | showPart {x p} (hx : w.node x = .ok (.part p)) : Emits w x (.showPart x)
  | showPin {x p} (hx : w.node x = .ok (.pin p)) : Emits w x (.showPin x)
  | solvePins {x p} (hx : w.node x = .ok (.pinnedPart p)) :
      Emits w x (.solvePins x p.pinCells (p.sizeCell .width) (p.sizeCell .height))
  | showPinnedPart {x p} (hx : w.node x = .ok (.pinnedPart p)) : Emits w x (.showPinnedPart x)

theorem requirement_ofOption_ne_command {ν κ : Type} {slot : Option ν} {c : κ} :
    (Requirement.ofOption slot : Requirement ν κ) ≠ .command c := by
  cases slot <;> simp [Requirement.ofOption]

/-- A command among the requirements of a node is a step of it. -/
theorem emits_of_needs {x : NodeId} {n : Node} (hn : w.node x = .ok n) {c : Command}
    (hc : .command c ∈ needs [] x n) : ∃ step, c = .step step ∧ Emits w x step := by
  cases n with
  | scalar v requirement =>
      have hc := List.mem_singleton.mp hc
      exact absurd hc.symm requirement_ofOption_ne_command
  | input v index => cases hc
  | calculated c =>
      simp [needs] at hc
  | modified m =>
      simp [needs, requirement_ofOption_ne_command.symm] at hc
  | transformation t => simp [needs] at hc
  | part p =>
      simp [needs, partNeeds, emit, requirement_ofOption_ne_command.symm] at hc
      rcases hc with rfl | ⟨parent, hparent, rfl⟩ | rfl
      · exact ⟨_, rfl, .compose hn⟩
      · exact ⟨_, rfl, .concatParent hn hparent⟩
      · exact ⟨_, rfl, .placeContent hn⟩
  | pin p => simp [needs, requirement_ofOption_ne_command.symm] at hc
  | pinnedPart p =>
      simp [needs, pinnedPartNeeds, emit] at hc
      obtain rfl := hc
      exact ⟨_, rfl, .solvePins hn⟩

/-- A reading that a change leaves alone. -/
theorem read_update {α : Type} {f : Node → Node} {g : Node → α}
    (h : s.update id f = .ok t) (hg : ∀ n, g (f n) = g n) (other : NodeId) :
    (t.node other >>= fun n => pure (g n)) = s.node other >>= fun n => pure (g n) := by
  by_cases heq : other = id
  · subst heq
    rw [node_update_self h]
    cases hn : s.node other with
    | error e => rfl
    | ok n => exact congrArg Except.ok (hg n)
  · rw [node_update_of_ne h heq]

theorem value_update_of_ne {f : Node → Node} (h : s.update id f = .ok t) {other : NodeId}
    (hne : other ≠ id) : t.value other = s.value other := by
  unfold value
  rw [node_update_of_ne h hne]

theorem container?_update_of_ne {f : Node → Node} (h : s.update id f = .ok t) {other : NodeId}
    (hne : other ≠ id) : t.container? other = s.container? other := by
  unfold container?
  rw [node_update_of_ne h hne]

theorem container?_setValue {v : Float} (h : s.setValue id v = .ok t) (other : NodeId) :
    t.container? other = s.container? other :=
  read_update h (fun n => by cases n <;> rfl) other

theorem content?_setValue {v : Float} (h : s.setValue id v = .ok t) (other : NodeId) :
    t.content? other = s.content? other :=
  read_update h (fun n => by cases n <;> rfl) other

theorem content?_mapContainer {f : Container → Container}
    (h : s.update id (Node.mapContainer f) = .ok t) (hf : ∀ c, (f c).content = c.content)
    (other : NodeId) : t.content? other = s.content? other :=
  read_update h (fun n => by cases n <;> simp [Node.mapContainer, Node.container?, hf]) other

theorem content?_update_of_ne {f : Node → Node} (h : s.update id f = .ok t) {other : NodeId}
    (hne : other ≠ id) : t.content? other = s.content? other := by
  unfold content?
  rw [node_update_of_ne h hne]

theorem value_mapContainer {f : Container → Container}
    (h : s.update id (Node.mapContainer f) = .ok t) (other : NodeId) :
    t.value other = s.value other :=
  read_update h (fun n => by cases n <;> rfl) other

/-- What some nodes may change: the numbers that they write, unless they are idle, and the
matrices of the nodes themselves and of the containers that they move.  The content matrices
that change are those of parts among the nodes. -/
structure Touches (w : Scene) (acting : NodeId → Prop) (s t : Scene) : Prop where
  wiring : t.wiring = s.wiring
  values : ∀ id n, w.node id = .ok n → (∀ x, n.writer? id = some x → ¬ acting x ∨ w.Idle x) →
    t.value id = s.value id
  containers : ∀ id, ¬ acting id → (∀ x, acting x → ¬ w.Moves x id) →
    t.container? id = s.container? id
  contents : ∀ id, (acting id → ∀ p, w.node id ≠ .ok (.part p)) → t.content? id = s.content? id

namespace Touches

variable {x : NodeId} {acting acting' : NodeId → Prop}

theorem refl (w : Scene) (acting : NodeId → Prop) (s : Scene) : Touches w acting s s :=
  ⟨rfl, fun _ _ _ _ => rfl, fun _ _ _ => rfl, fun _ _ => rfl⟩

theorem trans (hst : Touches w acting s t) (htu : Touches w acting t u) :
    Touches w acting s u :=
  ⟨htu.wiring.trans hst.wiring,
    fun id n hn hid => (htu.values id n hn hid).trans (hst.values id n hn hid),
    fun id hid hmoves => (htu.containers id hid hmoves).trans (hst.containers id hid hmoves),
    fun id hid => (htu.contents id hid).trans (hst.contents id hid)⟩

theorem mono (h : Touches w acting s t) (hacting : ∀ x, acting x → acting' x) :
    Touches w acting' s t :=
  ⟨h.wiring,
    fun id n hn hid => h.values id n hn fun x hx =>
      (hid x hx).imp_left fun hx hact => hx (hacting x hact),
    fun id hid hmoves => h.containers id (fun hact => hid (hacting id hact))
      fun x hact => hmoves x (hacting x hact),
    fun id hid => h.contents id fun hact => hid (hacting id hact)⟩

theorem setValue {v : Float} (h : s.setValue id v = .ok t) {n : Node} (hn : w.node id = .ok n)
    (hwriter : n.writer? id = some x) (hidle : ¬ w.Idle x) : Touches w (· = x) s t := by
  refine ⟨(s.setValue_rewrites id v t h).alike.wiring, fun other n' hn' hother => ?_,
    fun other _ _ => container?_setValue h other, fun other _ => content?_setValue h other⟩
  refine value_update_of_ne h fun heq => ?_
  subst heq
  obtain rfl := node_unique hn hn'
  exact (hother x hwriter).elim (fun hx => hx rfl) hidle

theorem mapContainer {f : Container → Container}
    (h : s.update id (Node.mapContainer f) = .ok t) (hf : ∀ c, (f c).wiring = c.wiring)
    (hid : id = x ∨ w.Moves x id)
    (hcontent : (∀ c, (f c).content = c.content) ∨ id = x ∧ ∃ p, w.node id = .ok (.part p)) :
    Touches w (· = x) s t := by
  refine ⟨(Writes.mapContainer h hf).alike.wiring, fun other _ _ _ => value_mapContainer h other,
    fun other hother hmoves => container?_update_of_ne h ?_, fun other hother => ?_⟩
  · rintro rfl
    exact hid.elim hother (hmoves x rfl)
  · rcases hcontent with hcontent | ⟨rfl, p, hp⟩
    · exact content?_mapContainer h hcontent other
    · refine content?_update_of_ne h ?_
      rintro rfl
      exact hother rfl p hp

end Touches

/-- A scene with the same wiring has the same slots and cells. -/
theorem readbacks?_of_wiring {n n' : Node} (h : n'.wiring = n.wiring) :
    n'.readbacks? = n.readbacks? := by
  have hread : ∀ n : Node, n.wiring.readbacks? = n.readbacks? := fun n => by cases n <;> rfl
  rw [← hread n', h, hread]

theorem sizeCellOf_of_wiring {n n' : Node} (h : n'.wiring = n.wiring) (d : Dimension) :
    sizeCellOf n' d = sizeCellOf n d := by
  have hread : ∀ n : Node, sizeCellOf n.wiring d = sizeCellOf n d := fun n => by
    cases n <;> cases d <;> rfl
  rw [← hread n', h, hread]

theorem refreshReadback_touches {owner : NodeId} {slots : Slots Readback} {r : Readback}
    (hslots : w.SlotsShow owner slots) (hidle : ¬ w.Idle owner)
    (h : refreshReadback owner slots s r = .ok t) : Touches w (· = owner) s t := by
  unfold refreshReadback at h
  cases hcell : slots r with
  | none =>
      rw [hcell] at h
      cases h
      exact .refl w _ s
  | some cell =>
      rw [hcell] at h
      obtain ⟨v, -, hset⟩ := except_bind_eq_ok.mp h
      obtain ⟨v', hv'⟩ := hslots.cell r cell hcell
      exact .setValue hset hv' rfl hidle

theorem refreshReadbacks_touches {owner : NodeId} {n : Node} (hs : s.wiring = w.wiring)
    (hn : w.node owner = .ok n)
    (hslots : ∀ slots, n.readbacks? = some slots → w.SlotsShow owner slots)
    (h : s.refreshReadbacks owner = .ok t) : Touches w (· = owner) s t := by
  obtain ⟨n', hn', hrest⟩ := except_bind_eq_ok.mp h
  obtain ⟨n'', hn'', hwiring⟩ := node_of_wiring hs hn
  obtain rfl := node_unique hn' hn''
  rw [readbacks?_of_wiring hwiring] at hrest
  cases hreadbacks : n.readbacks? with
  | none =>
      rw [hreadbacks] at hrest
      cases hrest
      exact .refl w _ s
  | some slots =>
      rw [hreadbacks] at hrest
      have hidle := not_idle_of_readbacks hn hreadbacks
      refine foldlM_related (Touches.refl w _) Touches.trans (fun {b r c} hr => ?_)
        Readback.all hrest
      exact refreshReadback_touches (hslots slots hreadbacks) hidle hr

theorem pinPosition?_of_detached {p : Pin} (hn : s.node id = .ok (.pin p))
    (hparent : p.parent = none) : s.pinPosition? id = .ok none := by
  unfold pinPosition?
  rw [hn, ok_bind]
  simp only [hparent]
  rfl

theorem setSlotValue_touches {owner : NodeId} {slot : Option NodeId} {v : Float}
    (hslot : ∀ cell, slot = some cell → ∃ v, w.node cell = .ok (.scalar v (some owner)))
    (hidle : ¬ w.Idle owner) (h : s.setSlotValue slot v = .ok t) :
    Touches w (· = owner) s t := by
  cases slot with
  | none =>
      cases h
      exact .refl w _ s
  | some cell =>
      obtain ⟨v', hv'⟩ := hslot cell rfl
      exact .setValue h hv' rfl hidle

theorem refreshPin_touches {owner : NodeId} {p : Pin} (hs : s.wiring = w.wiring)
    (hn : w.node owner = .ok (.pin p)) (hslots : w.SlotsShow owner p.readbacks)
    (h : s.refreshPin owner = .ok t) : Touches w (· = owner) s t := by
  obtain ⟨position, hposition, hrest⟩ := except_bind_eq_ok.mp h
  cases position with
  | none =>
      cases hrest
      exact .refl w _ s
  | some world =>
      obtain ⟨n', hn', hrest⟩ := except_bind_eq_ok.mp hrest
      obtain ⟨u, hu, ht⟩ := except_bind_eq_ok.mp hrest
      obtain ⟨n'', hn'', hwiring⟩ := node_of_wiring hs hn
      obtain rfl := node_unique hn' hn''
      have hslot : ∀ axis, n'.pinReadback? axis = p.readbacks axis := fun axis => by
        rw [← Node.pinReadback?_wiring, hwiring]
        rfl
      rw [hslot] at hu ht
      have hidle : ¬ w.Idle owner := not_idle_of_node hn fun hnowhere => by
        obtain ⟨display, rfl⟩ := Node.eq_pin_of_wiring hwiring
        rw [pinPosition?_of_detached hn' hnowhere] at hposition
        cases hposition
      exact (setSlotValue_touches (hslots.cell .x) hidle hu).trans
        (setSlotValue_touches (hslots.cell .y) hidle ht)

/-- A step touches only what its node may change. -/
theorem Emits.touches {x : NodeId} {step : Step} (hw : w.WellFormed) (hs : s.wiring = w.wiring)
    (hstep : Emits w x step) (h : step.change s = .ok t) : Touches w (· = x) s t := by
  cases hstep with
  | assign hx htail =>
      obtain ⟨v, -, hset⟩ := except_bind_eq_ok.mp h
      refine .setValue hset hx rfl (not_idle_of_node hx fun hnone => ?_)
      rw [Node.IsIdle.eq_def] at hnone
      simp [hnone] at htail
  | modify hx =>
      obtain ⟨running, -, h⟩ := except_bind_eq_ok.mp h
      obtain ⟨operand, -, hset⟩ := except_bind_eq_ok.mp h
      exact .setValue hset hx rfl (not_idle_of_node hx id)
  | transform hx =>
      obtain ⟨amount, -, hmap⟩ := except_bind_eq_ok.mp h
      exact .mapContainer hmap (fun _ => rfl) (Or.inr ⟨_, _, hx⟩) (Or.inl fun _ => rfl)
  | compose hx =>
      obtain ⟨_, -, h⟩ := except_bind_eq_ok.mp h
      obtain ⟨_, -, h⟩ := except_bind_eq_ok.mp h
      obtain ⟨_, -, h⟩ := except_bind_eq_ok.mp h
      obtain ⟨_, -, h⟩ := except_bind_eq_ok.mp h
      obtain ⟨_, -, hmap⟩ := except_bind_eq_ok.mp h
      exact .mapContainer hmap (fun _ => rfl) (Or.inl rfl) (Or.inl fun _ => rfl)
  | concatParent hx hparent =>
      obtain ⟨n, -, h⟩ := except_bind_eq_ok.mp h
      cases hc : n.container? with
      | none =>
          rw [hc] at h
          cases h
          exact .refl w _ s
      | some c =>
          rw [hc] at h
          exact .mapContainer h (fun _ => rfl) (Or.inl rfl) (Or.inl fun _ => rfl)
  | placeContent hx =>
      obtain ⟨_, -, h⟩ := except_bind_eq_ok.mp h
      obtain ⟨_, -, hmap⟩ := except_bind_eq_ok.mp h
      exact .mapContainer hmap (fun _ => rfl) (Or.inl rfl) (Or.inr ⟨rfl, _, hx⟩)
  | solvePins hx =>
      obtain ⟨_, -, h⟩ := except_bind_eq_ok.mp h
      obtain ⟨_, -, h⟩ := except_bind_eq_ok.mp h
      obtain ⟨_, -, hmap⟩ := except_bind_eq_ok.mp h
      exact .mapContainer hmap (fun _ => rfl) (Or.inl rfl) (Or.inl fun _ => rfl)
  | showPart hx =>
      have hfits := hw.fits x _ hx
      refine refreshReadbacks_touches hs hx (fun slots hslots => ?_) h
      cases hslots
      exact hfits.2.2
  | showPin hx => exact refreshPin_touches hs hx (hw.fits x _ hx).2.2 h
  | showPinnedPart hx =>
      have hfits := hw.fits x _ hx
      refine refreshReadbacks_touches hs hx (fun slots hslots => ?_) h
      cases hslots
      exact hfits.2.2.2

section Success

/-- Reading a node that the scene has. -/
theorem value_of_lt_count (h : id < s.count) : ∃ v, s.value id = .ok v := by
  obtain ⟨n, hn⟩ := node_of_lt_count h
  unfold value
  rw [hn]
  exact ⟨_, rfl⟩

theorem lt_count_of_update {f : Node → Node} (h : s.update id f = .ok t) : id < s.count := by
  unfold update at h
  split at h
  · assumption
  · cases h

theorem update_of_lt_count (h : id < s.count) (f : Node → Node) :
    ∃ t, s.update id f = .ok t := by
  unfold update
  rw [if_pos h]
  exact ⟨_, rfl⟩

theorem slotValue_of_lt_count {slot : Option NodeId}
    (h : ∀ cell, slot = some cell → cell < s.count) : ∃ v, s.slotValue slot = .ok v := by
  cases slot with
  | none => exact ⟨0.0, rfl⟩
  | some cell => exact value_of_lt_count (h cell rfl)

/-- A cell to read for a slot: a calculated value of the slot's own, or a shared cell. -/
def IsCell (w : Scene) (id : NodeId) : Prop :=
  w.IsCalculated id ∨ id < 3

theorem IsCell.isNumber (h : w.IsCell id) (hw : w.WellFormed) : w.IsNumber id := by
  rcases h with h | h
  · exact IsCalculated.isNumber h
  · obtain ⟨v, hv⟩ := hw.shared id h
    exact ⟨_, hv, trivial⟩

theorem isCell_getD {slot : Option NodeId} {shared : NodeId}
    (hslot : ∀ cell, slot = some cell → w.IsCalculated cell) (hshared : shared < 3) :
    w.IsCell (slot.getD shared) := by
  cases slot with
  | none => exact .inr hshared
  | some cell => exact .inl (hslot cell rfl)

theorem sharedCell_lt (a : PartAttribute) : a.sharedCell < 3 := by
  cases a <;> decide

section

variable (hw : w.WellFormed)
include hw

theorem cell_isCell {p : Part} (hx : w.node id = .ok (.part p)) (a : PartAttribute) :
    w.IsCell (p.cell a) :=
  isCell_getD ((hw.fits id _ hx).2.1 a) (sharedCell_lt a)

theorem sizeCell_isCell {p : PinnedPart} (hx : w.node id = .ok (.pinnedPart p))
    (d : Dimension) : w.IsCell (p.sizeCell d) :=
  isCell_getD ((hw.fits id _ hx).2.1 d) (by decide)

theorem pinCells_isCell {p : PinnedPart} (hx : w.node id = .ok (.pinnedPart p)) {c : PinCells}
    (hc : c ∈ p.pinCells) : ∀ cell ∈ c.toList, w.IsCell cell := by
  obtain ⟨slot, -, hslot⟩ := List.mem_filterMap.mp hc
  obtain ⟨a, ha, hcells⟩ := Option.bind_eq_some_iff.mp hslot
  have hfits := (hw.fits id _ hx).2.2.1 slot a ha
  have htarget : ∀ axis, w.IsCell ((a.target axis).getD zeroCell) := fun axis =>
    isCell_getD (hfits.target axis) (by decide)
  have hc : c = ⟨a.originX, a.originY, (a.target .x).getD zeroCell,
      (a.target .y).getD zeroCell⟩ := by
    unfold Attachment.cells? at hcells
    split at hcells
    · cases hcells
    · exact (Option.some.inj hcells).symm
  subst hc
  intro cell hcell
  simp only [PinCells.toList, List.mem_cons, List.not_mem_nil, or_false] at hcell
  rcases hcell with rfl | rfl | rfl | rfl
  · exact .inl hfits.originX
  · exact .inl hfits.originY
  · exact htarget .x
  · exact htarget .y

theorem cell_isNumber {p : Part} (hx : w.node id = .ok (.part p)) (a : PartAttribute) :
    w.IsNumber (p.cell a) :=
  (cell_isCell hw hx a).isNumber hw

theorem sizeCell_isNumber {p : PinnedPart} (hx : w.node id = .ok (.pinnedPart p))
    (d : Dimension) : w.IsNumber (p.sizeCell d) :=
  (sizeCell_isCell hw hx d).isNumber hw

theorem sizeCellOf_isNumber {n : Node} (hx : w.node id = .ok n) (d : Dimension) :
    w.IsNumber (sizeCellOf n d) := by
  cases n with
  | part p => cases d <;> exact cell_isNumber hw hx _
  | pinnedPart p => exact sizeCell_isNumber hw hx d
  | _ => exact IsCell.isNumber (.inr (show sizeCell < 3 by decide)) hw

/-- Every cell of a pin that takes part in the solve carries a number. -/
theorem pinCells_isNumber {p : PinnedPart} (hx : w.node id = .ok (.pinnedPart p))
    {c : PinCells} (hc : c ∈ p.pinCells) : ∀ cell ∈ c.toList, w.IsNumber cell :=
  fun cell hcell => (pinCells_isCell hw hx hc cell hcell).isNumber hw

end

theorem setSlotValue_succeeds (hs : s.wiring = w.wiring) {owner : NodeId} {slot : Option NodeId}
    (hslot : ∀ cell, slot = some cell → ∃ v, w.node cell = .ok (.scalar v (some owner)))
    (v : Float) : ∃ t, s.setSlotValue slot v = .ok t ∧ t.wiring = w.wiring := by
  cases slot with
  | none => exact ⟨s, rfl, hs⟩
  | some cell =>
      obtain ⟨v', hv'⟩ := hslot cell rfl
      have hlt : cell < s.count := count_eq_of_wiring hs ▸ lt_count_of_node hv'
      obtain ⟨t, ht⟩ := update_of_lt_count hlt (Node.setValue v)
      exact ⟨t, ht, (s.setValue_rewrites cell v t ht).alike.wiring.trans hs⟩

theorem pinPair_of_lt_count {c : PinCells} (h : ∀ cell ∈ c.toList, cell < s.count) :
    ∃ pair, s.pinPair c = .ok pair := by
  have hcell : ∀ cell ∈ c.toList, ∃ v, s.value cell = .ok v := fun cell hcell =>
    value_of_lt_count (h cell hcell)
  simp only [PinCells.toList, List.mem_cons, List.not_mem_nil, or_false, forall_eq_or_imp,
    forall_eq] at hcell
  obtain ⟨⟨ox, hox⟩, ⟨oy, hoy⟩, ⟨tx, htx⟩, ty, hty⟩ := hcell
  exact bind_succeeds hox (bind_succeeds hoy (bind_succeeds htx (bind_succeeds hty ⟨_, rfl⟩)))

variable (hw : w.WellFormed) (hs : s.wiring = w.wiring)
include hw hs

theorem readbackValue_succeeds {n : Node} (hx : w.node id = .ok n) (r : Readback) :
    ∃ v, s.readbackValue id r = .ok v := by
  obtain ⟨n', hn', hwiring⟩ := node_of_wiring hs hx
  have hsize : ∀ d, ∃ v, s.value (sizeCellOf n' d) = .ok v := by
    intro d
    refine value_of_lt_count ?_
    rw [count_eq_of_wiring hs, sizeCellOf_of_wiring hwiring]
    exact HasKind.lt_count (sizeCellOf_isNumber hw hx d)
  refine bind_succeeds hn' ?_
  cases n'.placement? with
  | none => exact ⟨_, rfl⟩
  | some m =>
      cases r with
      | width =>
          obtain ⟨v, hv⟩ := hsize .width
          exact bind_succeeds hv ⟨_, rfl⟩
      | height =>
          obtain ⟨v, hv⟩ := hsize .height
          exact bind_succeeds hv ⟨_, rfl⟩
      | _ => exact ⟨_, rfl⟩

theorem refreshReadbacks_of_lt_count (hid : id < w.count) :
    ∃ t, s.refreshReadbacks id = .ok t := by
  obtain ⟨n, hx⟩ := node_of_lt_count hid
  obtain ⟨n', hn', hwiring⟩ := node_of_wiring hs hx
  refine bind_succeeds hn' ?_
  rw [readbacks?_of_wiring hwiring]
  cases hreadbacks : n.readbacks? with
  | none => exact ⟨s, rfl⟩
  | some slots =>
      have hloop : ∀ (u : Scene) (r : Readback), u.wiring = w.wiring →
          ∃ t, refreshReadback id slots u r = .ok t ∧ t.wiring = w.wiring := by
        intro u r hu
        unfold refreshReadback
        cases hcell : slots r with
        | none => exact ⟨u, rfl, hu⟩
        | some cell =>
            obtain ⟨v, hv⟩ := readbackValue_succeeds hw hu hx r
            have hshows : n.Shows cell := .inl ⟨r, by rw [Node.readback?, hreadbacks]; exact hcell⟩
            obtain ⟨v', hv'⟩ := hw.scalar_of_shows hx hshows
            have hlt : cell < u.count := count_eq_of_wiring hu ▸ lt_count_of_node hv'
            obtain ⟨t, ht⟩ := update_of_lt_count hlt (Node.setValue v)
            refine ⟨t, ?_, (u.setValue_rewrites cell v t ht).alike.wiring.trans hu⟩
            simp only [hv]
            exact ht
      obtain ⟨t, ht, -⟩ := foldlM_succeeds (l := Readback.all) (fun u r _ => hloop u r) hs
      exact ⟨t, ht⟩

theorem pinPosition?_succeeds {p : Pin} (hx : w.node id = .ok (.pin p)) :
    ∃ position, s.pinPosition? id = .ok position := by
  obtain ⟨n', hn', hwiring⟩ := node_of_wiring hs hx
  obtain ⟨display, rfl⟩ := Node.eq_pin_of_wiring hwiring
  have hfits := hw.fits id _ hx
  have hslot : ∀ axis, ∃ v, s.slotValue (p.coordinates axis) = .ok v := fun axis =>
    slotValue_of_lt_count fun cell hcell =>
      count_eq_of_wiring hs ▸ HasKind.lt_count (hfits.2.1 axis cell hcell)
  refine bind_succeeds hn' ?_
  cases h : p.parent with
  | none => exact ⟨none, rfl⟩
  | some k =>
      obtain ⟨n, hn⟩ := node_of_lt_count
        (count_eq_of_wiring hs ▸ HasKind.lt_count (hfits.1 k h))
      refine bind_succeeds hn ?_
      cases n.placement? with
      | none => exact ⟨none, rfl⟩
      | some m =>
          obtain ⟨x, hx⟩ := hslot .x
          obtain ⟨y, hy⟩ := hslot .y
          exact bind_succeeds hx (bind_succeeds hy ⟨_, rfl⟩)

theorem pinPosition?_of_lt_count (hid : id < w.count) :
    ∃ position, s.pinPosition? id = .ok position := by
  obtain ⟨n, hx⟩ := node_of_lt_count hid
  cases n with
  | pin p => exact pinPosition?_succeeds hw hs hx
  | _ =>
      obtain ⟨n', hn', hwiring⟩ := node_of_wiring hs hx
      refine bind_succeeds hn' ?_
      cases n' with
      | pin p => cases hwiring
      | _ => exact ⟨none, rfl⟩

theorem refreshPin_of_lt_count (hid : id < w.count) : ∃ t, s.refreshPin id = .ok t := by
  obtain ⟨n, hx⟩ := node_of_lt_count hid
  obtain ⟨position, hposition⟩ := pinPosition?_of_lt_count hw hs hid
  refine bind_succeeds hposition ?_
  cases position with
  | none => exact ⟨s, rfl⟩
  | some world =>
      obtain ⟨n', hn', hwiring⟩ := node_of_wiring hs hx
      have hslot : ∀ axis cell, n'.pinReadback? axis = some cell →
          ∃ v, w.node cell = .ok (.scalar v (some id)) := by
        intro axis cell hcell
        rw [← Node.pinReadback?_wiring, hwiring, Node.pinReadback?_wiring] at hcell
        exact hw.scalar_of_shows hx (.inr ⟨axis, hcell⟩)
      refine bind_succeeds hn' ?_
      obtain ⟨u, hu, huw⟩ := setSlotValue_succeeds hs (hslot .x) world.x
      obtain ⟨t, ht, -⟩ := setSlotValue_succeeds huw (hslot .y) world.y
      exact bind_succeeds hu ⟨t, ht⟩

/-- In a well-formed scene a step can be executed if the scene has all the nodes that the step
names. -/
theorem change_of_lt_count {step : Step} (h : ∀ id ∈ step.names, id < w.count) :
    ∃ t, step.change s = .ok t := by
  have hcount := count_eq_of_wiring hs
  have hvalue : ∀ id, id ∈ step.names → ∃ v, s.value id = .ok v := fun id hid =>
    value_of_lt_count (hcount ▸ h id hid)
  have hupdate : ∀ id, id ∈ step.names → ∀ f, ∃ t, s.update id f = .ok t := fun id hid =>
    update_of_lt_count (hcount ▸ h id hid)
  cases step with
  | modify dest op target operand =>
      obtain ⟨v, hv⟩ := hvalue target (by simp [Step.names])
      obtain ⟨o, ho⟩ := slotValue_of_lt_count fun cell (hcell : operand = some cell) =>
        hcount ▸ h cell (by simp [Step.names, hcell])
      exact bind_succeeds hv (bind_succeeds ho (hupdate dest (by simp [Step.names]) _))
  | assign dest source =>
      obtain ⟨v, hv⟩ := hvalue source (by simp [Step.names])
      exact bind_succeeds hv (hupdate dest (by simp [Step.names]) _)
  | compose part cells =>
      obtain ⟨_, hx⟩ := hvalue cells.x (by simp [Step.names, PlacementCells.toList])
      obtain ⟨_, hy⟩ := hvalue cells.y (by simp [Step.names, PlacementCells.toList])
      obtain ⟨_, hscaleX⟩ := hvalue cells.scaleX (by simp [Step.names, PlacementCells.toList])
      obtain ⟨_, hscaleY⟩ := hvalue cells.scaleY (by simp [Step.names, PlacementCells.toList])
      obtain ⟨_, hrotation⟩ := hvalue cells.rotation
        (by simp [Step.names, PlacementCells.toList])
      exact bind_succeeds hx (bind_succeeds hy (bind_succeeds hscaleX (bind_succeeds hscaleY
        (bind_succeeds hrotation (hupdate part (by simp [Step.names]) _)))))
  | transform owner motion amount =>
      obtain ⟨v, hv⟩ := hvalue amount (by simp [Step.names])
      exact bind_succeeds hv (hupdate owner (by simp [Step.names]) _)
  | concatParent part parent =>
      obtain ⟨n, hn⟩ := node_of_lt_count (hcount ▸ h parent (by simp [Step.names]))
      refine bind_succeeds hn ?_
      cases n.container? with
      | none => exact ⟨s, rfl⟩
      | some c => exact hupdate part (by simp [Step.names]) _
  | placeContent part originX originY =>
      obtain ⟨_, hx⟩ := hvalue originX (by simp [Step.names])
      obtain ⟨_, hy⟩ := hvalue originY (by simp [Step.names])
      exact bind_succeeds hx (bind_succeeds hy (hupdate part (by simp [Step.names]) _))
  | solvePins part pins width height =>
      obtain ⟨_, hpins⟩ := mapM_succeeds fun c (hc : c ∈ pins) =>
        pinPair_of_lt_count fun cell hcell => hcount ▸ h cell (by
          have hmem : cell ∈ pins.flatMap PinCells.toList := List.mem_flatMap.mpr ⟨c, hc, hcell⟩
          simp [Step.names, hmem])
      obtain ⟨_, hwidth⟩ := hvalue width (by simp [Step.names])
      obtain ⟨_, hheight⟩ := hvalue height (by simp [Step.names])
      exact bind_succeeds hpins (bind_succeeds hwidth (bind_succeeds hheight
        (hupdate part (by simp [Step.names]) _)))
  | showPart part | showPinnedPart part =>
      exact refreshReadbacks_of_lt_count hw hs (h part (by simp [Step.names]))
  | showPin pin => exact refreshPin_of_lt_count hw hs (h pin (by simp [Step.names]))

omit hs in
/-- The scene has all the nodes that a step of a node names. -/
theorem Emits.names_lt {x : NodeId} {step : Step} (h : Emits w x step) :
    ∀ id ∈ step.names, id < w.count := by
  cases h with
  | @assign c tail hx htail =>
      have htail : w.IsNumber tail := by
        have hnumber := isNumber_tail (hw.fits x _ hx).1 (hw.fits x _ hx).2
        rwa [Calculated.tail, htail] at hnumber
      simpa [Step.names] using ⟨lt_count_of_node hx, htail.lt_count⟩
  | @modify m hx =>
      have hfits := hw.fits x _ hx
      have hoperand : ∀ cell, m.operand = some cell → cell < w.count := fun cell hcell =>
        (hfits.2 cell hcell).lt_count
      simpa [Step.names] using ⟨lt_count_of_node hx, hfits.1.lt_count, hoperand⟩
  | transform hx =>
      obtain ⟨hamount, n, hn, -⟩ := hw.fits x _ hx
      simpa [Step.names] using ⟨lt_count_of_node hn, hamount.lt_count⟩
  | @compose p hx =>
      have hcell := fun a => (cell_isNumber hw hx a).lt_count
      simp [Step.names, PlacementCells.toList, Part.placementCells, lt_count_of_node hx, hcell]
  | concatParent hx hparent =>
      simpa [Step.names] using
        ⟨lt_count_of_node hx, (parent_isContainer hw hx hparent).lt_count⟩
  | placeContent hx =>
      have hcell := fun a => (cell_isNumber hw hx a).lt_count
      simp [Step.names, lt_count_of_node hx, hcell]
  | @solvePins p hx =>
      have hsize := fun d => (sizeCell_isNumber hw hx d).lt_count
      have hpins : ∀ c ∈ p.pinCells, ∀ cell ∈ c.toList, cell < w.count := fun c hc cell hcell =>
        (pinCells_isNumber hw hx hc cell hcell).lt_count
      simp only [Step.names, List.forall_mem_cons, List.forall_mem_append, List.mem_flatMap]
      exact ⟨lt_count_of_node hx, fun cell ⟨c, hc, hcell⟩ => hpins c hc cell hcell, hsize _,
        hsize _, nofun⟩
  | showPart hx | showPin hx | showPinnedPart hx =>
      simpa [Step.names] using lt_count_of_node hx

/-- In a well-formed scene every step of a node can be executed. -/
theorem Emits.succeeds {x : NodeId} {step : Step} (h : Emits w x step) :
    ∃ t, step.change s = .ok t :=
  change_of_lt_count hw hs (h.names_lt hw)

end Success

end Scene

end SceneGraph
