import Mathlib.Data.List.Basic
import SceneGraph.Proofs.Footprint

/-!
The equations that define what the nodes of a scene carry.

All of them are read off one scene: a value against its chain, a working matrix against the
cells and motions it is put together from, a read-back against the matrix it shows.  They say
what becomes of the unit vectors and of the origin, coefficient by coefficient and in the order
of the floating-point operations; the steps of a list do not occur in them.  Compiling and
replaying is a way to make them hold together.
-/

namespace SceneGraph

/-- One coordinate of a point. -/
def Point.along {α : Type} (p : Point α) : Axis → α
  | .x => p.x
  | .y => p.y

/-- The vector turned about the origin, by an angle in degrees. -/
def Point.turned (v : Point Float) (degrees : Float) : Point Float :=
  let angle := degrees * (3.141592653589793 / 180.0)
  ⟨angle.cos * v.x - angle.sin * v.y, angle.sin * v.x + angle.cos * v.y⟩

namespace Matrix

/-- The map that sends the two unit vectors and the origin where it is told to. -/
def ofImages (u v origin : Point Float) : Matrix Float :=
  ⟨u.x, u.y, v.x, v.y, origin.x, origin.y⟩

/-- The map followed by a linear one. -/
def followedBy (m : Matrix Float) (f : Point Float → Point Float) : Matrix Float :=
  ofImages (f ⟨m.a, m.b⟩) (f ⟨m.c, m.d⟩) (f ⟨m.x, m.y⟩)

/-- A part on its own: it is scaled, then rotated, then put to its place. -/
def placement (x y scaleX scaleY degrees : Float) : Matrix Float :=
  let unit := ofImages ⟨1, 0⟩ ⟨0, 1⟩ ⟨0, 0⟩
  let scaled := unit.followedBy fun v => ⟨v.x * scaleX, v.y * scaleY⟩
  let rotated := scaled.followedBy fun v => v.turned degrees
  { rotated with x := rotated.x + x, y := rotated.y + y }

/-- The map followed by a motion. -/
def moved (m : Matrix Float) (motion : Motion) (amount : Float) : Matrix Float :=
  match motion with
  | .translateX => { m with x := m.x + amount }
  | .translateY => { m with y := m.y + amount }
  | .scaleX => m.followedBy fun v => ⟨v.x * amount, v.y⟩
  | .scaleY => m.followedBy fun v => ⟨v.x, v.y * amount⟩
  | .rotate => m.followedBy fun v => v.turned amount

/-- The map for coordinates that have the given point in place of the origin. -/
def fromOrigin (m : Matrix Float) (originX originY : Float) : Matrix Float :=
  (ofImages ⟨1, 0⟩ ⟨0, 1⟩ ⟨0 + -originX, 0 + -originY⟩).concat m

end Matrix

/-- What a read-back shows of a matrix, and of a rectangle that it carries. -/
def Readback.reading (m : Matrix Float) (width height : Float) : Readback → Float
  | .x => m.x
  | .y => m.y
  | .scaleX => (m.a * m.a + m.b * m.b).sqrt
  | .scaleY => (m.c * m.c + m.d * m.d).sqrt
  | .rotation =>
    let degrees := m.b.atan2 m.a * (180.0 / 3.141592653589793)
    if degrees < 0.0 then degrees + 360.0 else degrees
  | .width => width * (m.a * m.a + m.b * m.b).sqrt
  | .height => height * (m.c * m.c + m.d * m.d).sqrt

/-- Half a turn is an angle of `π`. -/
theorem Angle.radiansPerDegree_eq : Angle.radiansPerDegree = 3.141592653589793 / 180.0 := by
  decide +kernel

theorem Angle.degreesPerRadian_eq : Angle.degreesPerRadian = 180.0 / 3.141592653589793 := by
  decide +kernel

theorem Scene.placed_eq_placement (x y scaleX scaleY degrees : Float) :
    Scene.placed x y scaleX scaleY degrees =
      Matrix.placement x y scaleX scaleY degrees := by
  simp only [Matrix.placement, Point.turned, ← Angle.radiansPerDegree_eq]
  rfl

theorem Motion.append_eq_moved (motion : Motion) (m : Matrix Float) (amount : Float) :
    motion.append m amount = m.moved motion amount := by
  cases motion with
  | rotate =>
      simp only [Matrix.moved, Point.turned, ← Angle.radiansPerDegree_eq]
      rfl
  | _ => rfl

theorem Scene.contentOf_eq_fromOrigin (originX originY : Float) (m : Matrix Float) :
    Scene.contentOf originX originY m = m.fromOrigin originX originY :=
  rfl

namespace Node

/-- What a link of a chain computes. -/
def link? : Node → Option (Modifier × Option NodeId)
  | .modified m => some (m.op, m.operand)
  | _ => none

def transformation? : Node → Option Transformation
  | .transformation t => some t
  | _ => none

def part? : Node → Option Part
  | .part p => some p
  | _ => none

def pin? : Node → Option Pin
  | .pin p => some p
  | _ => none

def pinnedPart? : Node → Option PinnedPart
  | .pinnedPart p => some p
  | _ => none

def calculated? : Node → Option Calculated
  | .calculated c => some c
  | _ => none

theorem part?_eq_some {n : Node} {p : Part} : n.part? = some p ↔ n = .part p := by
  cases n <;> simp [part?]

theorem pin?_eq_some {n : Node} {p : Pin} : n.pin? = some p ↔ n = .pin p := by
  cases n <;> simp [pin?]

theorem pinnedPart?_eq_some {n : Node} {p : PinnedPart} :
    n.pinnedPart? = some p ↔ n = .pinnedPart p := by
  cases n <;> simp [pinnedPart?]

theorem calculated?_eq_some {n : Node} {c : Calculated} :
    n.calculated? = some c ↔ n = .calculated c := by
  cases n <;> simp [calculated?]

theorem link?_wiring (n : Node) : n.wiring.link? = n.link? := by
  cases n <;> rfl

theorem transformation?_wiring (n : Node) : n.wiring.transformation? = n.transformation? := by
  cases n <;> rfl

end Node

namespace Scene

variable {w s t : Scene} {id : NodeId}

/-- The number of a node.  It is zero where there is no node. -/
def number (s : Scene) (id : NodeId) : Float :=
  (s.value id).toOption.getD 0.0

/-- The number in a slot, or zero while the slot is empty. -/
def slotNumber (s : Scene) (slot : Option NodeId) : Float :=
  (slot.map s.number).getD 0.0

/-- The matrix that a node's children build on. -/
def matrix (s : Scene) (id : NodeId) : Matrix Float :=
  (s.working id).toOption.getD Matrix.identity

/-- The running value after one link of a chain. -/
def link (s : Scene) (running : Float) (id : NodeId) : Float :=
  match s.nodes[id]?.bind Node.link? with
  | some (op, operand) => op.apply running (s.slotNumber operand)
  | none => running

/-- What a chain makes of its base value. -/
def chainNumber (s : Scene) (c : Calculated) : Float :=
  c.modifiers.foldl s.link (s.number c.base)

/-- The number that a part has for an attribute; it is a shared one while the attribute has no
cell. -/
def partNumber (s : Scene) (p : Part) (a : PartAttribute) : Float :=
  match p.attributes a, a with
  | some cell, _ => s.number cell
  | none, .scaleX | none, .scaleY => s.number oneCell
  | none, .width | none, .height => s.number sizeCell
  | none, _ => s.number zeroCell

/-- The extent of a pinned part; it is the shared one while none is declared. -/
def extent (s : Scene) (p : PinnedPart) (d : Dimension) : Float :=
  match p.size d with
  | some cell => s.number cell
  | none => s.number sizeCell

/-- A working matrix after an extra motion. -/
def moved (s : Scene) (m : Matrix Float) (step : NodeId) : Matrix Float :=
  match s.nodes[step]?.bind Node.transformation? with
  | some t => m.moved t.motion (s.number t.amount)
  | none => m

/-- A working matrix after that of the parent, if there is a parent. -/
def carried (s : Scene) (parent : Option NodeId) (m : Matrix Float) : Matrix Float :=
  match parent with
  | some parent => m.concat (s.matrix parent)
  | none => m

/-- The working matrix of a part: its own placement, its extra motions in the order in which
they were added, and the working matrix of its parent. -/
def composed (s : Scene) (p : Part) : Matrix Float :=
  s.carried p.container.parent (p.container.transformations.foldl s.moved
    (Matrix.placement (s.partNumber p .x) (s.partNumber p .y) (s.partNumber p .scaleX)
      (s.partNumber p .scaleY) (s.partNumber p .rotation)))

/-- The content matrix of a part: the working matrix, for a content that has its origin where
the part says. -/
def contents (s : Scene) (p : Part) : Matrix Float :=
  (s.composed p).fromOrigin (s.partNumber p .originX) (s.partNumber p .originY)

/-- What a pin asks of its part: that the one point land on the other.  It asks for nothing
before one of its target coordinates has a cell. -/
def asks? (s : Scene) (a : Attachment) : Option (PinPair Float) :=
  match a.target .x, a.target .y with
  | none, none => none
  | x, y => some ⟨⟨s.number a.originX, s.number a.originY⟩,
      ⟨s.number (x.getD zeroCell), s.number (y.getD zeroCell)⟩⟩

/-- The working matrix of a pinned part: the one that its pins ask for, and its extra motions. -/
def solved (s : Scene) (p : PinnedPart) : Matrix Float :=
  p.container.transformations.foldl s.moved
    (PinPair.solve Point.beside ⟨s.extent p .width, s.extent p .height⟩
      ([p.pins .a, p.pins .b, p.pins .c].filterMap fun pin => pin.bind s.asks?))

/-- Every read-back shows the matrix. -/
def ShowsMatrix (s : Scene) (m : Matrix Float) (width height : Float) (slots : Slots Readback) :
    Prop :=
  ∀ r cell, slots r = some cell → s.value cell = .ok (r.reading m width height)

/-- Both read-backs of a pin show where the matrix of the parent puts it, if it has a parent. -/
def ShowsPosition (s : Scene) (p : Pin) : Prop :=
  ∀ parent m, p.parent = some parent → s.placement parent = .ok m →
    ∀ axis cell, p.readbacks axis = some cell → s.value cell = .ok
      ((m.image ⟨s.slotNumber (p.coordinates .x), s.slotNumber (p.coordinates .y)⟩).along axis)

/-- The read-backs of a node show where it is. -/
def ShowsPlace (s : Scene) : Node → Prop
  | .part p =>
    s.ShowsMatrix (s.contents p) (s.partNumber p .width) (s.partNumber p .height) p.readbacks
  | .pin p => s.ShowsPosition p
  | .pinnedPart p =>
    s.ShowsMatrix (s.solved p) (s.extent p .width) (s.extent p .height) p.readbacks
  | _ => True

/-- A cell shows what it reads back. -/
def ReadsBack (s : Scene) (owner cell : NodeId) : Prop :=
  ∃ n, s.node owner = .ok n ∧ n.Shows cell ∧ s.ShowsPlace n

/-- The equation of a node holds. -/
def Satisfied (s : Scene) (id : NodeId) : Node → Prop
  | .scalar _ (some owner) => s.ReadsBack owner id
  | .calculated c => c.modifiers ≠ [] → s.value id = .ok (s.chainNumber c)
  | .modified m => s.value id = .ok (m.op.apply (s.number m.target) (s.slotNumber m.operand))
  | .part p =>
    s.working id = .ok (s.composed p) ∧ s.placement id = .ok (s.contents p) ∧
      s.ShowsPlace (.part p)
  | .pin p => s.ShowsPlace (.pin p)
  | .pinnedPart p => s.working id = .ok (s.solved p) ∧ s.ShowsPlace (.pinnedPart p)
  | .scalar _ none | .input .. | .transformation _ => True

/-- An equation does not depend on what the node itself says it carries. -/
theorem satisfied_wiring {n : Node} : s.Satisfied id n.wiring ↔ s.Satisfied id n := by
  cases n with
  | scalar v requirement => cases requirement <;> exact Iff.rfl
  | _ => exact Iff.rfl

theorem satisfied_of_wiring {n n' : Node} (h : n'.wiring = n.wiring) (hn : s.Satisfied id n) :
    s.Satisfied id n' := by
  rwa [← satisfied_wiring, h, satisfied_wiring]

theorem showsPlace_of_wiring {n n' : Node} (h : n'.wiring = n.wiring) (hn : s.ShowsPlace n) :
    s.ShowsPlace n' := by
  have hwiring : ∀ n : Node, s.ShowsPlace n.wiring ↔ s.ShowsPlace n := by
    intro n
    cases n <;> exact Iff.rfl
  rwa [← hwiring, h, hwiring]

/-- A node whose equation holds is shown by its read-backs. -/
theorem Satisfied.showsPlace {n : Node} (h : s.Satisfied id n) : s.ShowsPlace n := by
  cases n with
  | part p => exact h.2.2
  | pin p => exact h
  | pinnedPart p => exact h.2
  | _ => trivial

/-! ### Through the cells that commands name -/

theorem partNumber_eq (s : Scene) (p : Part) (a : PartAttribute) :
    s.partNumber p a = s.number (p.cell a) := by
  unfold partNumber Part.cell
  cases p.attributes a with
  | some cell => rfl
  | none => cases a <;> rfl

theorem extent_eq (s : Scene) (p : PinnedPart) (d : Dimension) :
    s.extent p d = s.number (p.sizeCell d) := by
  unfold extent PinnedPart.sizeCell
  cases p.size d <;> rfl

/-- The matrix that some cells place a part by. -/
def placedBy (s : Scene) (c : PlacementCells) : Matrix Float :=
  placed (s.number c.x) (s.number c.y) (s.number c.scaleX) (s.number c.scaleY)
    (s.number c.rotation)

/-- The content matrix that goes with a working matrix of a part. -/
def contentBy (s : Scene) (originX originY : NodeId) (working : Matrix Float) : Matrix Float :=
  contentOf (s.number originX) (s.number originY) working

def pinNumbers (s : Scene) (c : PinCells) : PinPair Float :=
  ⟨⟨s.number c.originX, s.number c.originY⟩, ⟨s.number c.targetX, s.number c.targetY⟩⟩

/-- The matrix that some pins ask for. -/
def solvedBy (s : Scene) (pins : List PinCells) (width height : NodeId) : Matrix Float :=
  solvePins (pins.map s.pinNumbers) ⟨s.number width, s.number height⟩

theorem composed_eq_placedBy (s : Scene) (p : Part) :
    s.composed p = s.carried p.container.parent
      (p.container.transformations.foldl s.moved (s.placedBy p.placementCells)) := by
  simp only [composed, partNumber_eq, placedBy, placed_eq_placement]
  rfl

theorem contents_eq_contentBy (s : Scene) (p : Part) :
    s.contents p = s.contentBy (p.cell .originX) (p.cell .originY) (s.composed p) := by
  rw [contents, partNumber_eq, partNumber_eq, contentBy, contentOf_eq_fromOrigin]

theorem asks?_eq (s : Scene) (a : Attachment) : s.asks? a = a.cells?.map s.pinNumbers := by
  unfold asks? Attachment.cells?
  cases a.target .x <;> cases a.target .y <;> rfl

theorem solved_eq_solvedBy (s : Scene) (p : PinnedPart) :
    s.solved p = p.container.transformations.foldl s.moved
      (s.solvedBy p.pinCells (p.sizeCell .width) (p.sizeCell .height)) := by
  have hpins : [p.pins .a, p.pins .b, p.pins .c].filterMap (fun pin => pin.bind s.asks?) =
      p.pinCells.map s.pinNumbers := by
    have hasks : s.asks? = fun a => a.cells?.map s.pinNumbers := funext s.asks?_eq
    rw [hasks, PinnedPart.pinCells, List.map_filterMap]
    simp only [Option.map_bind]
    rfl
  rw [solved, hpins, extent_eq, extent_eq]
  rfl

theorem number_of_value {v : Float} (h : s.value id = .ok v) : s.number id = v := by
  rw [number, h]
  rfl

theorem number_eq (h : t.value id = s.value id) : t.number id = s.number id := by
  rw [number, h, number]

theorem slotNumber_of_slotValue {slot : Option NodeId} {v : Float}
    (h : s.slotValue slot = .ok v) : s.slotNumber slot = v := by
  cases slot with
  | none => exact Except.ok.inj h
  | some cell => exact number_of_value h

theorem matrix_of_working {m : Matrix Float} (h : s.working id = .ok m) : s.matrix id = m := by
  rw [matrix, h]
  rfl

theorem link_of_node (hs : s.wiring = w.wiring) {m : Modified}
    (hn : w.node id = .ok (.modified m)) (running : Float) :
    s.link running id = m.op.apply running (s.slotNumber m.operand) := by
  rw [link, bind_node_of_wiring hs Node.link?_wiring, node_eq_ok.mp hn]
  rfl

theorem moved_of_node (hs : s.wiring = w.wiring) {t : Transformation}
    (hn : w.node id = .ok (.transformation t)) (m : Matrix Float) :
    s.moved m id = t.motion.append m (s.number t.amount) := by
  rw [moved, bind_node_of_wiring hs Node.transformation?_wiring, node_eq_ok.mp hn,
    Motion.append_eq_moved]
  rfl

/-- Only a motion moves anything. -/
theorem moved_of_ne (hs : s.wiring = w.wiring)
    (hn : ∀ t, w.node id ≠ .ok (.transformation t)) (m : Matrix Float) : s.moved m id = m := by
  rw [moved, bind_node_of_wiring hs Node.transformation?_wiring]
  cases h : w.nodes[id]? with
  | none => rfl
  | some n =>
      cases n with
      | transformation t => exact absurd (node_eq_ok.mpr h) (hn t)
      | _ => rfl

/-- If all links of a chain satisfy their equations, the last one holds what the chain makes of
the number in front. -/
theorem number_last (hs : s.wiring = w.wiring) {target : NodeId} {links : List NodeId}
    (hchain : w.Chained target links)
    (hlinks : ∀ link ∈ links, ∀ n, w.node link = .ok n → s.Satisfied link n) :
    s.number (links.getLast?.getD target) = links.foldl s.link (s.number target) := by
  induction links generalizing target with
  | nil => rfl
  | cons link links ih =>
      obtain ⟨⟨m, hm, rfl⟩, hrest⟩ := hchain
      have hlink : s.value link = .ok (m.op.apply (s.number m.target) (s.slotNumber m.operand)) :=
        hlinks link List.mem_cons_self _ hm
      have hnext := ih hrest fun other hother => hlinks other (List.mem_cons_of_mem _ hother)
      rw [List.getLast?_cons, List.foldl_cons, link_of_node hs hm]
      rw [number_of_value hlink] at hnext
      exact hnext

/-- Once its owner satisfies its equation, a read-back does. -/
theorem readsBack_of_owner (hs : s.wiring = w.wiring) {owner cell : NodeId} {n : Node}
    (hn : w.node owner = .ok n) (hshows : n.Shows cell) (hsatisfied : s.Satisfied owner n) :
    s.ReadsBack owner cell := by
  obtain ⟨n', hn', hwiring⟩ := node_of_wiring hs hn
  exact ⟨n', hn', (Node.shows_of_wiring hwiring).mpr hshows,
    showsPlace_of_wiring hwiring hsatisfied.showsPlace⟩

end Scene

end SceneGraph
