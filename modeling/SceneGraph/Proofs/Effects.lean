import SceneGraph.Proofs.Preparation

/-!
What a step does to the equation of its node.

A command among the requirements of a container takes its matrices one entry further.  The
commands that a node contributes itself find everything that its equation reads in place, and
leave the equation satisfied.
-/

namespace SceneGraph

theorem mapM_eq_map {ε α β : Type} {f : α → Except ε β} {g : α → β} {l : List α} {bs : List β}
    (hf : ∀ a b, f a = .ok b → g a = b) (h : l.mapM f = .ok bs) : l.map g = bs := by
  induction l generalizing bs with
  | nil =>
      cases h
      rfl
  | cons a l ih =>
      rw [List.mapM_cons] at h
      obtain ⟨b, hb, hrest⟩ := except_bind_eq_ok.mp h
      obtain ⟨bs', hbs', hpure⟩ := except_bind_eq_ok.mp hrest
      cases hpure
      rw [List.map_cons, hf a b hb, ih hbs']

namespace Scene

variable {w s t : Scene} {id x : NodeId} {group : NodeId → Prop}

theorem value_setValue_self {v : Float} (hid : s.IsNumber id) (h : s.setValue id v = .ok t) :
    t.value id = .ok v := by
  obtain ⟨n, hn, hk⟩ := hid
  unfold value
  rw [node_update_self h, hn]
  cases n with
  | scalar | input | calculated | modified => rfl
  | part p =>
      cases hmodel : p.model <;> simp [Node.kind, hmodel, NodeKind.IsNumber] at hk
  | _ => exact hk.elim

theorem container?_mapContainer_self {f : Container → Container}
    (h : s.update id (Node.mapContainer f) = .ok t) :
    t.container? id = (s.container? id).map (Option.map f) := by
  unfold container?
  rw [node_update_self h]
  cases s.node id with
  | error e => rfl
  | ok n => cases n <;> rfl

theorem working_of_container? {c : Container} (h : s.container? id = .ok (some c)) :
    s.working id = .ok c.working := by
  rw [working_eq_map, h]
  rfl

theorem matrix_of_container? {c : Container} (h : s.container? id = .ok (some c)) :
    s.matrix id = c.working :=
  matrix_of_working (working_of_container? h)

theorem node_of_container? (hs : s.wiring = w.wiring) {n : Node} (hn : w.node id = .ok n)
    {c : Container} (h : s.container? id = .ok (some c)) :
    ∃ n', s.node id = .ok n' ∧ n'.wiring = n.wiring ∧ n'.container? = some c := by
  obtain ⟨n', hn', hwiring⟩ := node_of_wiring hs hn
  refine ⟨n', hn', hwiring, ?_⟩
  rw [container?, hn'] at h
  exact Except.ok.inj h

/-- What places a part is its content matrix. -/
theorem placement?_of_part (hs : s.wiring = w.wiring) {p : Part} (hn : w.node id = .ok (.part p))
    {c : Container} (h : s.container? id = .ok (some c)) :
    ∃ n, s.node id = .ok n ∧ n.placement? = some c.content := by
  obtain ⟨n, hn', hwiring, hc⟩ := node_of_container? hs hn h
  refine ⟨n, hn', ?_⟩
  cases n with
  | part p' => exact congrArg (Option.map Container.content) hc
  | _ => simp [Node.wiring] at hwiring

/-- What places a pinned part is its working matrix. -/
theorem placement?_of_pinnedPart (hs : s.wiring = w.wiring) {p : PinnedPart}
    (hn : w.node id = .ok (.pinnedPart p)) {c : Container} (h : s.container? id = .ok (some c)) :
    ∃ n, s.node id = .ok n ∧ n.placement? = some c.working := by
  obtain ⟨n, hn', hwiring, hc⟩ := node_of_container? hs hn h
  refine ⟨n, hn', ?_⟩
  cases n with
  | pinnedPart p' => exact congrArg (Option.map Container.working) hc
  | _ => simp [Node.wiring] at hwiring

theorem placement_of_node {n : Node} (hn : s.node id = .ok n) {m : Matrix Float}
    (hm : n.placement? = some m) : s.placement id = .ok m := by
  rw [placement, hn, ok_bind, hm]
  rfl

theorem placement_of_part (hs : s.wiring = w.wiring) {p : Part} (hn : w.node id = .ok (.part p))
    {c : Container} (h : s.container? id = .ok (some c)) : s.placement id = .ok c.content := by
  obtain ⟨n, hn', hm⟩ := placement?_of_part hs hn h
  exact placement_of_node hn' hm

theorem isContainer_part (p : Part) : (Node.part p).kind.IsContainer := by
  cases hmodel : p.model <;> simp [Node.kind, hmodel, NodeKind.IsContainer]

theorem container?_of_isContainer (h : s.IsContainer id) :
    ∃ c, s.container? id = .ok (some c) := by
  obtain ⟨n, hn, hk⟩ := h
  unfold container?
  rw [hn]
  cases n with
  | part p => exact ⟨p.container, rfl⟩
  | pinnedPart p => exact ⟨p.container, rfl⟩
  | _ => exact hk.elim

theorem pinNumbers_of_pinPair {c : PinCells} {pair : PinPair Float}
    (h : s.pinPair c = .ok pair) : s.pinNumbers c = pair := by
  obtain ⟨_, hox, h⟩ := except_bind_eq_ok.mp h
  obtain ⟨_, hoy, h⟩ := except_bind_eq_ok.mp h
  obtain ⟨_, htx, h⟩ := except_bind_eq_ok.mp h
  obtain ⟨_, hty, h⟩ := except_bind_eq_ok.mp h
  rw [pinNumbers, number_of_value hox, number_of_value hoy, number_of_value htx,
    number_of_value hty]
  exact Except.ok.inj h

/-- What is known of the matrices of a container, if a node is one. -/
def Drawn (s : Scene) (id : NodeId) (known : Matrices) : Prop :=
  ∀ c, s.container? id = .ok (some c) → known.Describes c

theorem Drawn.of_container? {known : Matrices} (hd : s.Drawn id known)
    (h : t.container? id = s.container? id) : t.Drawn id known :=
  fun c hc => hd c (h ▸ hc)

theorem Drawn.mapContainer {known known' : Matrices} (hd : s.Drawn id known)
    {f : Container → Container} (h : s.update id (Node.mapContainer f) = .ok t)
    (hf : ∀ c, known.Describes c → known'.Describes (f c)) : t.Drawn id known' := by
  intro c' hc'
  rw [container?_mapContainer_self h] at hc'
  cases hs : s.container? id with
  | error e =>
      rw [hs] at hc'
      cases hc'
  | ok c? =>
      cases c? with
      | none =>
          rw [hs] at hc'
          cases hc'
      | some c =>
          rw [hs] at hc'
          cases hc'
          exact hf c (hd c hs)

section Refreshing

variable {owner cell : NodeId} {slots : Slots Readback} {r : Readback}

theorem container?_refreshReadback (h : refreshReadback owner slots s r = .ok t) (id : NodeId) :
    t.container? id = s.container? id := by
  unfold refreshReadback at h
  cases hslot : slots r with
  | none =>
      rw [hslot] at h
      cases h
      rfl
  | some cell =>
      rw [hslot] at h
      obtain ⟨_, -, hset⟩ := except_bind_eq_ok.mp h
      exact container?_setValue hset id

theorem value_refreshReadback (h : refreshReadback owner slots s r = .ok t)
    (hslot : slots r = some cell) (hcell : s.IsNumber cell) :
    t.value cell = s.readbackValue owner r := by
  unfold refreshReadback at h
  rw [hslot] at h
  obtain ⟨v, hv, hset⟩ := except_bind_eq_ok.mp h
  rw [value_setValue_self hcell hset, hv]

theorem value_refreshReadback_of_ne (h : refreshReadback owner slots s r = .ok t)
    (hslot : slots r ≠ some cell) : t.value cell = s.value cell := by
  unfold refreshReadback at h
  cases hother : slots r with
  | none =>
      rw [hother] at h
      cases h
      rfl
  | some other =>
      rw [hother] at h
      obtain ⟨_, -, hset⟩ := except_bind_eq_ok.mp h
      refine value_update_of_ne hset ?_
      rintro rfl
      exact hslot hother

theorem container?_refreshReadbacks (h : s.refreshReadbacks owner = .ok t) (id : NodeId) :
    t.container? id = s.container? id := by
  obtain ⟨n, -, hrest⟩ := except_bind_eq_ok.mp h
  cases hslots : n.readbacks? with
  | none =>
      rw [hslots] at hrest
      cases hrest
      rfl
  | some slots =>
      rw [hslots] at hrest
      have htrans : ∀ {a b c : Scene}, b.container? id = a.container? id →
          c.container? id = b.container? id → c.container? id = a.container? id :=
        fun hab hbc => hbc.trans hab
      exact foldlM_related (R := fun s t => t.container? id = s.container? id) (fun _ => rfl)
        htrans (fun hr => container?_refreshReadback hr id) Readback.all hrest

end Refreshing

theorem mem_all_readbacks (r : Readback) : r ∈ Readback.all := by
  cases r <;> decide

theorem container?_setSlotValue {slot : Option NodeId} {v : Float}
    (h : s.setSlotValue slot v = .ok t) (id : NodeId) : t.container? id = s.container? id := by
  cases slot with
  | none =>
      cases h
      rfl
  | some cell => exact container?_setValue h id

theorem value_setSlotValue_of_ne {slot : Option NodeId} {v : Float} {cell : NodeId}
    (h : s.setSlotValue slot v = .ok t) (hslot : slot ≠ some cell) :
    t.value cell = s.value cell := by
  cases slot with
  | none =>
      cases h
      rfl
  | some other =>
      refine value_update_of_ne h ?_
      rintro rfl
      exact hslot rfl

theorem container?_refreshPin {pin : NodeId} (h : s.refreshPin pin = .ok t) (id : NodeId) :
    t.container? id = s.container? id := by
  obtain ⟨position, -, hrest⟩ := except_bind_eq_ok.mp h
  cases position with
  | none =>
      cases hrest
      rfl
  | some world =>
      obtain ⟨n, -, hrest⟩ := except_bind_eq_ok.mp hrest
      obtain ⟨u, hu, ht⟩ := except_bind_eq_ok.mp hrest
      exact (container?_setSlotValue ht id).trans (container?_setSlotValue hu id)

/-- A step of a container takes its matrices one entry further. -/
theorem Emits.drawn (hw : w.WellFormed) (hs : s.wiring = w.wiring) {step : Step}
    (hstep : Emits w x step) (h : step.change s = .ok t) {known : Matrices}
    (hd : s.Drawn x known) : t.Drawn x (s.bring known (.command (.step step))) := by
  cases hstep with
  | assign hx htail =>
      obtain ⟨_, -, hset⟩ := except_bind_eq_ok.mp h
      exact hd.of_container? (container?_setValue hset x)
  | modify hx =>
      obtain ⟨_, -, h⟩ := except_bind_eq_ok.mp h
      obtain ⟨_, -, hset⟩ := except_bind_eq_ok.mp h
      exact hd.of_container? (container?_setValue hset x)
  | transform hx =>
      obtain ⟨_, -, hmap⟩ := except_bind_eq_ok.mp h
      refine hd.of_container? (container?_update_of_ne hmap ?_)
      rintro rfl
      obtain ⟨-, n, hn, hmem⟩ := hw.fits _ _ hx
      obtain rfl := node_unique hn hx
      cases hmem
  | compose hx =>
      obtain ⟨_, hvx, h⟩ := except_bind_eq_ok.mp h
      obtain ⟨_, hvy, h⟩ := except_bind_eq_ok.mp h
      obtain ⟨_, hvsx, h⟩ := except_bind_eq_ok.mp h
      obtain ⟨_, hvsy, h⟩ := except_bind_eq_ok.mp h
      obtain ⟨_, hvr, hmap⟩ := except_bind_eq_ok.mp h
      refine hd.mapContainer hmap fun c hc => ⟨fun m hm => ?_, hc.content⟩
      rw [← Option.some.inj hm, placedBy, number_of_value hvx, number_of_value hvy,
        number_of_value hvsx, number_of_value hvsy, number_of_value hvr]
  | concatParent hx hparent =>
      rename_i p parent
      obtain ⟨c, hc⟩ := container?_of_isContainer
        (HasKind.mono ((hw.fits x _ hx).1.parent parent hparent) (.of_wiring hs))
      obtain ⟨n, hn, hcontainer⟩ := except_bind_eq_ok.mp hc
      have hcontainer : n.container? = some c := Except.ok.inj hcontainer
      obtain ⟨n', hn', h⟩ := except_bind_eq_ok.mp h
      obtain rfl := node_unique hn hn'
      rw [hcontainer] at h
      refine hd.mapContainer h fun c' hc' => ⟨fun m hm => ?_, hc'.content⟩
      obtain ⟨m', hm', rfl⟩ := Option.map_eq_some_iff.mp hm
      rw [carried, matrix_of_container? hc, hc'.working m' hm']
  | placeContent hx =>
      obtain ⟨_, hvx, h⟩ := except_bind_eq_ok.mp h
      obtain ⟨_, hvy, hmap⟩ := except_bind_eq_ok.mp h
      refine hd.mapContainer hmap fun c hc => ⟨hc.working, fun m hm => ?_⟩
      obtain ⟨m', hm', rfl⟩ := Option.map_eq_some_iff.mp hm
      rw [contentBy, number_of_value hvx, number_of_value hvy, hc.working m' hm']
  | solvePins hx =>
      obtain ⟨pairs, hpairs, h⟩ := except_bind_eq_ok.mp h
      obtain ⟨_, hwidth, h⟩ := except_bind_eq_ok.mp h
      obtain ⟨_, hheight, hmap⟩ := except_bind_eq_ok.mp h
      have hnumbers := mapM_eq_map (g := s.pinNumbers) (fun _ _ => pinNumbers_of_pinPair) hpairs
      refine hd.mapContainer hmap fun c hc => ⟨fun m hm => ?_, hc.content⟩
      rw [← Option.some.inj hm, solvedBy, hnumbers, number_of_value hwidth,
        number_of_value hheight]
  | showPart hx => exact hd.of_container? (container?_refreshReadbacks h x)
  | showPin hx => exact hd.of_container? (container?_refreshPin h x)
  | showPinnedPart hx => exact hd.of_container? (container?_refreshReadbacks h x)

/-- What a read-back shows of a node that a matrix places. -/
theorem readbackValue_eq_reading {n : Node} (hx : s.node x = .ok n) {m : Matrix Float}
    (hm : n.placement? = some m) (hsize : ∀ d, sizeCellOf n d < s.count) (r : Readback) :
    s.readbackValue x r = .ok (r.reading m (s.number (sizeCellOf n .width))
      (s.number (sizeCellOf n .height))) := by
  obtain ⟨width, hwidth⟩ := value_of_lt_count (hsize .width)
  obtain ⟨height, hheight⟩ := value_of_lt_count (hsize .height)
  rw [readbackValue, hx, ok_bind, hm, number_of_value hwidth, number_of_value hheight]
  cases r with
  | rotation =>
      simp only [Readback.reading, ← Angle.degreesPerRadian_eq]
      rfl
  | width => exact except_map_eq_ok.mpr ⟨width, hwidth, rfl⟩
  | height => exact except_map_eq_ok.mpr ⟨height, hheight, rfl⟩
  | _ => rfl

/-- Read-backs that are up to date show the matrix that places their node. -/
theorem showsMatrix_of_values (hw : w.WellFormed) (hs : s.wiring = w.wiring) {n n' : Node}
    (hx : w.node x = .ok n) (hn' : s.node x = .ok n') {m : Matrix Float}
    (hm : n'.placement? = some m) {slots : Slots Readback}
    (hvalues : ∀ r cell, slots r = some cell → s.value cell = s.readbackValue x r) :
    s.ShowsMatrix m (s.number (sizeCellOf n .width)) (s.number (sizeCellOf n .height)) slots := by
  obtain ⟨n'', hn'', hwiring⟩ := node_of_wiring hs hx
  obtain rfl := node_unique hn' hn''
  have hsize : ∀ d, sizeCellOf n' d < s.count := by
    intro d
    rw [sizeCellOf_of_wiring hwiring, count_eq_of_wiring hs]
    exact (sizeCellOf_isNumber hw hx d).lt_count
  intro r cell hcell
  rw [hvalues r cell hcell, readbackValue_eq_reading hn' hm hsize, sizeCellOf_of_wiring hwiring,
    sizeCellOf_of_wiring hwiring]

/-- The matrix of its parent puts a pin where it is. -/
theorem pinPosition?_of_parent (hw : w.WellFormed) (hs : s.wiring = w.wiring) {p : Pin}
    (hx : w.node x = .ok (.pin p)) {parent : NodeId} (hparent : p.parent = some parent)
    {m : Matrix Float} (hm : s.placement parent = .ok m) :
    s.pinPosition? x = .ok (some
      (m.image ⟨s.slotNumber (p.coordinates .x), s.slotNumber (p.coordinates .y)⟩)) := by
  obtain ⟨n', hn', hwiring⟩ := node_of_wiring hs hx
  obtain ⟨display, rfl⟩ := Node.eq_pin_of_wiring hwiring
  obtain ⟨k, hk, hkind⟩ := HasKind.mono ((hw.fits x _ hx).1 parent hparent) (.of_wiring hs)
  have hplaced : k.placement? = some m := by
    rw [placement, hk, ok_bind] at hm
    cases k with
    | part q | pinnedPart q => exact congrArg some (Except.ok.inj hm)
    | _ => exact hkind.elim
  obtain ⟨position, hposition⟩ := pinPosition?_succeeds hw hs hx
  rw [pinPosition?_of_pin hn' hparent hk, hplaced] at hposition ⊢
  obtain ⟨vx, hvx, hposition⟩ := except_bind_eq_ok.mp hposition
  obtain ⟨vy, hvy, -⟩ := except_bind_eq_ok.mp hposition
  have hx : s.slotNumber (p.coordinates .x) = vx := slotNumber_of_slotValue hvx
  have hy : s.slotNumber (p.coordinates .y) = vy := slotNumber_of_slotValue hvy
  rw [hx, hy]
  exact except_bind_eq_ok.mpr ⟨vx, hvx, except_bind_eq_ok.mpr ⟨vy, hvy, rfl⟩⟩

section Own

variable (hw : w.WellFormed) (hs : s.wiring = w.wiring) (hgroup : w.Closed group)
  (hfresh : ¬ group x)
include hw hs hgroup hfresh

/-- A step of a node outside of a group leaves the group alone. -/
theorem Emits.keeps {step : Step} (hstep : Emits w x step) (h : step.change s = .ok t) :
    Keeps w group s t := by
  refine hgroup.keeps hw (hstep.touches hw hs h) ?_
  rintro _ rfl
  exact hfresh

/-- The end of a chain becomes the value. -/
theorem satisfied_assign (hsatisfied : ∀ y, group y → ∀ n, w.node y = .ok n → s.Satisfied y n)
    {c : Calculated} (hx : w.node x = .ok (.calculated c)) (hready : Ready group x (.calculated c))
    {tail : NodeId} (htail : c.modifiers.getLast? = some tail)
    (h : (Step.assign x tail).change s = .ok t) : t.Satisfied x (.calculated c) := by
  intro hmodifiers
  have hkeeps := (Emits.assign hx htail).keeps hw hs hgroup hfresh h
  have hchain := (hw.fits x _ hx).2
  obtain ⟨hbase, hlinks⟩ := hgroup.chain hchain (hready.tail hmodifiers)
  have hlast := number_last hs hchain fun link hlink => hsatisfied link (hlinks link hlink)
  obtain ⟨v, hv, hset⟩ := except_bind_eq_ok.mp h
  have hnumber : s.IsNumber x := HasKind.mono ⟨_, hx, trivial⟩ (.of_wiring hs)
  rw [htail, Option.getD_some, number_of_value hv] at hlast
  rw [value_setValue_self hnumber hset, hkeeps.chainNumber_eq hs hgroup hbase hlinks, hlast]
  rfl

theorem satisfied_modify {m : Modified} (hx : w.node x = .ok (.modified m))
    (hready : Ready group x (.modified m))
    (h : (Step.modify x m.op m.target m.operand).change s = .ok t) :
    t.Satisfied x (.modified m) := by
  have hkeeps := (Emits.modify hx).keeps hw hs hgroup hfresh h
  have htarget := hkeeps.number_eq hs hgroup (hready m.target (by simp [needs]))
  have hoperand := hkeeps.slotNumber_eq hs hgroup
    (hready.slot m.operand (by simp [needs]))
  obtain ⟨running, hrunning, h⟩ := except_bind_eq_ok.mp h
  obtain ⟨operand, hslot, hset⟩ := except_bind_eq_ok.mp h
  have hnumber : s.IsNumber x := HasKind.mono ⟨_, hx, trivial⟩ (.of_wiring hs)
  show t.value x = _
  rw [value_setValue_self hnumber hset, htarget, hoperand, number_of_value hrunning,
    slotNumber_of_slotValue hslot]

/-- An extra motion takes the matrices of its container one entry further. -/
theorem drawn_transform {step : Transformation} (hx : w.node x = .ok (.transformation step))
    (hready : Ready group x (.transformation step))
    (h : (Step.transform step.owner step.motion step.amount).change s = .ok t)
    {known : Matrices} (hd : s.Drawn step.owner known) :
    t.Drawn step.owner (t.bring known (.node x)) := by
  have hkeeps := (Emits.transform hx).keeps hw hs hgroup hfresh h
  have hamount := hkeeps.number_eq hs hgroup (hready step.amount (by simp [needs]))
  obtain ⟨v, hv, hmap⟩ := except_bind_eq_ok.mp h
  refine hd.mapContainer hmap fun c hc => ⟨fun m hm => ?_, hc.content⟩
  obtain ⟨m', hm', rfl⟩ := Option.map_eq_some_iff.mp hm
  rw [moved_of_node (hkeeps.wiring.trans hs) hx, hamount, number_of_value hv,
    hc.working m' hm']

/-- Half way through, what a read-back will show is what it would have shown at the start. -/
theorem readbackValue_underway {n : Node} (hx : w.node x = .ok n) (hready : Ready group x n)
    (h : Touches w (· = x) s t) (hcontainer : t.container? x = s.container? x) (r : Readback) :
    t.readbackValue x r = s.readbackValue x r := by
  have hkeeps := hgroup.keeps hw h (by rintro _ rfl; exact hfresh)
  exact hkeeps.readbackValue_eq hw hs hgroup hx hready hcontainer r

/-- Refreshing read-backs one after the other: the ones that are done stay as they are. -/
theorem refreshReadback_foldlM {n : Node} (hx : w.node x = .ok n) (hready : Ready group x n)
    {slots : Slots Readback} (hreadbacks : n.readbacks? = some slots)
    (hslots : w.SlotsShow x slots) {l : List Readback} (hst : Touches w (· = x) s t)
    (hcontainer : t.container? x = s.container? x) {u : Scene}
    (h : l.foldlM (refreshReadback x slots) t = .ok u) {r : Readback} {cell : NodeId}
    (hcell : slots r = some cell) (hr : r ∈ l ∨ t.value cell = s.readbackValue x r) :
    u.value cell = s.readbackValue x r := by
  induction l generalizing t with
  | nil =>
      cases h
      simpa using hr
  | cons first l ih =>
      rw [List.foldlM_cons] at h
      obtain ⟨t', ht', hrest⟩ := except_bind_eq_ok.mp h
      have hidle := not_idle_of_readbacks hx hreadbacks
      refine ih (hst.trans (refreshReadback_touches hslots hidle ht'))
        ((container?_refreshReadback ht' x).trans hcontainer) hrest ?_
      by_cases hfirst : r = first
      · subst hfirst
        obtain ⟨v, hv⟩ := hslots.cell r cell hcell
        have hnumber : t.IsNumber cell :=
          HasKind.mono ⟨_, hv, trivial⟩ (.of_wiring (hst.wiring.trans hs))
        have hread := readbackValue_underway hw hs hgroup hfresh hx hready hst hcontainer r
        exact Or.inr ((value_refreshReadback ht' hcell hnumber).trans hread)
      · refine hr.imp (fun hmem => (List.mem_cons.mp hmem).resolve_left hfirst) fun hvalue => ?_
        rw [value_refreshReadback_of_ne ht' fun hother =>
          hfirst (hslots.injective r first cell hcell hother), hvalue]

/-- Once refreshed, the read-backs of a node are up to date. -/
theorem value_refreshReadbacks {n : Node} (hx : w.node x = .ok n) (hready : Ready group x n)
    {slots : Slots Readback} (hreadbacks : n.readbacks? = some slots)
    (hslots : w.SlotsShow x slots) (h : s.refreshReadbacks x = .ok t) :
    ∀ r cell, slots r = some cell → t.value cell = t.readbackValue x r := by
  have htouches := refreshReadbacks_touches hs hx (fun _ hslots' => by
    obtain rfl := Option.some.inj (hreadbacks.symm.trans hslots')
    exact hslots) h
  have hcontainer := container?_refreshReadbacks h x
  obtain ⟨n', hn', hrest⟩ := except_bind_eq_ok.mp h
  obtain ⟨n'', hn'', hwiring⟩ := node_of_wiring hs hx
  obtain rfl := node_unique hn' hn''
  rw [readbacks?_of_wiring hwiring, hreadbacks] at hrest
  intro r cell hcell
  rw [readbackValue_underway hw hs hgroup hfresh hx hready htouches hcontainer r]
  exact refreshReadback_foldlM hw hs hgroup hfresh hx hready hreadbacks hslots (.refl w _ s) rfl
    hrest hcell (Or.inl (mem_all_readbacks r))

theorem satisfied_showPart {p : Part} (hx : w.node x = .ok (.part p))
    (hready : Ready group x (.part p)) (hd : s.Drawn x ((needs [] x (.part p)).foldl s.bring {}))
    (h : (Step.showPart x).change s = .ok t) : t.Satisfied x (.part p) := by
  have hkeeps := (Emits.showPart hx).keeps hw hs hgroup hfresh h
  have hslots := (hw.fits x _ hx).2.2
  have hkind : w.IsContainer x := ⟨_, hx, isContainer_part p⟩
  obtain ⟨c, hc⟩ := container?_of_isContainer (HasKind.mono hkind (.of_wiring hs))
  have hc' := (container?_refreshReadbacks h x).trans hc
  have hdescribes := hd c hc
  rw [needs_part, bring_partNeeds hw hs hx] at hdescribes
  have hvalues := value_refreshReadbacks hw hs hgroup hfresh hx hready rfl hslots h
  have hcontents : c.content = t.contents p := by
    rw [hkeeps.contents_eq hs hgroup hready, hdescribes.content _ rfl]
  obtain ⟨n', hn', hm⟩ := placement?_of_part (hkeeps.wiring.trans hs) hx hc'
  rw [hcontents] at hm
  refine ⟨?_, placement_of_node hn' hm, ?_⟩
  · rw [working_of_container? hc', hkeeps.composed_eq hs hgroup hready,
      hdescribes.working _ rfl]
  · rw [ShowsPlace, partNumber_eq, partNumber_eq]
    exact showsMatrix_of_values hw (hkeeps.wiring.trans hs) hx hn' hm hvalues

theorem satisfied_showPinnedPart {p : PinnedPart} (hx : w.node x = .ok (.pinnedPart p))
    (hready : Ready group x (.pinnedPart p))
    (hd : s.Drawn x ((needs [] x (.pinnedPart p)).foldl s.bring {}))
    (h : (Step.showPinnedPart x).change s = .ok t) : t.Satisfied x (.pinnedPart p) := by
  have hkeeps := (Emits.showPinnedPart hx).keeps hw hs hgroup hfresh h
  have hslots := (hw.fits x _ hx).2.2.2
  obtain ⟨c, hc⟩ := container?_of_isContainer (HasKind.mono ⟨_, hx, trivial⟩ (.of_wiring hs))
  have hc' := (container?_refreshReadbacks h x).trans hc
  have hdescribes := hd c hc
  rw [show needs [] x (.pinnedPart p) = pinnedPartNeeds x p from rfl,
    bring_pinnedPartNeeds] at hdescribes
  have hvalues := value_refreshReadbacks hw hs hgroup hfresh hx hready rfl hslots h
  have hsolved : c.working = t.solved p := by
    rw [hkeeps.solved_eq hs hgroup hready, hdescribes.working _ rfl]
  obtain ⟨n', hn', hm⟩ := placement?_of_pinnedPart (hkeeps.wiring.trans hs) hx hc'
  rw [hsolved] at hm
  refine ⟨by rw [working_of_container? hc', hsolved], ?_⟩
  rw [ShowsPlace, extent_eq, extent_eq]
  exact showsMatrix_of_values hw (hkeeps.wiring.trans hs) hx hn' hm hvalues

theorem satisfied_showPin {p : Pin} (hx : w.node x = .ok (.pin p))
    (hready : Ready group x (.pin p)) (h : (Step.showPin x).change s = .ok t) :
    t.Satisfied x (.pin p) := by
  have hkeeps := (Emits.showPin hx).keeps hw hs hgroup hfresh h
  have hslots := (hw.fits x _ hx).2.2
  intro parent m hparent hm axis cell hcell
  have hworld := pinPosition?_of_parent hw (hkeeps.wiring.trans hs) hx hparent hm
  rw [hkeeps.pinPosition?_eq hw hs hgroup hx hready] at hworld
  generalize m.image _ = world at hworld ⊢
  obtain ⟨position, hposition, hrest⟩ := except_bind_eq_ok.mp h
  obtain rfl := Except.ok.inj (hposition.symm.trans hworld)
  obtain ⟨n', hn', hrest⟩ := except_bind_eq_ok.mp hrest
  obtain ⟨u, hu, ht⟩ := except_bind_eq_ok.mp hrest
  obtain ⟨n'', hn'', hwiring⟩ := node_of_wiring hs hx
  obtain rfl := node_unique hn' hn''
  obtain ⟨display, rfl⟩ := Node.eq_pin_of_wiring hwiring
  have hnumber : ∀ s' : Scene, s'.wiring = w.wiring → s'.IsNumber cell := by
    intro s' hs'
    obtain ⟨v, hv⟩ := hslots.cell axis cell hcell
    exact HasKind.mono ⟨_, hv, trivial⟩ (.of_wiring hs')
  have hu : s.setSlotValue (p.readbacks .x) world.x = .ok u := hu
  have ht : u.setSlotValue (p.readbacks .y) world.y = .ok t := ht
  cases axis with
  | x =>
      have hother : p.readbacks .y ≠ some cell := fun hy => by
        cases hslots.injective .x .y cell hcell hy
      rw [hcell] at hu
      rw [value_setSlotValue_of_ne ht hother]
      exact value_setValue_self (hnumber s hs) hu
  | y =>
      have huw := (s.setSlotValue_rewrites _ _ u hu).alike.wiring.trans hs
      rw [hcell] at ht
      exact value_setValue_self (hnumber u huw) ht

end Own

end Scene

end SceneGraph
