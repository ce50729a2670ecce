import SceneGraph.Proofs.Ownership

/-!
What accessors give out.

An attribute, a read-back, a coordinate, a dimension and a pin's origin and target are asked
for by accessors, which make a node when they are first asked.  Main statements: what was made
for a slot stays in it (`Session.Runs.owns`), so an accessor gives out the same handle at any
later time (`Session.outcome?_of_runs`), and a pin is attached once
(`Session.attachPin_of_runs`).
-/

namespace SceneGraph

/-- The slot that an operation is about: one cell of one node. -/
def Operation.slot? : Operation → Option (NodeId × Role)
  | .partAttribute id a | .setPartAttribute id a _ => some (id, .attribute a)
  | .readback owner r => some (owner, .readback r)
  | .pinCoordinate id axis | .setPinCoordinate id axis _ => some (id, .coordinate axis)
  | .pinReadback id axis => some (id, .pinReadback axis)
  | .pinnedPartDimension id d | .setPinnedPartDimension id d _ => some (id, .dimension d)
  | .pinOrigin id slot axis => some (id, .origin slot axis)
  | .pinTarget id slot axis => some (id, .pinTarget slot axis)
  | _ => none

/-- An operation that only asks for what a slot holds, and fills it if it must. -/
def Operation.IsAccessor : Operation → Prop
  | .partAttribute .. | .readback .. | .pinCoordinate .. | .pinReadback ..
  | .pinnedPartDimension .. | .pinOrigin .. | .pinTarget .. => True
  | _ => False

/-- The handle that an accessor gives out for a cell. -/
def Operation.handleOf (cell : NodeId) : Operation → Handle
  | .readback .. | .pinReadback .. => .value cell
  | _ => .calculated cell

namespace Node

variable {n : Node}

theorem exists_part_of_kind (h : n.kind.IsPart) : ∃ p, n = .part p := by
  cases n with
  | part p => exact ⟨p, rfl⟩
  | _ => rcases h with h | h <;> cases h

theorem exists_pinnedPart_of_kind (h : n.kind = .pinnedPart) : ∃ p, n = .pinnedPart p := by
  cases n with
  | pinnedPart p => exact ⟨p, rfl⟩
  | part p => cases hmodel : p.model <;> simp [kind, hmodel] at h
  | _ => cases h

end Node

namespace Scene

variable {s t u : Scene} {owner id cell : NodeId} {x : Holding}

/-- What is accessed is held from then on. -/
theorem materialize_holds (slot : CellSlot) {base : Float}
    (hfits : ∀ n, s.node owner = .ok n → ∀ cell, slot.cell? (slot.fill cell n) = some cell)
    (h : s.materialize owner slot.cell? slot.fill base = .ok (cell, t)) :
    t.Holds ⟨owner, slot.role, cell⟩ := by
  obtain ⟨n, hn, hrest⟩ := except_bind_eq_ok.mp h
  cases hcell : slot.cell? n with
  | some found =>
      rw [hcell] at hrest
      cases hrest
      exact ⟨n, hn, (slot.held?_role n).trans hcell⟩
  | none =>
      rw [hcell] at hrest
      obtain ⟨u, hu, hr⟩ := except_bind_eq_ok.mp hrest
      cases hr
      refine ⟨slot.fill (s.calculated base).1 n, ?_, (slot.held?_role _).trans (hfits n hn _)⟩
      have hextends := (calculated_extends s owner base).update (lt_count_of_node hn) hu
      rw [hextends.old owner n hn, if_pos rfl]
      rfl

theorem holds_of_wiring (h : t.wiring = s.wiring) (hrole : x.role.IsOwning) :
    t.Holds x ↔ s.Holds x := by
  have hkept : ∀ {s t : Scene}, t.wiring = s.wiring → s.Holds x → t.Holds x := fun h =>
    have hchange : Change (fun _ => False) _ _ := .inPlace h
    hchange.furnishes.kept x hrole
  exact ⟨hkept h.symm, hkept h⟩

theorem setBaseOf_holds {access : Except OutOfRange (NodeId × Scene)} {role : Role}
    (hrole : role.IsOwning)
    (haccess : ∀ cell t, access = .ok (cell, t) → t.Holds ⟨owner, role, cell⟩) {v : Float}
    (h : setBaseOf access v = .ok (cell, u)) : u.Holds ⟨owner, role, cell⟩ := by
  obtain ⟨⟨found, t⟩, ht, hrest⟩ := except_bind_eq_ok.mp h
  obtain ⟨u', hu, hr⟩ := except_bind_eq_ok.mp hrest
  cases hr
  exact (holds_of_wiring (t.setBaseValue_rewrites cell v u hu).alike.wiring hrole).mpr
    (haccess cell t ht)

theorem partAttribute_holds (hpart : s.HasKind NodeKind.IsPart owner) {a : PartAttribute}
    (h : s.partAttribute owner a = .ok (cell, t)) : t.Holds ⟨owner, .attribute a, cell⟩ := by
  apply materialize_holds (.attribute a) _ h
  intro n hn cell
  obtain ⟨n', hn', hkind⟩ := hpart
  obtain rfl := node_unique hn hn'
  obtain ⟨p, rfl⟩ := Node.exists_part_of_kind hkind
  exact p.attributes.fill_self a cell

theorem pinCoordinate_holds (hpin : s.HasKind (· = .pin) owner) {axis : Axis}
    (h : s.pinCoordinate owner axis = .ok (cell, t)) : t.Holds ⟨owner, .coordinate axis, cell⟩ := by
  apply materialize_holds (.coordinate axis) _ h
  intro n hn cell
  obtain ⟨n', hn', hkind⟩ := hpin
  obtain rfl := node_unique hn hn'
  obtain ⟨p, rfl⟩ := Node.exists_pin_of_kind hkind
  exact p.coordinates.fill_self axis cell

theorem pinnedPartDimension_holds (hpart : s.HasKind (· = .pinnedPart) owner) {d : Dimension}
    (h : s.pinnedPartDimension owner d = .ok (cell, t)) :
    t.Holds ⟨owner, .dimension d, cell⟩ := by
  apply materialize_holds (.dimension d) _ h
  intro n hn cell
  obtain ⟨n', hn', hkind⟩ := hpart
  obtain rfl := node_unique hn hn'
  obtain ⟨p, rfl⟩ := Node.exists_pinnedPart_of_kind hkind
  exact p.size.fill_self d cell

theorem pinTarget?_holds {slot : PinSlot} {axis : Axis} {cell? : Option NodeId}
    (h : s.pinTarget? owner slot axis = .ok (cell?, t)) (hcell : cell? = some cell) :
    t.Holds ⟨owner, .pinTarget slot axis, cell⟩ := by
  obtain ⟨n, hn, hrest⟩ := except_bind_eq_ok.mp h
  cases hslot : n.attachment? slot with
  | none =>
      rw [hslot] at hrest
      cases hrest
      cases hcell
  | some a =>
      rw [hslot] at hrest
      obtain ⟨⟨found, u⟩, hu, hr⟩ := except_bind_eq_ok.mp hrest
      cases hr
      cases hcell
      apply materialize_holds (.target slot axis) _ hu
      intro n' hn' cell
      obtain rfl := node_unique hn hn'
      exact Node.target?_fillTarget hslot cell

theorem pinOrigin?_holds {slot : PinSlot} {axis : Axis}
    (h : s.pinOrigin? owner slot axis = .ok (some cell)) :
    s.Holds ⟨owner, .origin slot axis, cell⟩ := by
  obtain ⟨n, hn, hcell⟩ := except_bind_eq_ok.mp h
  exact ⟨n, hn, Except.ok.inj hcell⟩

theorem materialize_of_holds (slot : CellSlot) (base : Float)
    (h : s.Holds ⟨owner, slot.role, cell⟩) :
    s.materialize owner slot.cell? slot.fill base = .ok (cell, s) := by
  obtain ⟨n, hn, hheld⟩ := h
  have hcell : slot.cell? n = some cell := (slot.held?_role n).symm.trans hheld
  unfold materialize
  simp only [hn, ok_bind, hcell]
  rfl

theorem attachPin_of_holds {slot : PinSlot} {axis : Axis} (origin : Point Float)
    (h : s.Holds ⟨owner, .origin slot axis, cell⟩) : s.attachPin owner slot origin = .ok s := by
  obtain ⟨n, hn, hheld⟩ := h
  obtain ⟨a, ha, -⟩ := Option.map_eq_some_iff.mp hheld
  unfold attachPin
  simp only [hn, ok_bind, ha]
  rfl

/-- Once a pin is attached its slot is taken. -/
theorem attachPin_holds (hpart : s.HasKind (· = .pinnedPart) owner) {slot : PinSlot}
    {origin : Point Float} (h : s.attachPin owner slot origin = .ok t) :
    ∃ cell, t.Holds ⟨owner, .origin slot .x, cell⟩ := by
  obtain ⟨n, hn, hrest⟩ := except_bind_eq_ok.mp h
  cases hslot : n.attachment? slot with
  | some a =>
      rw [hslot] at hrest
      cases hrest
      exact ⟨a.originX, n, hn, Option.map_eq_some_iff.mpr ⟨a, hslot, rfl⟩⟩
  | none =>
      rw [hslot] at hrest
      obtain ⟨n', hn', hkind⟩ := hpart
      obtain rfl := node_unique hn hn'
      obtain ⟨p, rfl⟩ := Node.exists_pinnedPart_of_kind hkind
      have hextends := calculated_calculated_extends s owner origin.x origin.y
      have hold := (hextends.update (lt_count_of_node hn) hrest).old owner _ hn
      rw [if_pos rfl] at hold
      exact ⟨_, _, hold, Option.map_eq_some_iff.mpr ⟨_, if_pos rfl, rfl⟩⟩

end Scene

namespace Session

open Scene Operation

variable {σ τ : Session} {op : Operation} {o : Outcome} {handle : Handle} {owner cell : NodeId}
  {role : Role} {x : Holding}

theorem Sound.isPart (hσ : Sound σ) {id : NodeId} (h : σ.HasPart id) :
    σ.scene.HasKind NodeKind.IsPart id := by
  rcases h with h | h
  · exact (hσ.handles _ h).imp fun _ hk => .inl hk
  · exact (hσ.handles _ h).imp fun _ hk => .inr hk

theorem slot?_isOwning (h : op.slot? = some (owner, role)) : role.IsOwning ∧ role ≠ .operand := by
  cases op with
  | partAttribute | setPartAttribute | readback | pinCoordinate | setPinCoordinate | pinReadback
  | pinnedPartDimension | setPinnedPartDimension | pinOrigin | pinTarget =>
      cases h
      exact ⟨trivial, nofun⟩
  | _ => cases h

/-- A handle that comes from a slot names what the slot holds. -/
theorem holds_of_slot? (hσ : Sound σ) (hallowed : op.Allowed σ)
    (h : op.outcome? σ.scene = some o) (hhandle : o.handle? = some handle)
    (hslot : op.slot? = some (owner, role)) : o.scene.Holds ⟨owner, role, handle.id⟩ := by
  cases op with
  | partAttribute id a =>
      obtain ⟨⟨cell, t⟩, ht, rfl⟩ := map_toOption_eq_some.mp h
      cases hhandle
      cases hslot
      exact partAttribute_holds (hσ.isPart hallowed) ht
  | setPartAttribute id a v =>
      obtain ⟨⟨cell, t⟩, ht, rfl⟩ := map_toOption_eq_some.mp h
      cases hhandle
      cases hslot
      exact setBaseOf_holds trivial (fun cell t => partAttribute_holds (hσ.isPart hallowed)) ht
  | readback id r =>
      obtain ⟨⟨cell, t⟩, ht, rfl⟩ := map_toOption_eq_some.mp h
      cases hhandle
      cases hslot
      exact readback_yields (hσ.isContainer hallowed) ht
  | pinCoordinate id axis =>
      obtain ⟨⟨cell, t⟩, ht, rfl⟩ := map_toOption_eq_some.mp h
      cases hhandle
      cases hslot
      exact pinCoordinate_holds (hσ.handles _ hallowed) ht
  | setPinCoordinate id axis v =>
      obtain ⟨⟨cell, t⟩, ht, rfl⟩ := map_toOption_eq_some.mp h
      cases hhandle
      cases hslot
      exact setBaseOf_holds trivial (fun cell t => pinCoordinate_holds (hσ.handles _ hallowed)) ht
  | pinReadback id axis =>
      obtain ⟨⟨cell, t⟩, ht, rfl⟩ := map_toOption_eq_some.mp h
      cases hhandle
      cases hslot
      exact pinReadback_yields (hσ.handles _ hallowed) ht
  | pinnedPartDimension id d =>
      obtain ⟨⟨cell, t⟩, ht, rfl⟩ := map_toOption_eq_some.mp h
      cases hhandle
      cases hslot
      exact pinnedPartDimension_holds (hσ.handles _ hallowed) ht
  | setPinnedPartDimension id d v =>
      obtain ⟨⟨cell, t⟩, ht, rfl⟩ := map_toOption_eq_some.mp h
      cases hhandle
      cases hslot
      exact setBaseOf_holds trivial
        (fun cell t => pinnedPartDimension_holds (hσ.handles _ hallowed)) ht
  | pinOrigin id slot axis =>
      obtain ⟨cell?, hcell, rfl⟩ := map_toOption_eq_some.mp h
      obtain ⟨cell, rfl, rfl⟩ := Option.map_eq_some_iff.mp hhandle
      cases hslot
      exact pinOrigin?_holds hcell
  | pinTarget id slot axis =>
      obtain ⟨⟨cell?, t⟩, ht, rfl⟩ := map_toOption_eq_some.mp h
      obtain ⟨cell, hcell, rfl⟩ := Option.map_eq_some_iff.mp hhandle
      cases hslot
      exact pinTarget?_holds ht hcell
  | _ => cases hslot

/-- Any other handle names a new node. -/
theorem count_le_of_slot?_eq_none (h : op.outcome? σ.scene = some o)
    (hhandle : o.handle? = some handle) (hslot : op.slot? = none) :
    σ.scene.count ≤ handle.id := by
  cases op with
  | scalar | input | part | model | pin | pinnedPart =>
      cases h
      cases hhandle
      exact Nat.le_refl _
  | calculated base =>
      cases h
      cases hhandle
      exact (Nat.le_succ _).trans (count_push σ.scene (.scalar base none)).ge
  | addTransformation owner motion =>
      obtain ⟨⟨cell, t⟩, ht, rfl⟩ := map_toOption_eq_some.mp h
      obtain ⟨u, -, hr⟩ := except_bind_eq_ok.mp ht
      cases hr
      cases hhandle
      exact (Nat.le_succ _).trans (count_push σ.scene (.scalar 0.0 none)).ge
  | compile root =>
      obtain rfl := outcome?_compile h
      cases hhandle
  | compileModel model =>
      rw [(outcome?_compileModel h).handle] at hhandle
      cases hhandle
  | renderModel model =>
      rw [(outcome?_renderModel h).handle] at hhandle
      cases hhandle
  | partAttribute | setPartAttribute | readback | pinCoordinate | setPinCoordinate | pinReadback
  | pinnedPartDimension | setPinnedPartDimension | pinOrigin | pinTarget => cases hslot
  | _ =>
      obtain ⟨r, -, rfl⟩ := map_toOption_eq_some.mp h
      cases hhandle

theorem handle_of_accessor (hop : op.IsAccessor) (h : op.outcome? σ.scene = some o)
    (hhandle : o.handle? = some handle) : handle = op.handleOf handle.id := by
  cases op with
  | partAttribute | readback | pinCoordinate | pinReadback | pinnedPartDimension =>
      obtain ⟨⟨cell, t⟩, -, rfl⟩ := map_toOption_eq_some.mp h
      cases hhandle
      rfl
  | pinOrigin | pinTarget =>
      obtain ⟨r, -, rfl⟩ := map_toOption_eq_some.mp h
      obtain ⟨cell, -, rfl⟩ := Option.map_eq_some_iff.mp hhandle
      rfl
  | _ => exact hop.elim

/-- An accessor gives out what the slot holds, and then it leaves the scene as it is. -/
theorem outcome?_of_holds (hop : op.IsAccessor) (hslot : op.slot? = some (owner, role))
    (h : σ.scene.Holds ⟨owner, role, cell⟩) :
    op.outcome? σ.scene = some { scene := σ.scene, handle? := some (op.handleOf cell) } := by
  cases op with
  | partAttribute id a =>
      cases hslot
      exact map_toOption_eq_some.mpr ⟨_, materialize_of_holds (.attribute a) _ h, rfl⟩
  | pinCoordinate id axis =>
      cases hslot
      exact map_toOption_eq_some.mpr ⟨_, materialize_of_holds (.coordinate axis) _ h, rfl⟩
  | pinnedPartDimension id d =>
      cases hslot
      exact map_toOption_eq_some.mpr ⟨_, materialize_of_holds (.dimension d) _ h, rfl⟩
  | readback id r =>
      cases hslot
      obtain ⟨n, hn, hheld⟩ := h
      have hheld : n.readback? r = some cell := hheld
      refine map_toOption_eq_some.mpr ⟨(cell, σ.scene), ?_, rfl⟩
      simp only [Scene.readback, hn, ok_bind, hheld]
      rfl
  | pinReadback id axis =>
      cases hslot
      obtain ⟨n, hn, hheld⟩ := h
      have hheld : n.pinReadback? axis = some cell := hheld
      refine map_toOption_eq_some.mpr ⟨(cell, σ.scene), ?_, rfl⟩
      simp only [Scene.pinReadback, hn, ok_bind, hheld]
      rfl
  | pinOrigin id slot axis =>
      cases hslot
      obtain ⟨n, hn, hheld⟩ := h
      refine map_toOption_eq_some.mpr ⟨some cell, ?_, rfl⟩
      simp only [Scene.pinOrigin?, hn, ok_bind]
      exact congrArg Except.ok hheld
  | pinTarget id slot axis =>
      cases hslot
      have hmaterialize := materialize_of_holds (.target slot axis) 0.0 h
      obtain ⟨n, hn, hheld⟩ := h
      obtain ⟨a, ha, -⟩ := Option.bind_eq_some_iff.mp hheld
      refine map_toOption_eq_some.mpr ⟨(some cell, σ.scene), ?_, rfl⟩
      simp only [Scene.pinTarget?, hn, ok_bind, ha]
      exact except_bind_eq_ok.mpr ⟨_, hmaterialize, rfl⟩
  | _ => exact hop.elim

/-- A new handle names a new node, or one that was made for a slot of the host's. -/
theorem handle_cases (hσ : Sound σ) (hallowed : op.Allowed σ)
    (h : op.outcome? σ.scene = some o) (hhandle : o.handle? = some handle) :
    σ.scene.count ≤ handle.id ∨ ∃ x : Holding, x.cell = handle.id ∧ x.role ≠ .operand ∧
      o.scene.Owns σ.HasValue x := by
  cases hslot : op.slot? with
  | none => exact .inl (count_le_of_slot?_eq_none h hhandle hslot)
  | some place =>
      obtain ⟨owner, role⟩ := place
      obtain ⟨hrole, hne⟩ := slot?_isOwning hslot
      exact .inr ⟨⟨owner, role, handle.id⟩, rfl, hne,
        (holds_of_slot? hσ hallowed h hhandle hslot).owns hrole hne⟩

theorem Next.owns (hσ : Reachable σ) (h : Next σ τ) (hx : σ.Owns x) : τ.Owns x := by
  obtain ⟨op, hallowed, hperform⟩ := h
  obtain ⟨o, ho, rfl⟩ := perform_eq_some hperform
  have hfurnished := outcome?_furnished hσ.sound hallowed ho
  have hx' : o.scene.Owns σ.HasValue x := hx.furnished hfurnished
  refine ⟨hx'.holds, hx'.isOwning, fun hrole hnamed => ?_⟩
  -- No constant turns into a cell of the host's: a new handle names something else.
  have hnew : ∀ handle, o.handle? = some handle → handle.id ≠ x.cell := by
    intro handle hhandle heq
    rcases handle_cases hσ.sound hallowed ho hhandle with hle | ⟨y, hy, hne, howns⟩
    · exact Nat.not_lt_of_le (heq ▸ hle) (hσ.separate.range x hx).2
    · obtain rfl := (hσ.separate.furnished hfurnished).unique y x howns hx' (hy.trans heq)
      exact hne hrole
  rcases hnamed with hmem | hmem <;> rcases List.mem_append.mp hmem with hmem | hmem
  · exact hnew _ (Option.mem_toList.mp hmem) rfl
  · exact hx.constant hrole (.inl hmem)
  · exact hnew _ (Option.mem_toList.mp hmem) rfl
  · exact hx.constant hrole (.inr hmem)

/-- What was made for a slot stays in it. -/
theorem Runs.owns (h : Runs σ τ) (hσ : Reachable σ) (hx : σ.Owns x) : τ.Owns x := by
  induction h with
  | refl => exact hx
  | tail hrun hnext ih => exact hnext.owns (hσ.runs hrun) ih

/-- The host never gets hold of the shared cells. -/
theorem Reachable.three_le_handle (h : Reachable σ) (hhandle : handle ∈ σ.handles) :
    3 ≤ handle.id := by
  obtain ⟨defaultSize, hrun⟩ := h
  induction hrun with
  | refl => cases hhandle
  | @tail ρ τ hrun hnext ih =>
      have hρ : Reachable ρ := ⟨defaultSize, hrun⟩
      obtain ⟨op, hallowed, hperform⟩ := hnext
      obtain ⟨o, ho, rfl⟩ := perform_eq_some hperform
      rcases List.mem_append.mp hhandle with hnew | hold
      · rcases handle_cases hρ.sound hallowed ho (Option.mem_toList.mp hnew) with
          hle | ⟨y, hy, -, howns⟩
        · exact hρ.separate.count.trans hle
        · rw [← hy]
          exact ((hρ.separate.furnished (outcome?_furnished hρ.sound hallowed ho)).range y howns).1
      · exact ih hold

theorem Reachable.follow (hσ : Reachable σ) (hallowed : op.Allowed σ)
    (h : op.outcome? σ.scene = some o) : Reachable (σ.follow op o) :=
  hσ.runs (.single ⟨op, hallowed, perform_of_outcome? h⟩)

/-- What an accessor gave out, it gives out at any later time, and leaves the scene as it is. -/
theorem outcome?_of_runs (hσ : Reachable σ) (hallowed : op.Allowed σ) (hop : op.IsAccessor)
    (h : op.outcome? σ.scene = some o) {handle : Handle} (hhandle : o.handle? = some handle)
    (hrun : Runs (σ.follow op o) τ) :
    op.outcome? τ.scene = some { scene := τ.scene, handle? := some handle } := by
  have hslot : ∃ owner role, op.slot? = some (owner, role) := by
    cases op with
    | partAttribute | readback | pinCoordinate | pinReadback | pinnedPartDimension | pinOrigin
    | pinTarget => exact ⟨_, _, rfl⟩
    | _ => exact hop.elim
  obtain ⟨owner, role, hslot⟩ := hslot
  obtain ⟨hrole, hne⟩ := slot?_isOwning hslot
  have howns : (σ.follow op o).Owns ⟨owner, role, handle.id⟩ :=
    (holds_of_slot? hσ.sound hallowed h hhandle hslot).owns hrole hne
  rw [handle_of_accessor hop h hhandle]
  exact outcome?_of_holds hop hslot (hrun.owns (hσ.follow hallowed h) howns).holds

/-- Once a pin is attached, attaching it again leaves the scene as it is. -/
theorem attachPin_of_runs (hσ : Reachable σ) {part : NodeId} {slot : PinSlot}
    {origin : Point Float} (hallowed : (Operation.attachPin part slot origin).Allowed σ)
    (h : (Operation.attachPin part slot origin).outcome? σ.scene = some o)
    (hrun : Runs (σ.follow (.attachPin part slot origin) o) τ) (origin' : Point Float) :
    (Operation.attachPin part slot origin').outcome? τ.scene = some (.ofScene τ.scene) := by
  obtain ⟨t, ht, rfl⟩ := map_toOption_eq_some.mp h
  obtain ⟨cell, hcell⟩ := attachPin_holds (hσ.sound.handles _ hallowed) ht
  have howns : (σ.follow (.attachPin part slot origin) (.ofScene t)).Owns
      ⟨part, .origin slot .x, cell⟩ := ⟨hcell, trivial, nofun⟩
  exact map_toOption_eq_some.mpr
    ⟨_, attachPin_of_holds origin' (hrun.owns (hσ.follow hallowed h) howns).holds, rfl⟩

end Session

end SceneGraph
