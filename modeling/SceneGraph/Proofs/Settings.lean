import SceneGraph.Proofs.Accessors

/-!
What setting a cell changes.

Setting an attribute, a coordinate, a dimension or a target sets the base value of one cell,
and with it the number of the cell and of its base.  Since no node is made for two slots, all
other cells keep their numbers and their base values (`Session.outcome?_realizes`).
-/

namespace SceneGraph

theorem Node.value_fillTarget (slot : PinSlot) (axis : Axis) (cell : NodeId) (n : Node) :
    (n.fillTarget slot axis cell).value = n.value := by
  unfold fillTarget
  cases n.attachment? slot with
  | none => rfl
  | some a => cases n <;> rfl

namespace Scene

variable {named : NodeId → Prop} {s t u : Scene} {owner id cell : NodeId}
  {f : Node → Node} {news : List Node} {n : Node}

/-- Adding something changes no number. -/
theorem Adds.value (h : Adds named s owner f news) (n : Node) : (f n).value = n.value := by
  cases h with
  | blank | calculated => rfl
  | cell slot =>
      cases slot with
      | target slot axis => exact n.value_fillTarget slot axis _
      | _ => cases n <;> rfl
  | _ => cases n <;> rfl

theorem value_eq_of_node {n n' : Node} (hn : s.node id = .ok n) (hn' : t.node id = .ok n')
    (h : n'.value = n.value) : t.value id = s.value id := by
  unfold value
  rw [hn, hn', ok_bind, ok_bind, h]

theorem Addition.value (h : Addition named s t) (hid : id < s.count) :
    t.value id = s.value id := by
  obtain ⟨owner, f, news, hadds, hextends⟩ := h
  obtain ⟨n, hn⟩ := node_of_lt_count hid
  apply value_eq_of_node hn (hextends.old id n hn)
  split
  · exact hadds.value n
  · rfl

theorem Additions.count_le (h : Additions named s t) : s.count ≤ t.count := by
  induction h with
  | refl => exact Nat.le_refl _
  | tail _ hstep ih =>
      obtain ⟨owner, f, news, -, hextends⟩ := hstep
      rw [hextends.count]
      exact ih.trans (Nat.le_add_right _ _)

theorem Additions.value (h : Additions named s t) (hid : id < s.count) :
    t.value id = s.value id := by
  induction h with
  | refl => rfl
  | tail hadds hstep ih => exact (hstep.value (hid.trans_le (Additions.count_le hadds))).trans ih

theorem Changes.develops (h : Changes named s t) : Develops s t := by
  induction h with
  | refl => exact .refl s
  | tail _ hstep ih => exact ih.trans hstep.develops

theorem baseValue_of_node {c : Calculated} (hn : s.node id = .ok (.calculated c)) :
    s.baseValue id = s.value c.base := by
  unfold baseValue
  rw [hn, ok_bind]

/-- A base value is the number of the cell of the base, and that is the same cell for good. -/
theorem baseValue_eq (hst : Develops s t) (hn : s.node id = .ok n)
    (h : ∀ c, n = .calculated c → t.value c.base = s.value c.base) :
    t.baseValue id = s.baseValue id := by
  obtain ⟨n', hn', hdevelops⟩ := hst id n hn
  cases n with
  | calculated c =>
      obtain ⟨c', rfl, hbase⟩ := hdevelops.calculated
      rw [baseValue_of_node hn, baseValue_of_node hn', hbase]
      exact h c rfl
  | _ =>
      unfold baseValue
      rw [hn, hn', ok_bind, ok_bind]
      cases n' with
      | calculated c' => cases hdevelops.core
      | _ => rfl

/-- What a base value is set to becomes the number of the value and of its base. -/
theorem setBaseValue_value {c : Calculated} {v : Float} (hcell : s.node cell = .ok (.calculated c))
    (hbase : s.IsPlain c.base) (h : s.setBaseValue cell v = .ok t) :
    t.value cell = .ok v ∧ t.value c.base = .ok v ∧
      ∀ id, id ≠ cell → id ≠ c.base → t.value id = s.value id := by
  unfold setBaseValue at h
  rw [hcell, ok_bind] at h
  obtain ⟨u, hu, ht⟩ := except_bind_eq_ok.mp h
  have hne : cell ≠ c.base := by
    intro heq
    obtain ⟨b, hb⟩ := hbase
    rw [← heq, hcell] at hb
    cases hb
  have hplain : u.IsPlain c.base :=
    hbase.mono (.of_wiring (s.setValue_rewrites cell v u hu).alike.wiring)
  refine ⟨?_, ?_, fun id hid hid' => ?_⟩
  · rw [value_update_of_ne ht hne]
    exact value_setValue_self (HasKind.of_node hcell trivial) hu
  · exact value_setValue_self (hplain.hasKind.imp fun _ hk => hk ▸ trivial) ht
  · rw [value_update_of_ne ht hid', value_update_of_ne hu hid]

/-- Some cells were set to numbers, each with its base, and nothing else. -/
structure Sets (cells : List (NodeId × Float)) (s t : Scene) : Prop where
  result : ∀ e ∈ cells, t.value e.1 = .ok e.2 ∧ t.baseValue e.1 = .ok e.2
  values : ∀ id < s.count, id ∉ cells.map Prod.fst →
    (∀ cell ∈ cells.map Prod.fst, ¬ t.Holds ⟨cell, .base, id⟩) → t.value id = s.value id
  baseValues : ∀ id < s.count, id ∉ cells.map Prod.fst → t.baseValue id = s.baseValue id

theorem exists_calculated (h : s.IsCalculated cell) : ∃ c, s.node cell = .ok (.calculated c) := by
  obtain ⟨n, hn, hkind⟩ := h
  cases n with
  | calculated c => exact ⟨c, hn⟩
  | part p => cases hmodel : p.model <;> simp [Node.kind, hmodel] at hkind
  | _ => cases hkind

/-- Setting the base value of one calculated value. -/
theorem setBaseValue_sets (hseparate : s.Separate named) (hnarrow : s.Narrow)
    (hcell : s.IsCalculated cell) {v : Float} (h : s.setBaseValue cell v = .ok t) :
    Sets [(cell, v)] s t := by
  obtain ⟨c, hn⟩ := exists_calculated hcell
  obtain ⟨hself, hbase, hothers⟩ := setBaseValue_value hn (hnarrow cell _ hn).1 h
  have hwiring := (s.setBaseValue_rewrites cell v t h).alike.wiring
  refine ⟨fun e he => ?_, fun id hid hnot hbases => ?_, fun id hid hnot => ?_⟩
  · obtain rfl := List.mem_singleton.mp he
    obtain ⟨n', hn', hdevelops⟩ := Develops.of_wiring hwiring cell _ hn
    obtain ⟨c', rfl, hsame⟩ := hdevelops.calculated
    refine ⟨hself, ?_⟩
    rw [baseValue_of_node hn', hsame, hbase]
  · simp only [List.map_cons, List.map_nil, List.mem_singleton] at hnot hbases
    apply hothers id hnot
    rintro rfl
    have hheld : s.Holds ⟨cell, .base, c.base⟩ := ⟨_, hn, rfl⟩
    exact hbases cell rfl
      ((holds_of_wiring (x := ⟨cell, .base, c.base⟩) hwiring trivial).mpr hheld)
  · simp only [List.map_cons, List.map_nil, List.mem_singleton] at hnot
    obtain ⟨n, hn'⟩ := node_of_lt_count hid
    apply baseValue_eq (.of_wiring hwiring) hn'
    rintro c' rfl
    apply hothers
    · intro heq
      obtain ⟨b, hb⟩ := (hnarrow id _ hn').1
      rw [heq, hn] at hb
      cases hb
    · intro heq
      have howns : ∀ {id c}, s.node id = .ok (.calculated c) →
          s.Owns named ⟨id, .base, c.base⟩ := fun hc => ⟨⟨_, hc, rfl⟩, trivial, nofun⟩
      exact hnot (congrArg Holding.owner (hseparate.unique _ _ (howns hn') (howns hn) heq))

/-- Adding something first makes no difference. -/
theorem Additions.sets {cells : List (NodeId × Float)} (hadds : Additions named s t)
    (hs : s.WellFormed) (h : Sets cells t u) : Sets cells s u := by
  have hcount := Additions.count_le hadds
  refine ⟨h.result, fun id hid hnot hbases => ?_, fun id hid hnot => ?_⟩
  · exact (h.values id (hid.trans_le hcount) hnot hbases).trans (Additions.value hadds hid)
  · rw [h.baseValues id (hid.trans_le hcount) hnot]
    obtain ⟨n, hn⟩ := node_of_lt_count hid
    apply baseValue_eq (Changes.develops (Additions.changes hadds)) hn
    rintro c rfl
    exact Additions.value hadds (hs.fits id _ hn).1.lt_count

/-- Setting some cells and then others. -/
theorem Sets.trans {cells cells' : List (NodeId × Float)} (h : Sets cells s t)
    (h' : Sets cells' t u) (hst : Develops s t) (htu : Develops t u)
    (hcount : ∀ cell ∈ cells.map Prod.fst, cell < t.count)
    (hne : ∀ cell ∈ cells.map Prod.fst, cell ∉ cells'.map Prod.fst ∧
      ∀ cell' ∈ cells'.map Prod.fst, ¬ u.Holds ⟨cell', .base, cell⟩) :
    Sets (cells ++ cells') s u := by
  have hholds : ∀ {cell base}, t.Holds ⟨cell, .base, base⟩ → u.Holds ⟨cell, .base, base⟩ := by
    rintro cell base ⟨n, hn, hheld⟩
    obtain ⟨n', hn', hdevelops⟩ := htu cell n hn
    cases n with
    | calculated c =>
        obtain ⟨c', rfl, hbase⟩ := hdevelops.calculated
        exact ⟨_, hn', (congrArg some hbase).trans hheld⟩
    | _ => cases hheld
  refine ⟨fun e he => ?_, fun id hid hnot hbases => ?_, fun id hid hnot => ?_⟩
  · rcases List.mem_append.mp he with he | he
    · have hmem : e.1 ∈ cells.map Prod.fst := List.mem_map_of_mem he
      obtain ⟨hvalue, hbase⟩ := h.result e he
      rw [h'.values e.1 (hcount _ hmem) (hne _ hmem).1 (hne _ hmem).2,
        h'.baseValues e.1 (hcount _ hmem) (hne _ hmem).1]
      exact ⟨hvalue, hbase⟩
    · exact h'.result e he
  · rw [List.map_append, List.mem_append, not_or] at hnot
    rw [List.map_append, List.forall_mem_append] at hbases
    rw [h'.values id (hst.lt_count hid) hnot.2 hbases.2]
    exact h.values id hid hnot.1 fun cell hcell hheld => hbases.1 cell hcell (hholds hheld)
  · rw [List.map_append, List.mem_append, not_or] at hnot
    rw [h'.baseValues id (hst.lt_count hid) hnot.2]
    exact h.baseValues id hid hnot.1

/-- A scene as its operations leave it, for some cells that the host can name. -/
structure Tidy (named : NodeId → Prop) (s : Scene) : Prop where
  wellFormed : s.WellFormed
  narrow : s.Narrow
  separate : s.Separate named
  named : ∀ cell, named cell → s.IsValue cell

theorem Changes.furnished (h : Changes named s t) : Furnished named s t :=
  Relation.ReflTransGen.mono (fun _ _ => Change.furnishes) _ _ h

theorem Tidy.changes (hs : s.Tidy named) (hbuilds : Builds s t) (h : Changes named s t) :
    t.Tidy named where
  wellFormed := hbuilds.wellFormed
  narrow := Changes.narrow h hs.narrow hs.named
  separate := hs.separate.furnished (Changes.furnished h)
  named cell hcell := (hs.named cell hcell).mono hbuilds.develops

theorem Tidy.owns_unique (hs : s.Tidy named) {owner' : NodeId} {role role' : Role}
    (h : s.Holds ⟨owner, role, cell⟩) (h' : s.Holds ⟨owner', role', cell⟩)
    (hrole : role.IsOwning ∧ role ≠ .operand) (hrole' : role'.IsOwning ∧ role' ≠ .operand) :
    role = role' :=
  congrArg Holding.role (hs.separate.unique ⟨owner, role, cell⟩ ⟨owner', role', cell⟩
    (h.owns hrole.1 hrole.2) (h'.owns hrole'.1 hrole'.2) rfl)

/-- Setting the base value of a cell that is accessed. -/
theorem setBaseOf_sets (hs : s.Tidy named) {access : Except OutOfRange (NodeId × Scene)}
    (hadds : ∀ cell t, access = .ok (cell, t) → Additions named s t)
    (hbuilds : ∀ cell t, access = .ok (cell, t) → Builds s t ∧ t.IsCalculated cell) {v : Float}
    (h : setBaseOf access v = .ok (cell, u)) : Sets [(cell, v)] s u := by
  obtain ⟨⟨found, t⟩, ht, hrest⟩ := except_bind_eq_ok.mp h
  obtain ⟨u', hu, hr⟩ := except_bind_eq_ok.mp hrest
  cases hr
  obtain ⟨hbuilt, hcell⟩ := hbuilds cell t ht
  have htidy := hs.changes hbuilt (Additions.changes (hadds cell t ht))
  exact Additions.sets (hadds cell t ht) hs.wellFormed
    (setBaseValue_sets htidy.separate htidy.narrow hcell hu)

section Target

variable {slot : PinSlot} {axis : Axis} {v : Float}

theorem setPinTargetAxis_of_detached (hnot : ∀ axis c, ¬ s.Holds ⟨owner, .origin slot axis, c⟩)
    (h : s.setPinTargetAxis owner slot axis v = .ok t) : t = s := by
  obtain ⟨⟨cell?, u⟩, hu, hrest⟩ := except_bind_eq_ok.mp h
  obtain ⟨n, hn, hu⟩ := except_bind_eq_ok.mp hu
  cases hslot : n.attachment? slot with
  | none =>
      rw [hslot] at hu
      cases hu
      exact (Except.ok.inj hrest).symm
  | some a => exact (hnot .x a.originX ⟨n, hn, Option.map_eq_some_iff.mpr ⟨a, hslot, rfl⟩⟩).elim

theorem setPinTargetAxis_sets (hs : s.Tidy named) {axis' : Axis}
    (hattached : s.Holds ⟨owner, .origin slot axis', id⟩)
    (h : s.setPinTargetAxis owner slot axis v = .ok u) :
    ∃ cell, u.Holds ⟨owner, .pinTarget slot axis, cell⟩ ∧ cell < u.count ∧
      Sets [(cell, v)] s u := by
  obtain ⟨⟨cell?, t⟩, ht, hrest⟩ := except_bind_eq_ok.mp h
  cases cell? with
  | none =>
      obtain ⟨n, hn, hheld⟩ := hattached
      obtain ⟨a, ha, -⟩ := Option.map_eq_some_iff.mp hheld
      obtain ⟨n', hn', ht⟩ := except_bind_eq_ok.mp ht
      obtain rfl := node_unique hn hn'
      rw [ha] at ht
      obtain ⟨⟨cell, u⟩, -, hr⟩ := except_bind_eq_ok.mp ht
      cases hr
  | some cell =>
      have hadds : Additions named s t := pinTarget?_adds ht
      obtain ⟨hbuilt, hcell⟩ := pinTarget?_builds hs.wellFormed ht
      have htidy := hs.changes hbuilt (Additions.changes hadds)
      have hwiring := (t.setBaseValue_rewrites cell v u hrest).alike.wiring
      refine ⟨cell, (holds_of_wiring (x := ⟨owner, .pinTarget slot axis, cell⟩) hwiring
        trivial).mpr (pinTarget?_holds ht rfl), ?_, ?_⟩
      · exact count_eq_of_wiring hwiring ▸ (hcell cell rfl).lt_count
      · exact Additions.sets hadds hs.wellFormed
          (setBaseValue_sets htidy.separate htidy.narrow (hcell cell rfl) hrest)

/-- Both coordinates of a target, behind which there are different cells. -/
theorem setPinTarget_sets (hs : s.Tidy named) {target : Point Float}
    (hattached : s.Holds ⟨owner, .origin slot axis, id⟩)
    (h : s.setPinTarget owner slot target = .ok u) :
    ∃ x y, u.Holds ⟨owner, .pinTarget slot .x, x⟩ ∧ u.Holds ⟨owner, .pinTarget slot .y, y⟩ ∧
      Sets [(x, target.x), (y, target.y)] s u := by
  obtain ⟨t, ht, hu⟩ := except_bind_eq_ok.mp h
  have hbuilt := setPinTargetAxis_builds hs.wellFormed ht
  have hbuilt' := setPinTargetAxis_builds hbuilt.wellFormed hu
  have hchanges : Changes named s t := setPinTargetAxis_changes ht
  have hchanges' : Changes named t u := setPinTargetAxis_changes hu
  have htidy := hs.changes hbuilt hchanges
  have htidy' := htidy.changes hbuilt' hchanges'
  obtain ⟨x, hx, hlt, hsets⟩ := setPinTargetAxis_sets hs hattached ht
  have hattached' := Furnished.kept (x := ⟨owner, .origin slot axis, id⟩)
    (Changes.furnished hchanges) trivial hattached
  obtain ⟨y, hy, -, hsets'⟩ := setPinTargetAxis_sets htidy hattached' hu
  have hx' := Furnished.kept (x := ⟨owner, .pinTarget slot .x, x⟩)
    (Changes.furnished hchanges') trivial hx
  refine ⟨x, y, hx', hy, hsets.trans hsets' hbuilt.develops hbuilt'.develops ?_ ?_⟩
  · simpa using hlt
  · simp only [List.map_cons, List.map_nil, List.mem_singleton, forall_eq]
    constructor
    · rintro rfl
      cases htidy'.owns_unique hx' hy ⟨trivial, nofun⟩ ⟨trivial, nofun⟩
    · intro hbase
      cases htidy'.owns_unique hx' hbase ⟨trivial, nofun⟩ ⟨trivial, nofun⟩

end Target

end Scene

/-- A slot and the number that is to be set behind it. -/
structure Setting where
  owner : NodeId
  role : Role
  value : Float

/-- What an operation sets. -/
def Operation.settings : Operation → List Setting
  | .setPartAttribute id a v => [⟨id, .attribute a, v⟩]
  | .setPinCoordinate id axis v => [⟨id, .coordinate axis, v⟩]
  | .setPinnedPartDimension id d v => [⟨id, .dimension d, v⟩]
  | .setPinTarget id slot target =>
    [⟨id, .pinTarget slot .x, target.x⟩, ⟨id, .pinTarget slot .y, target.y⟩]
  | _ => []

/-- The cells behind some slots were set, each with its base, and nothing else. -/
def Scene.Realizes (settings : List Setting) (s t : Scene) : Prop :=
  ∃ cells : List (NodeId × Float), List.Forall₂
    (fun (x : Setting) e => t.Holds ⟨x.owner, x.role, e.1⟩ ∧ e.2 = x.value) settings cells ∧
    Scene.Sets cells s t

/-- Setting calculated values leaves all other cells alone, unless they are bases. -/
theorem Scene.Sets.scalar {s t : Scene} {x : NodeId} {cells : List (NodeId × Float)}
    (h : Scene.Sets cells s t) (hst : Scene.Develops s t)
    (hcells : ∀ cell ∈ cells.map Prod.fst, t.IsCalculated cell)
    (hx : s.HasKind (· = .scalar) x) (hbase : ∀ owner, ¬ t.Holds ⟨owner, .base, x⟩) :
    t.value x = s.value x := by
  refine h.values x hx.lt_count (fun hmem => ?_) fun owner _ => hbase owner
  cases (hcells x hmem).of_kind (hx.mono hst)

theorem Scene.Realizes.scalar {s t : Scene} {x : NodeId} {settings : List Setting}
    (h : Scene.Realizes settings s t) (hst : Scene.Develops s t)
    (hsettings : ∀ y ∈ settings, ∀ cell, t.Holds ⟨y.owner, y.role, cell⟩ → t.IsCalculated cell)
    (hx : s.HasKind (· = .scalar) x) (hbase : ∀ owner, ¬ t.Holds ⟨owner, .base, x⟩) :
    t.value x = s.value x := by
  obtain ⟨cells, hcells, hsets⟩ := h
  refine hsets.scalar hst ?_ hx hbase
  clear hsets
  induction hcells with
  | nil => exact nofun
  | cons hcell _ ih =>
      rw [List.forall_mem_cons] at hsettings
      rw [List.map_cons, List.forall_mem_cons]
      exact ⟨hsettings.1 _ hcell.1, ih hsettings.2⟩

/-- The operation is about a pin that is not attached. -/
def Operation.IsIdle (s : Scene) : Operation → Prop
  | .setPinTarget id slot _ => ∀ axis cell, ¬ s.Holds ⟨id, .origin slot axis, cell⟩
  | _ => False

namespace Session

open Scene Operation

variable {σ : Session} {op : Operation} {o : Outcome}

theorem Reachable.tidy (h : Reachable σ) : σ.scene.Tidy σ.HasValue where
  wellFormed := h.sound.wellFormed
  narrow := h.strict.links
  separate := h.separate
  named _ := h.strict.isValue

theorem realizes_of_setBaseOf (hσ : Reachable σ) {access : Except OutOfRange (NodeId × Scene)}
    {owner cell : NodeId} {role : Role} {v : Float} {u : Scene} (hrole : role.IsOwning)
    (hadds : ∀ cell t, access = .ok (cell, t) → Additions σ.HasValue σ.scene t)
    (hbuilds : ∀ cell t, access = .ok (cell, t) → Builds σ.scene t ∧ t.IsCalculated cell)
    (hholds : ∀ cell t, access = .ok (cell, t) → t.Holds ⟨owner, role, cell⟩)
    (h : setBaseOf access v = .ok (cell, u)) :
    Realizes [⟨owner, role, v⟩] σ.scene u :=
  ⟨[(cell, v)], .cons ⟨setBaseOf_holds hrole hholds h, rfl⟩ .nil,
    setBaseOf_sets hσ.tidy hadds hbuilds h⟩

/-- Setting an attribute, a coordinate, a dimension or a target. -/
theorem outcome?_realizes (hσ : Reachable σ) (hallowed : op.Allowed σ)
    (h : op.outcome? σ.scene = some o) (hop : op.settings ≠ []) :
    Realizes op.settings σ.scene o.scene ∨ op.IsIdle σ.scene ∧ o.scene = σ.scene := by
  have hs := hσ.sound.wellFormed
  cases op with
  | setPartAttribute id a v =>
      obtain ⟨⟨cell, u⟩, hu, rfl⟩ := map_toOption_eq_some.mp h
      exact .inl (realizes_of_setBaseOf hσ trivial (fun _ _ => materialize_adds (.attribute a))
        (fun _ _ => partAttribute_builds hs)
        (fun _ _ => partAttribute_holds (hσ.sound.isPart hallowed)) hu)
  | setPinCoordinate id axis v =>
      obtain ⟨⟨cell, u⟩, hu, rfl⟩ := map_toOption_eq_some.mp h
      exact .inl (realizes_of_setBaseOf hσ trivial (fun _ _ => materialize_adds (.coordinate axis))
        (fun _ _ => pinCoordinate_builds hs)
        (fun _ _ => pinCoordinate_holds (hσ.sound.handles _ hallowed)) hu)
  | setPinnedPartDimension id d v =>
      obtain ⟨⟨cell, u⟩, hu, rfl⟩ := map_toOption_eq_some.mp h
      exact .inl (realizes_of_setBaseOf hσ trivial (fun _ _ => materialize_adds (.dimension d))
        (fun _ _ => pinnedPartDimension_builds hs)
        (fun _ _ => pinnedPartDimension_holds (hσ.sound.handles _ hallowed)) hu)
  | setPinTarget id slot target =>
      obtain ⟨u, hu, rfl⟩ := map_toOption_eq_some.mp h
      by_cases hattached : ∃ axis cell, σ.scene.Holds ⟨id, .origin slot axis, cell⟩
      · obtain ⟨axis, cell, hheld⟩ := hattached
        obtain ⟨x, y, hx, hy, hsets⟩ := setPinTarget_sets hσ.tidy hheld hu
        exact .inl ⟨[(x, target.x), (y, target.y)],
          .cons ⟨hx, rfl⟩ (.cons ⟨hy, rfl⟩ .nil), hsets⟩
      · have hnot : ∀ axis cell, ¬ σ.scene.Holds ⟨id, .origin slot axis, cell⟩ :=
          fun axis cell hheld => hattached ⟨axis, cell, hheld⟩
        obtain ⟨t, ht, hu⟩ := except_bind_eq_ok.mp hu
        obtain rfl := setPinTargetAxis_of_detached hnot ht
        exact .inr ⟨hnot, setPinTargetAxis_of_detached hnot hu⟩
  | _ => exact (hop rfl).elim

/-- Settings are about calculated values. -/
theorem calculated_of_settings (hσ : Reachable σ) : ∀ y ∈ op.settings, ∀ cell,
    σ.scene.Holds ⟨y.owner, y.role, cell⟩ → σ.scene.IsCalculated cell := by
  rintro y hy cell ⟨n, hn, hheld⟩
  have hserves := hσ.serves hn hheld
  cases op with
  | setPartAttribute | setPinCoordinate | setPinnedPartDimension =>
      obtain rfl := List.mem_singleton.mp hy
      exact hserves
  | setPinTarget =>
      rcases List.mem_cons.mp hy with rfl | hy
      · exact hserves
      · obtain rfl := List.mem_singleton.mp hy
        exact hserves
  | _ => cases hy

end Session

end SceneGraph
