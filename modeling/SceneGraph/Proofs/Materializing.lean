import SceneGraph.Proofs.Lockstep

/-!
What is made on first access.

An attribute, a coordinate or a dimension that nobody asked for is read as a default.  The cell
that it gets when it is asked for starts from the same number, and a read-back is read by nobody
else.  So an accessor makes no difference to what is rendered.  Main statement:
`Session.materializing_neutral`.
-/

namespace SceneGraph

namespace Widening

variable {γ : Widening}

/-- Nothing is made that is read in the place of something else. -/
def still (first : NodeId) : Widening where
  first
  shared := Scene.zeroCell
  cell := Scene.zeroCell
  base := 0.0
  apart := .inl rfl
  zero _ := rfl

section Filling

variable {ι : Type} [DecidableEq ι] {slots : Slots ι} {i : ι}

theorem Fills.fill {shared : ι → NodeId} (hempty : slots i = none) (hi : shared i = γ.shared)
    (j : ι) : γ.Fills (shared j) (slots j) (slots.fill i γ.cell j) := by
  by_cases h : j = i
  · subst h
    exact .inr ⟨hi, hempty, Slots.fill_self slots j γ.cell⟩
  · exact .inl (Slots.fill_of_ne slots h _)

theorem Adds.fill {x : NodeId} (hempty : slots i = none) (hx : γ.first ≤ x) (hne : x ≠ γ.cell)
    (j : ι) : γ.Adds (slots j) (slots.fill i x j) := by
  by_cases h : j = i
  · subst h
    exact .inr ⟨hempty, x, Slots.fill_self slots j x, hx, hne⟩
  · exact .inl (Slots.fill_of_ne slots h _)

end Filling

end Widening

variable {γ : Widening}

namespace Node

variable {n : Node} {x : NodeId}

theorem widens_fillAttribute {a : PartAttribute} (hempty : n.attribute? a = none)
    (ha : a.sharedCell = γ.shared) : n.Widens γ (n.fillAttribute a γ.cell) := by
  cases n with
  | part p => exact .part ⟨rfl, rfl, rfl, Widening.Fills.fill hempty ha, fun _ => .inl rfl⟩
  | _ => exact .refl _

theorem widens_fillCoordinate {axis : Axis} (hempty : n.coordinate? axis = none)
    (hzero : Scene.zeroCell = γ.shared) : n.Widens γ (n.fillCoordinate axis γ.cell) := by
  cases n with
  | pin p =>
      have hempty : p.coordinates axis = none := hempty
      exact .pin ⟨rfl, rfl, Widening.Fills.fill hempty hzero, fun _ => .inl rfl⟩
  | _ => exact .refl _

theorem widens_fillDimension {d : Dimension} (hempty : n.dimension? d = none)
    (hsize : Scene.sizeCell = γ.shared) : n.Widens γ (n.fillDimension d γ.cell) := by
  cases n with
  | pinnedPart p =>
      have hempty : p.size d = none := hempty
      exact .pinnedPart ⟨rfl, rfl, rfl, Widening.Fills.fill hempty hsize, fun _ => .inl rfl⟩
  | _ => exact .refl _

theorem widens_fillReadback {r : Readback} (hempty : n.readback? r = none) (hx : γ.first ≤ x)
    (hne : x ≠ γ.cell) : n.Widens γ (n.fillReadback r x) := by
  cases n with
  | part p =>
      exact .part ⟨rfl, rfl, rfl, fun _ => .inl rfl, Widening.Adds.fill hempty hx hne⟩
  | pinnedPart p =>
      exact .pinnedPart ⟨rfl, rfl, rfl, fun _ => .inl rfl, Widening.Adds.fill hempty hx hne⟩
  | _ => exact .refl _

theorem widens_fillPinReadback {axis : Axis} (hempty : n.pinReadback? axis = none)
    (hx : γ.first ≤ x) (hne : x ≠ γ.cell) : n.Widens γ (n.fillPinReadback axis x) := by
  cases n with
  | pin p => exact .pin ⟨rfl, rfl, fun _ => .inl rfl, Widening.Adds.fill hempty hx hne⟩
  | _ => exact .refl _

/-- The first read-back of a pin is its only one. -/
theorem eq_of_fillPinReadback {axis axis' : Axis} {y : NodeId}
    (hbare : ∀ axis, n.pinReadback? axis = none)
    (h : (n.fillPinReadback axis x).pinReadback? axis' = some y) : y = x := by
  cases n with
  | pin p =>
      have hfill : p.readbacks.fill axis x axis' = some y := h
      by_cases heq : axis' = axis
      · rw [heq, Slots.fill_self] at hfill
        exact (Option.some.inj hfill).symm
      · rw [Slots.fill_of_ne p.readbacks heq] at hfill
        have hnone : p.readbacks axis' = none := hbare axis'
        rw [hnone] at hfill
        cases hfill
  | _ => cases h

end Node

namespace Scene

variable {s t u : Scene} {owner cell x : NodeId} {f : Node → Node} {news : List Node} {n : Node}

/-- What an accessor makes of a scene holds no new inputs. -/
structure Supplements (γ : Widening) (s t : Scene) : Prop where
  widens : s.Widens γ t
  inputless : ∀ id, γ.first ≤ id → ¬ t.HasKind (· = .input) id

theorem Supplements.still (hzero : s.node zeroCell = .ok (.scalar 0.0 none)) :
    s.Supplements (.still s.count) s where
  widens := ⟨rfl, fun _ n hn => ⟨n, hn, .refl n⟩, hzero, ⟨_, hzero, .scalar⟩⟩
  inputless _ hid hinput := absurd hid (Nat.not_le_of_lt hinput.lt_count)

theorem Extends.inputless (h : s.Extends t owner f news) (hnews : ∀ n ∈ news, n.kind ≠ .input)
    {id : NodeId} (hid : s.count ≤ id) : ¬ t.HasKind (· = .input) id := by
  rintro ⟨n, hn, hkind⟩
  rcases h.node_cases hn with ⟨m, hm, -⟩ | ⟨i, -, hi⟩
  · exact Nat.not_le_of_lt (lt_count_of_node hm) hid
  · exact hnews n (List.mem_of_getElem? hi) hkind

theorem Extends.supplements (h : s.Extends t owner f news) (hnews : ∀ n ∈ news, n.kind ≠ .input)
    (hfirst : s.count = γ.first) (hf : ∀ n, s.node owner = .ok n → n.Widens γ (f n))
    (hshared : s.node γ.shared = .ok (.scalar γ.base none))
    (hcell : γ.cell ≠ γ.shared → ∃ n, t.node γ.cell = .ok n ∧ n.IsConstant γ.base) :
    s.Supplements γ t := by
  have hnode : ∀ id n, s.node id = .ok n → ∃ n', t.node id = .ok n' ∧ n.Widens γ n' := by
    intro id n hn
    refine ⟨_, h.old id n hn, ?_⟩
    split
    · next heq => exact hf n (heq ▸ hn)
    · exact .refl n
  refine ⟨⟨hfirst, hnode, hshared, ?_⟩, fun id hid => h.inputless hnews (hfirst ▸ hid)⟩
  by_cases heq : γ.cell = γ.shared
  · obtain ⟨n', hn', hwidens⟩ := hnode _ _ hshared
    cases hwidens
    exact ⟨_, heq ▸ hn', .scalar⟩
  · exact hcell heq

/-- A cell that is made for a slot starts from what was read in the empty slot. -/
theorem materialize_supplements (slot : CellSlot) {shared : NodeId} {base : Float}
    (hzero : s.node zeroCell = .ok (.scalar 0.0 none))
    (hshared : s.node shared = .ok (.scalar base none)) (hbase : shared = zeroCell → base = 0.0)
    (hfill : ∀ γ : Widening, γ.shared = shared → ∀ n, slot.cell? n = none →
      n.Widens γ (slot.fill γ.cell n))
    (h : s.materialize owner slot.cell? slot.fill base = .ok (cell, t)) :
    ∃ γ, s.Supplements γ t := by
  rcases materialize_cases slot h with rfl | ⟨n, hn, hempty, hextends⟩
  · exact ⟨_, .still hzero⟩
  · refine ⟨⟨s.count, shared, s.count + 1, base, .inr (Nat.le_succ _), hbase⟩,
      hextends.supplements (by simp [cellNodes, Node.kind]) rfl (fun m hm => ?_) hshared
        fun _ => ?_⟩
    · obtain rfl := node_unique hn hm
      exact hfill _ rfl n hempty
    · exact ⟨_, hextends.new 1 _ rfl, .calculated s.count⟩

theorem readback_supplements {r : Readback} (hzero : s.node zeroCell = .ok (.scalar 0.0 none))
    (h : s.readback owner r = .ok (cell, t)) : ∃ γ, s.Supplements γ t := by
  rcases readback_cases h with rfl | ⟨n, v, hn, hempty, hextends⟩
  · exact ⟨_, .still hzero⟩
  · have hnew : s.count ≠ zeroCell := Nat.ne_of_gt (lt_count_of_node hzero)
    refine ⟨.still s.count, hextends.supplements (by simp [Node.kind]) rfl (fun m hm => ?_) hzero
      fun hne => absurd rfl hne⟩
    obtain rfl := node_unique hn hm
    exact Node.widens_fillReadback hempty (Nat.le_refl _) hnew

/-- Numbers that are written to new nodes make no difference. -/
theorem Widens.setSlotNew {slot : Option NodeId} {v : Float} (h : s.Widens γ t)
    (hslot : ∀ x, slot = some x → γ.first ≤ x ∧ x ≠ γ.cell)
    (ht : t.setSlotValue slot v = .ok u) : s.Widens γ u := by
  cases slot with
  | none =>
      cases ht
      exact h
  | some x =>
      obtain ⟨hx, hne⟩ := hslot x rfl
      exact h.setNew hx hne ht

/-- A pin that had nothing to refresh is refreshed. -/
theorem Widens.refreshNew (h : s.Widens γ t) (hn : t.node owner = .ok n)
    (hslots : ∀ axis x, n.pinReadback? axis = some x → γ.first ≤ x ∧ x ≠ γ.cell)
    (ht : t.refreshPin owner = .ok u) : s.Widens γ u := by
  obtain ⟨position, -, ht⟩ := except_bind_eq_ok.mp ht
  cases position with
  | none =>
      cases ht
      exact h
  | some world =>
      simp only [hn, ok_bind] at ht
      obtain ⟨v, hv, ht⟩ := except_bind_eq_ok.mp ht
      exact (h.setSlotNew (hslots .x) hv).setSlotNew (hslots .y) ht

theorem pinReadback_supplements {axis : Axis} (hzero : s.node zeroCell = .ok (.scalar 0.0 none))
    (hbare : ∀ n axis, s.node owner = .ok n → n.pinReadback? axis = none)
    (h : s.pinReadback owner axis = .ok (cell, t)) : ∃ γ, s.Supplements γ t := by
  rcases pinReadback_cases h with rfl | ⟨n, u, hn, hempty, hextends, hrefresh⟩
  · exact ⟨_, .still hzero⟩
  · have hnew : s.count ≠ zeroCell := Nat.ne_of_gt (lt_count_of_node hzero)
    have hsupplements : s.Supplements (.still s.count) u := by
      refine hextends.supplements (by simp [Node.kind]) rfl (fun m hm => ?_) hzero fun hne =>
        absurd rfl hne
      obtain rfl := node_unique hn hm
      exact Node.widens_fillPinReadback hempty (Nat.le_refl _) hnew
    have hwiring := (u.refreshPin_rewrites owner t hrefresh).alike.wiring
    refine ⟨.still s.count, hsupplements.widens.refreshNew ((hextends.old owner n hn).trans
      (congrArg _ (if_pos rfl))) (fun axis' x hx => ?_) hrefresh, fun id hid hinput => ?_⟩
    · obtain rfl := Node.eq_of_fillPinReadback (hbare n · hn) hx
      exact ⟨Nat.le_refl _, hnew⟩
    · exact hsupplements.inputless id hid (hinput.mono (.of_wiring hwiring.symm))

/-- All nodes of the first scene are in the second one, and the host sees the same of them: their
numbers, their parents, children and matrices, where pins are, and what is read for attributes,
dimensions and coordinates, whether they have a cell or not. -/
structure Shares (s t : Scene) : Prop where
  value : ∀ x v, s.value x = .ok v → t.value x = .ok v
  container? : ∀ x c, s.container? x = .ok c → t.container? x = .ok c
  pinPosition? : ∀ x p, s.pinPosition? x = .ok p → t.pinPosition? x = .ok p
  attributes : ∀ x p, s.node x = .ok (.part p) → ∃ p', t.node x = .ok (.part p') ∧
    ∀ a v, s.value (p.cell a) = .ok v → t.value (p'.cell a) = .ok v
  dimensions : ∀ x p, s.node x = .ok (.pinnedPart p) → ∃ p', t.node x = .ok (.pinnedPart p') ∧
    ∀ d v, s.value (p.sizeCell d) = .ok v → t.value (p'.sizeCell d) = .ok v
  coordinates : ∀ x p, s.node x = .ok (.pin p) → ∃ p', t.node x = .ok (.pin p') ∧
    ∀ axis v, s.slotValue (p.coordinates axis) = .ok v → t.slotValue (p'.coordinates axis) = .ok v

theorem Widens.shares (h : s.Widens γ t) : s.Shares t where
  value _ _ hv := h.value (.inl rfl) hv
  container? x c hc := by
    obtain ⟨n, hn, hcontainer⟩ := except_bind_eq_ok.mp hc
    obtain ⟨n', hn', hwidens⟩ := h.node x n hn
    exact except_bind_eq_ok.mpr ⟨n', hn', by rw [hwidens.container?]; exact hcontainer⟩
  pinPosition? _ _ hp := h.pinPosition? hp
  attributes x p hp := by
    obtain ⟨n', hn', hwidens⟩ := h.node x _ hp
    cases hwidens with
    | refl => exact ⟨p, hn', fun _ _ hv => h.value (.inl rfl) hv⟩
    | part hwidens => exact ⟨_, hn', fun a _ hv => h.value (hwidens.attributes a).getD hv⟩
  dimensions x p hp := by
    obtain ⟨n', hn', hwidens⟩ := h.node x _ hp
    cases hwidens with
    | refl => exact ⟨p, hn', fun _ _ hv => h.value (.inl rfl) hv⟩
    | pinnedPart hwidens => exact ⟨_, hn', fun d _ hv => h.value (hwidens.size d).getD hv⟩
  coordinates x p hp := by
    obtain ⟨n', hn', hwidens⟩ := h.node x _ hp
    cases hwidens with
    | refl => exact ⟨p, hn', fun _ _ hv => h.slotValue (.inl rfl) hv⟩
    | pin hwidens => exact ⟨_, hn', fun axis _ hv => h.slotValue (hwidens.coordinates axis) hv⟩

end Scene

/-- The host gets the same calls in the same order, and sees the same each time and at the end. -/
structure Frame.Shares (f g : Frame) : Prop where
  calls : List.Forall₂ (fun c c' : DisplayCall =>
    c'.handle = c.handle ∧ c'.shown = c.shown ∧ c.scene.Shares c'.scene) f.calls g.calls
  scene : f.scene.Shares g.scene

theorem Frame.Widens.shares {f g : Frame} (h : f.Widens γ g) : f.Shares g where
  calls := h.calls.imp fun _ _ hcall => ⟨hcall.handle, hcall.shown, hcall.scene.shares⟩
  scene := h.scene.shares

/-- An access to a slot, which fills it if it is empty.  The second read-back of a pin is made
together with a refresh of the first one, and is not among these. -/
def Operation.IsAccess (s : Scene) : Operation → Prop
  | .partAttribute .. | .pinnedPartDimension .. | .pinCoordinate .. | .readback .. => True
  | .pinReadback id _ => ∀ n axis, s.node id = .ok n → n.pinReadback? axis = none
  | _ => False

namespace Session

open Scene

variable {σ : Session} {op : Operation} {o : Outcome} {defaultSize : Float}

/-- A shared cell holds what a cell starts from that is made in its place. -/
theorem Genuine.node_shared (hσ : Genuine defaultSize σ) {x : NodeId} {v : Float} (hx : x < 3)
    (hv : (empty defaultSize).value x = .ok v) : σ.scene.node x = .ok (.scalar v none) := by
  obtain ⟨v', hv'⟩ := hσ.reachable.sound.wellFormed.shared x hx
  have hvalue := (hσ.shared hx).trans hv
  rw [value, hv'] at hvalue
  cases hvalue
  exact hv'

theorem Genuine.node_sharedCell (hσ : Genuine defaultSize σ) (a : PartAttribute) :
    σ.scene.node a.sharedCell = .ok (.scalar (a.initial σ.scene.defaultSize) none) := by
  have hsize : σ.scene.defaultSize = defaultSize := hσ.runs.defaultSize
  rw [hsize]
  cases a <;> exact hσ.node_shared (by decide) rfl

theorem outcome?_supplements (hσ : Genuine defaultSize σ) (hop : op.IsAccess σ.scene)
    (h : op.outcome? σ.scene = some o) : ∃ γ, σ.scene.Supplements γ o.scene := by
  have hzero : σ.scene.node zeroCell = .ok (.scalar 0.0 none) :=
    hσ.node_shared (by decide) rfl
  cases op with
  | partAttribute part a =>
      obtain ⟨⟨cell, t⟩, ht, rfl⟩ := map_toOption_eq_some.mp h
      refine materialize_supplements (.attribute a) hzero (hσ.node_sharedCell a) (fun hshared => ?_)
        (fun γ hγ n hempty => ?_) ht
      · cases a <;> first | rfl | cases hshared
      · exact Node.widens_fillAttribute hempty hγ.symm
  | pinnedPartDimension part d =>
      obtain ⟨⟨cell, t⟩, ht, rfl⟩ := map_toOption_eq_some.mp h
      refine materialize_supplements (.dimension d) hzero (hσ.node_sharedCell .width) nofun
        (fun γ hγ n hempty => ?_) ht
      exact Node.widens_fillDimension hempty hγ.symm
  | pinCoordinate pin axis =>
      obtain ⟨⟨cell, t⟩, ht, rfl⟩ := map_toOption_eq_some.mp h
      refine materialize_supplements (.coordinate axis) hzero hzero (fun _ => rfl)
        (fun γ hγ n hempty => ?_) ht
      exact Node.widens_fillCoordinate hempty hγ.symm
  | readback owner r =>
      obtain ⟨⟨cell, t⟩, ht, rfl⟩ := map_toOption_eq_some.mp h
      exact readback_supplements hzero ht
  | pinReadback pin axis =>
      obtain ⟨⟨cell, t⟩, ht, rfl⟩ := map_toOption_eq_some.mp h
      exact pinReadback_supplements hzero hop ht
  | _ => exact hop.elim

/-- An attribute, a coordinate or a dimension that nobody asked for yet, and the first read-back
of a pin or any read-back of a container, may be asked for at any time.  Every root compiles as
before, or closes the same cycle as before.  Replays with the same inputs make the same calls,
and leave all that there was with the same numbers and matrices.  What is read in an empty slot
is what a cell starts from that is made for the slot. -/
theorem materializing_neutral (hσ : Genuine defaultSize σ) (hallowed : op.Allowed σ)
    (hop : op.IsAccess σ.scene) :
    ∃ o, op.outcome? σ.scene = some o ∧ σ.scene.Shares o.scene ∧
    (∀ root, root < σ.scene.count →
      ((∃ list, (σ.scene.compile root).result = .ok list) ↔
        ∃ list, (o.scene.compile root).result = .ok list) ∧
      (∀ c, (σ.scene.compile root).result = .error (.cycle c) ↔
        (o.scene.compile root).result = .error (.cycle c)) ∧
      ∀ list list' inputs, (σ.scene.compile root).result = .ok list →
        (o.scene.compile root).result = .ok list' →
          ∃ f g, σ.scene.replay list inputs = .ok f ∧ o.scene.replay list' inputs = .ok g ∧
            f.Shares g) ∧
    (∀ a : PartAttribute, σ.scene.value a.sharedCell = .ok (a.initial σ.scene.defaultSize)) ∧
    σ.scene.value sizeCell = .ok σ.scene.defaultSize ∧ σ.scene.value zeroCell = .ok 0.0 := by
  have hreach := hσ.reachable
  have hsupported : op.Supported σ := by
    cases op <;> trivial
  obtain ⟨o, ho⟩ := Operation.outcome?_succeeds hreach hallowed hsupported
  obtain ⟨γ, hsupplements⟩ := outcome?_supplements hσ hop ho
  have hwidens := hsupplements.widens
  have hτ := hreach.follow hallowed ho
  have hs := hreach.sound.wellFormed
  have ht : o.scene.WellFormed := hτ.sound.wellFormed
  have hvalue : ∀ a : PartAttribute,
      σ.scene.value a.sharedCell = .ok (a.initial σ.scene.defaultSize) := fun a => by
    rw [value, hσ.node_sharedCell a]
    rfl
  refine ⟨o, ho, hwidens.shares, fun root hroot => ?_, hvalue, hvalue .width, hvalue .x⟩
  have hcompile := compile_widens hwidens hs ht hsupplements.inputless hroot
  refine ⟨hcompile.isOk_iff, hcompile.cycle_iff, fun list list' inputs hlist hlist' => ?_⟩
  have hbears := bears_of_compile hs hreach.strict.links hlist
  obtain ⟨f, hf⟩ := replay_succeeds hs hreach.strict.sourcesStand hbears inputs
  obtain ⟨g, hg⟩ := replay_succeeds ht hτ.strict.sourcesStand
    (bears_of_compile ht hτ.strict.links hlist') inputs
  exact ⟨f, g, hf, hg, (hwidens.replay hs hbears (hcompile.like hlist hlist') hf hg).shares⟩

/-- A model with a part that shows its width, before the width gets a cell. -/
def shownWidth : List Operation :=
  [.model, .part, .addChild 3 4, .setDisplay 4 7, .readback 4 .width]

theorem materializing_neutral_shownWidth : ∃ σ o list list' f g, Genuine 100.0 σ ∧
    (Operation.partAttribute 4 .width).outcome? σ.scene = some o ∧
    o.scene.count = σ.scene.count + 2 ∧ (σ.scene.compile 3).result = .ok list ∧
    (o.scene.compile 3).result = .ok list' ∧ σ.scene.replay list (fun _ => none) = .ok f ∧
    o.scene.replay list' (fun _ => none) = .ok g ∧ f.calls.length = 1 ∧ f.Shares g := by
  have hrun : ∃ σ ∈ (start 100.0).runAll shownWidth,
      ∃ list ∈ (σ.scene.compile 3).result.toOption,
      ∃ f ∈ (σ.scene.replay list fun _ => none).toOption,
      ∃ o ∈ (Operation.partAttribute 4 .width).outcome? σ.scene,
        σ.HasPart 4 ∧ 3 < σ.scene.count ∧ f.calls.length = 1 ∧
        o.scene.count = σ.scene.count + 2 := by
    decide +kernel
  obtain ⟨σ, hσ, list, hlist, f, hf, o, ho, hpart, hroot, hcalls, hcount⟩ := hrun
  have hlist := toOption_eq_some.mp hlist
  have hf := toOption_eq_some.mp hf
  have hgenuine : Genuine 100.0 σ :=
    (Conducted.runAll .refl (by simp [shownWidth, Operation.IsFamiliar]) hσ).genuine
  have hallowed : (Operation.partAttribute 4 .width).Allowed σ := hpart
  obtain ⟨o', ho', -, hneutral, -⟩ := materializing_neutral hgenuine hallowed trivial
  obtain rfl := Option.some.inj (ho.symm.trans ho')
  obtain ⟨hlists, -, hreplay⟩ := hneutral 3 hroot
  obtain ⟨list', hlist'⟩ := hlists.mp ⟨list, hlist⟩
  obtain ⟨f', g, hf', hg, hshares⟩ := hreplay list list' (fun _ => none) hlist hlist'
  obtain rfl := Except.ok.inj (hf.symm.trans hf')
  exact ⟨σ, o, list, list', f, g, hgenuine, ho, hcount, hlist, hlist', hf, hg, hcalls, hshares⟩

end Session

end SceneGraph
