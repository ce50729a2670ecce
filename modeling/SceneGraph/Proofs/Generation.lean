import SceneGraph.Proofs.Session
import SceneGraph.Proofs.Wiring

/-!
The generation moves on with every change of the wiring.

A slot is filled without a bump of its own, but only after the node that fills it was created.
What counts is therefore the whole operation: it creates some nodes, relinks some children,
and if it does neither, then the wiring is as it was.
-/

namespace SceneGraph

namespace Node

@[simp] theorem model?_fillAttribute (a : PartAttribute) (cell : NodeId) (n : Node) :
    (n.fillAttribute a cell).model? = n.model? := by
  cases n <;> rfl

@[simp] theorem model?_fillCoordinate (axis : Axis) (cell : NodeId) (n : Node) :
    (n.fillCoordinate axis cell).model? = n.model? := by
  cases n <;> rfl

@[simp] theorem model?_fillDimension (d : Dimension) (cell : NodeId) (n : Node) :
    (n.fillDimension d cell).model? = n.model? := by
  cases n <;> rfl

@[simp] theorem model?_attach (slot : PinSlot) (a : Attachment) (n : Node) :
    (n.attach slot a).model? = n.model? := by
  cases n <;> rfl

@[simp] theorem model?_fillTarget (slot : PinSlot) (axis : Axis) (cell : NodeId) (n : Node) :
    (n.fillTarget slot axis cell).model? = n.model? := by
  unfold fillTarget
  cases n.attachment? slot <;> simp

@[simp] theorem model?_fillReadback (r : Readback) (cell : NodeId) (n : Node) :
    (n.fillReadback r cell).model? = n.model? := by
  cases n <;> rfl

@[simp] theorem model?_fillPinReadback (axis : Axis) (cell : NodeId) (n : Node) :
    (n.fillPinReadback axis cell).model? = n.model? := by
  cases n <;> rfl

@[simp] theorem model?_appendLink (link : NodeId) (n : Node) :
    (n.appendLink link).model? = n.model? := by
  cases n <;> rfl

@[simp] theorem model?_appendTransformation (step : NodeId) (n : Node) :
    (n.appendTransformation step).model? = n.model? :=
  model?_mapContainer _ n

@[simp] theorem model?_setParent (parent : Option NodeId) (n : Node) :
    (n.setParent parent).model? = n.model? := by
  cases n <;> rfl

end Node

namespace Scene

variable {s t u : Scene}

/-- Nothing was created, noted as a change or lost from what models keep.  Links may have
changed. -/
structure Steady (s t : Scene) : Prop where
  count : t.count = s.count
  generation : t.generation = s.generation
  cached : t.cached? = s.cached?
  sources : t.sourceTable = s.sourceTable
  defaultSize : t.defaultSize = s.defaultSize

namespace Steady

theorem refl (s : Scene) : Steady s s :=
  ⟨rfl, rfl, rfl, rfl, rfl⟩

theorem trans (hst : Steady s t) (htu : Steady t u) : Steady s u :=
  ⟨htu.count.trans hst.count, htu.generation.trans hst.generation,
    htu.cached.trans hst.cached, htu.sources.trans hst.sources,
    htu.defaultSize.trans hst.defaultSize⟩

theorem update {id : NodeId} {f : Node → Node} (h : s.update id f = .ok t)
    (hmodel : ∀ n, (f n).model? = n.model?) : Steady s t where
  count := count_update h
  generation := generation_update h
  cached := cached?_update h fun n => congrArg (Option.bind · ModelState.cached) (hmodel n)
  sources := sourceTable_update h fun n => congrArg (Option.map ModelState.sources) (hmodel n)
  defaultSize := defaultSize_update h

end Steady

/-- A scene moved on by creating nodes and relinking children. -/
structure Advances (s : Scene) (created relinked : Nat) (t : Scene) : Prop where
  count : t.count = s.count + created
  generation : t.generation = s.generation + UInt64.ofNat (created + relinked)
  wiring : created + relinked = 0 → t.wiring = s.wiring
  cached : t.cached? = s.cached?
  sources : t.sourceTable = s.sourceTable
  defaultSize : t.defaultSize = s.defaultSize

namespace Advances

variable {a b c d : Nat}

theorem of_alike (h : Alike s t) : Advances s 0 0 t :=
  ⟨count_eq_of_wiring h.wiring, by simpa using h.generation, fun _ => h.wiring, h.cached,
    h.sources, h.defaultSize⟩

theorem refl (s : Scene) : Advances s 0 0 s :=
  of_alike (Alike.refl s)

theorem trans (hst : Advances s a b t) (htu : Advances t c d u) :
    Advances s (a + c) (b + d) u := by
  refine ⟨?_, ?_, ?_, htu.cached.trans hst.cached, htu.sources.trans hst.sources,
    htu.defaultSize.trans hst.defaultSize⟩
  · rw [htu.count, hst.count, Nat.add_assoc]
  · have hsum : a + c + (b + d) = (a + b) + (c + d) := by omega
    rw [htu.generation, hst.generation, hsum, UInt64.ofNat_add (a + b) (c + d), UInt64.add_assoc]
  · intro hnone
    have hfirst := hst.wiring (by omega)
    have hsecond := htu.wiring (by omega)
    exact hsecond.trans hfirst

theorem then_alike (hst : Advances s a b t) (htu : Alike t u) : Advances s a b u :=
  hst.trans (of_alike htu)

/-- Once something was created or relinked, links may be changed freely. -/
theorem then_steady (hst : Advances s a b t) (hbump : 0 < a + b) (htu : Steady t u) :
    Advances s a b u :=
  ⟨htu.count.trans hst.count, htu.generation.trans hst.generation, fun h => by omega,
    htu.cached.trans hst.cached, htu.sources.trans hst.sources,
    htu.defaultSize.trans hst.defaultSize⟩

theorem touch (h : Steady s t) : Advances s 0 1 t.touch := by
  refine ⟨h.count, ?_, fun hnone => by omega, h.cached, h.sources, h.defaultSize⟩
  simp [Scene.touch, h.generation]

/-- A new node is no model, or a model that has neither sources nor a list yet. -/
theorem push (s : Scene) {n : Node} (hn : n.model?.getD {} = {}) : Advances s 1 0 (s.push n) := by
  have hread : ∀ i : NodeId, ((s.push n).nodes[i]?.bind Node.model?).getD {} =
      (s.nodes[i]?.bind Node.model?).getD {} := by
    intro i
    simp only [Scene.push, Scene.touch, Array.getElem?_push]
    split
    · next hlast => simp [hlast, hn]
    · rfl
  refine ⟨count_push s n, by simp [Scene.push, Scene.touch], fun hnone => by omega, ?_, ?_,
    rfl⟩
  · funext i
    rw [cached?_eq_getD, hread, cached?_eq_getD]
  · funext i
    rw [sourceTable_eq_getD, hread, sourceTable_eq_getD]

end Advances

/-- A computation that only creates nodes, fills slots and changes what nodes carry. -/
def Grows {α ε : Type} (s : Scene) (scene : α → Scene) (x : Except ε α) : Prop :=
  ∀ r, x = .ok r → ∃ created, Advances s created 0 (scene r)

theorem scalar_advances (s : Scene) (v : Float) : Advances s 1 0 (s.scalar v).2 :=
  Advances.push s rfl

theorem calculated_advances (s : Scene) (base : Float) : Advances s 2 0 (s.calculated base).2 :=
  (s.scalar_advances base).trans (Advances.push _ rfl)

theorem operandCell_advances (s : Scene) (operand : Option Operand) :
    ∃ created, Advances s created 0 (s.operandCell operand).2 := by
  match operand with
  | none => exact ⟨0, Advances.refl s⟩
  | some (.cell id) => exact ⟨0, Advances.refl s⟩
  | some (.constant v) => exact ⟨1, Advances.push s rfl⟩

theorem appendModifier_grows (s : Scene) (id : NodeId) (link : ChainLink) :
    s.Grows (fun t => t) (s.appendModifier id link) := by
  intro t h
  obtain ⟨created, hcell⟩ := s.operandCell_advances link.operand
  obtain ⟨n, -, hn⟩ := except_bind_eq_ok.mp h
  cases n with
  | calculated c =>
      have hlink := hcell.trans (Advances.push
        (n := .modified ⟨link.op, c.tail, (s.operandCell link.operand).1, 0.0⟩) _ rfl)
      exact ⟨created + 1, hlink.then_steady (by omega)
        (Steady.update hn (Node.model?_appendLink _))⟩
  | _ =>
      cases hn
      exact ⟨created, hcell⟩

theorem modify_grows (s : Scene) (id : NodeId) (links : List ChainLink) :
    s.Grows (fun t => t) (s.modify id links) := by
  intro t h
  refine foldlM_related (R := fun s t => ∃ created, Advances s created 0 t)
    (fun s => ⟨0, Advances.refl s⟩) ?_ ?_ links h
  · rintro s t u ⟨k, hst⟩ ⟨l, htu⟩
    exact ⟨k + l, hst.trans htu⟩
  · intro s link t hlink
    exact s.appendModifier_grows id link t hlink

theorem materialize_grows (s : Scene) (owner : NodeId) (slot : Node → Option NodeId)
    {fill : NodeId → Node → Node} (hfill : ∀ cell n, (fill cell n).model? = n.model?)
    (base : Float) : s.Grows Prod.snd (s.materialize owner slot fill base) := by
  intro r h
  obtain ⟨n, -, hn⟩ := except_bind_eq_ok.mp h
  cases hslot : slot n with
  | some cell =>
      rw [hslot] at hn
      cases hn
      exact ⟨0, Advances.refl s⟩
  | none =>
      rw [hslot] at hn
      obtain ⟨t, ht, hr⟩ := except_bind_eq_ok.mp hn
      cases hr
      exact ⟨2, (s.calculated_advances base).then_steady (by omega)
        (Steady.update ht (hfill _))⟩

theorem setBaseOf_grows {access : Except OutOfRange (NodeId × Scene)} (v : Float)
    (haccess : s.Grows Prod.snd access) : s.Grows Prod.snd (setBaseOf access v) := by
  intro r h
  obtain ⟨⟨cell, t⟩, ht, hrest⟩ := except_bind_eq_ok.mp h
  obtain ⟨u, hu, hr⟩ := except_bind_eq_ok.mp hrest
  cases hr
  obtain ⟨created, hcreated⟩ := haccess _ ht
  exact ⟨created, hcreated.then_alike (t.setBaseValue_rewrites cell v u hu).alike⟩

theorem partAttribute_grows (s : Scene) (id : NodeId) (a : PartAttribute) :
    s.Grows Prod.snd (s.partAttribute id a) :=
  s.materialize_grows id _ (Node.model?_fillAttribute a) _

theorem pinCoordinate_grows (s : Scene) (id : NodeId) (axis : Axis) :
    s.Grows Prod.snd (s.pinCoordinate id axis) :=
  s.materialize_grows id _ (Node.model?_fillCoordinate axis) _

theorem pinnedPartDimension_grows (s : Scene) (id : NodeId) (d : Dimension) :
    s.Grows Prod.snd (s.pinnedPartDimension id d) :=
  s.materialize_grows id _ (Node.model?_fillDimension d) _

theorem addTransformation_grows (s : Scene) (owner : NodeId) (motion : Motion) :
    s.Grows Prod.snd (s.addTransformation owner motion) := by
  intro r h
  obtain ⟨t, ht, hr⟩ := except_bind_eq_ok.mp h
  cases hr
  have hcreated := (s.calculated_advances 0.0).trans (Advances.push
    (n := .transformation ⟨owner, motion, (s.calculated 0.0).1⟩) _ rfl)
  exact ⟨3, hcreated.then_steady (by omega)
    (Steady.update ht (Node.model?_appendTransformation _))⟩

theorem readback_grows (s : Scene) (owner : NodeId) (r : Readback) :
    s.Grows Prod.snd (s.readback owner r) := by
  intro result h
  obtain ⟨n, -, hn⟩ := except_bind_eq_ok.mp h
  cases hslot : n.readback? r with
  | some cell =>
      rw [hslot] at hn
      cases hn
      exact ⟨0, Advances.refl s⟩
  | none =>
      rw [hslot] at hn
      obtain ⟨v, -, hv⟩ := except_bind_eq_ok.mp hn
      obtain ⟨t, ht, hr⟩ := except_bind_eq_ok.mp hv
      cases hr
      exact ⟨1, (Advances.push s rfl).then_steady (by omega)
        (Steady.update ht (Node.model?_fillReadback r _))⟩

theorem pinReadback_grows (s : Scene) (id : NodeId) (axis : Axis) :
    s.Grows Prod.snd (s.pinReadback id axis) := by
  intro result h
  obtain ⟨n, -, hn⟩ := except_bind_eq_ok.mp h
  cases hslot : n.pinReadback? axis with
  | some cell =>
      rw [hslot] at hn
      cases hn
      exact ⟨0, Advances.refl s⟩
  | none =>
      rw [hslot] at hn
      obtain ⟨t, ht, hrest⟩ := except_bind_eq_ok.mp hn
      obtain ⟨u, hu, hr⟩ := except_bind_eq_ok.mp hrest
      cases hr
      have hfilled := (Advances.push s rfl).then_steady (by omega)
        (Steady.update ht (Node.model?_fillPinReadback axis _))
      exact ⟨1, hfilled.then_alike (t.refreshPin_rewrites id u hu).alike⟩

theorem attachPin_grows (s : Scene) (id : NodeId) (slot : PinSlot) (origin : Point Float) :
    s.Grows (fun t => t) (s.attachPin id slot origin) := by
  intro t h
  obtain ⟨n, -, hn⟩ := except_bind_eq_ok.mp h
  cases hslot : n.attachment? slot with
  | some a =>
      rw [hslot] at hn
      cases hn
      exact ⟨0, Advances.refl s⟩
  | none =>
      rw [hslot] at hn
      have hcreated := (s.calculated_advances origin.x).trans
        ((s.calculated origin.x).2.calculated_advances origin.y)
      exact ⟨4, hcreated.then_steady (by omega) (Steady.update hn (Node.model?_attach slot _))⟩

theorem pinTarget?_grows (s : Scene) (id : NodeId) (slot : PinSlot) (axis : Axis) :
    s.Grows Prod.snd (s.pinTarget? id slot axis) := by
  intro r h
  obtain ⟨n, -, hn⟩ := except_bind_eq_ok.mp h
  cases hslot : n.attachment? slot with
  | none =>
      rw [hslot] at hn
      cases hn
      exact ⟨0, Advances.refl s⟩
  | some a =>
      rw [hslot] at hn
      obtain ⟨⟨cell, t⟩, ht, hr⟩ := except_bind_eq_ok.mp hn
      cases hr
      exact s.materialize_grows id _ (Node.model?_fillTarget slot axis) _ _ ht

theorem setPinTargetAxis_grows (s : Scene) (id : NodeId) (slot : PinSlot) (axis : Axis)
    (v : Float) : s.Grows (fun t => t) (s.setPinTargetAxis id slot axis v) := by
  intro u h
  obtain ⟨⟨cell?, t⟩, ht, hrest⟩ := except_bind_eq_ok.mp h
  obtain ⟨created, hcreated⟩ := s.pinTarget?_grows id slot axis _ ht
  cases cell? with
  | none =>
      cases hrest
      exact ⟨created, hcreated⟩
  | some cell => exact ⟨created, hcreated.then_alike (t.setBaseValue_rewrites cell v u hrest).alike⟩

theorem setPinTarget_grows (s : Scene) (id : NodeId) (slot : PinSlot) (target : Point Float) :
    s.Grows (fun t => t) (s.setPinTarget id slot target) := by
  intro u h
  obtain ⟨t, ht, hu⟩ := except_bind_eq_ok.mp h
  obtain ⟨k, hk⟩ := s.setPinTargetAxis_grows id slot .x target.x t ht
  obtain ⟨l, hl⟩ := t.setPinTargetAxis_grows id slot .y target.y u hu
  exact ⟨k + l, hk.trans hl⟩

/-- A child is taken away at both ends of its link, or the scene is as it was. -/
theorem unlink_cases {parent child : NodeId} {r : Bool × Scene}
    (h : s.unlink parent child = .ok r) :
    (child ∈ (s.children parent).toOption.getD [] ∧ r.1 = true ∧ ∃ t,
      s.update parent (Node.mapContainer fun c => { c with children := c.children.erase child }) =
        .ok t ∧ t.update child (Node.setParent none) = .ok r.2) ∨
      (child ∉ (s.children parent).toOption.getD [] ∧ r = (false, s)) := by
  obtain ⟨children, hchildren, hrest⟩ := except_bind_eq_ok.mp h
  by_cases hmem : child ∈ children
  · rw [if_pos hmem] at hrest
    obtain ⟨t, ht, hrest⟩ := except_bind_eq_ok.mp hrest
    obtain ⟨u, hu, hr⟩ := except_bind_eq_ok.mp hrest
    cases hr
    exact Or.inl ⟨by simpa [hchildren, Except.toOption] using hmem, rfl, t, ht, hu⟩
  · rw [if_neg hmem] at hrest
    cases hrest
    exact Or.inr ⟨by simpa [hchildren, Except.toOption] using hmem, rfl⟩

/-- A node is unlinked from where it was attached, if it was. -/
theorem detach_cases {child : NodeId} (h : s.detach child = .ok t) :
    t = s ∨ ∃ old r, s.unlink old child = .ok r ∧ r.2 = t := by
  obtain ⟨parent, -, hrest⟩ := except_bind_eq_ok.mp h
  cases parent with
  | none => exact Or.inl (Except.ok.inj hrest).symm
  | some old =>
      obtain ⟨r, hr, ht⟩ := except_bind_eq_ok.mp hrest
      exact Or.inr ⟨old, r, hr, Except.ok.inj ht⟩

theorem unlink_steady {parent child : NodeId} {r : Bool × Scene}
    (h : s.unlink parent child = .ok r) : Steady s r.2 := by
  rcases unlink_cases h with ⟨-, -, t, ht, hr⟩ | ⟨-, rfl⟩
  · exact (Steady.update ht (Node.model?_mapContainer _)).trans
      (Steady.update hr (Node.model?_setParent none))
  · exact Steady.refl s

theorem detach_steady {child : NodeId} (h : s.detach child = .ok t) : Steady s t := by
  rcases detach_cases h with rfl | ⟨old, r, hr, rfl⟩
  · exact Steady.refl t
  · exact unlink_steady hr

theorem addChild_advances {parent child : NodeId} (h : s.addChild parent child = .ok t) :
    Advances s 0 1 t := by
  obtain ⟨s₁, h₁, h⟩ := except_bind_eq_ok.mp h
  obtain ⟨s₂, h₂, h⟩ := except_bind_eq_ok.mp h
  obtain ⟨s₃, h₃, h⟩ := except_bind_eq_ok.mp h
  cases h
  have h₁₂ : Steady s s₂ :=
    (detach_steady h₁).trans (Steady.update h₂ (Node.model?_setParent _))
  exact Advances.touch (h₁₂.trans (Steady.update h₃ (Node.model?_mapContainer _)))

theorem addChildren_advances {parent : NodeId} {children : List NodeId}
    (h : s.addChildren parent children = .ok t) : Advances s 0 children.length t := by
  unfold addChildren at h
  induction children generalizing s with
  | nil =>
      cases h
      exact Advances.refl _
  | cons child children ih =>
      rw [List.foldlM_cons] at h
      obtain ⟨s₁, h₁, hrest⟩ := except_bind_eq_ok.mp h
      have hboth := (addChild_advances h₁).trans (ih hrest)
      rwa [Nat.add_comm 1] at hboth

theorem removeChild_advances {parent child : NodeId} {r : Bool × Scene}
    (h : s.removeChild parent child = .ok r) :
    Advances s 0 (if child ∈ (s.children parent).toOption.getD [] then 1 else 0) r.2 := by
  obtain ⟨⟨removed, t⟩, ht, hr⟩ := except_bind_eq_ok.mp h
  cases hr
  rcases unlink_cases ht with ⟨hmem, hremoved, -⟩ | ⟨hmem, hr⟩
  · obtain rfl : removed = true := hremoved
    rw [if_pos hmem]
    exact Advances.touch (unlink_steady ht)
  · cases hr
    rw [if_neg hmem]
    exact Advances.refl s

end Scene

end SceneGraph
