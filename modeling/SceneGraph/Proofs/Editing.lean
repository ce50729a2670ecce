import SceneGraph.Proofs.Building

/-!
What operations do to the links of a scene.

Apart from relinking children, an operation changes links in one way only: it adds nodes behind
the ones that are there, and lets one old node point to what it added.  `Adds` lists what is
added at a time and where the old node gets its link; an operation does this some times over,
with replays and other changes in place between (`Operation.outcome?_changes`).
-/

namespace SceneGraph

/-- A node as it is created, without links. -/
inductive Node.Blank : Node → Prop where
  | scalar (v : Float) : Blank (.scalar v none)
  | input (index : InputIndex) : Blank (.input 0.0 index)
  | part : Blank (.part {})
  | model : Blank (.part { model := some {} })
  | pin : Blank (.pin {})
  | pinnedPart : Blank (.pinnedPart {})

/-- A slot that is filled with a calculated value on first access. -/
inductive CellSlot where
  | attribute (a : PartAttribute)
  | coordinate (axis : Axis)
  | dimension (d : Dimension)
  | target (slot : PinSlot) (axis : Axis)
  deriving DecidableEq

namespace CellSlot

def cell? : CellSlot → Node → Option NodeId
  | .attribute a => Node.attribute? a
  | .coordinate axis => Node.coordinate? axis
  | .dimension d => Node.dimension? d
  | .target slot axis => Node.target? slot axis

def fill : CellSlot → NodeId → Node → Node
  | .attribute a => Node.fillAttribute a
  | .coordinate axis => Node.fillCoordinate axis
  | .dimension d => Node.fillDimension d
  | .target slot axis => Node.fillTarget slot axis

end CellSlot

namespace Scene

variable {named : NodeId → Prop} {s t u : Scene} {owner other cell : NodeId} {f : Node → Node}
  {news : List Node}

/-- Some nodes were added behind the ones of a scene, and one of the old nodes was changed. -/
structure Extends (s t : Scene) (owner : NodeId) (f : Node → Node) (news : List Node) : Prop where
  count : t.count = s.count + news.length
  old : ∀ id n, s.node id = .ok n → t.node id = .ok (if id = owner then f n else n)
  new : ∀ (i : Nat) n, news[i]? = some n → t.node (s.count + i) = .ok n

namespace Extends

theorem refl (s : Scene) (owner : NodeId) : Extends s s owner id [] :=
  ⟨rfl, fun other n hn => by simpa using hn, by simp⟩

theorem push (h : s.Extends t owner f news) (n : Node) :
    s.Extends (t.push n) owner f (news ++ [n]) := by
  refine ⟨by simp [h.count, Nat.add_assoc], fun other m hm => ?_, fun i m hm => ?_⟩
  · have hother := h.old other m hm
    rw [node_push_of_lt (lt_count_of_node hother), hother]
  · rcases Nat.lt_or_ge i news.length with hi | hi
    · rw [List.getElem?_append_left hi] at hm
      have hnew := h.new i m hm
      rw [node_push_of_lt (lt_count_of_node hnew), hnew]
    · rw [List.getElem?_append_right hi] at hm
      obtain ⟨hlt, rfl⟩ := List.getElem?_eq_some_iff.mp hm
      obtain rfl : i = news.length := by
        rw [List.length_singleton] at hlt
        omega
      rw [← h.count, node_push_self]
      simp

theorem update (h : s.Extends t owner id news) (howner : owner < s.count)
    (hu : t.update owner f = .ok u) : s.Extends u owner f news := by
  refine ⟨(count_update hu).trans h.count, fun other n hn => ?_, fun i n hn => ?_⟩
  · have hother := h.old other n hn
    rw [id_eq, ite_self] at hother
    by_cases heq : other = owner
    · subst heq
      rw [node_update_self hu, hother, if_pos rfl]
      rfl
    · rw [node_update_of_ne hu heq, hother, if_neg heq]
  · have hne : s.count + i ≠ owner := fun heq => by
      rw [← heq] at howner
      exact absurd howner (Nat.not_lt_of_le (Nat.le_add_right _ _))
    rw [node_update_of_ne hu hne, h.new i n hn]

/-- A node of the larger scene is an old one or an added one. -/
theorem node_cases (h : s.Extends t owner f news) {n' : Node} (hn' : t.node other = .ok n') :
    (∃ n, s.node other = .ok n ∧ n' = if other = owner then f n else n) ∨
      ∃ i : Nat, other = s.count + i ∧ news[i]? = some n' := by
  by_cases hid : other < s.count
  · obtain ⟨n, hn⟩ := node_of_lt_count hid
    exact .inl ⟨n, hn, node_unique hn' (h.old other n hn)⟩
  · have hlt := lt_count_of_node hn'
    rw [h.count] at hlt
    obtain ⟨i, rfl⟩ := Nat.exists_eq_add_of_le (Nat.le_of_not_lt hid)
    have hi : i < news.length := Nat.lt_of_add_lt_add_left hlt
    refine .inr ⟨i, rfl, ?_⟩
    rw [List.getElem?_eq_getElem hi]
    exact congrArg some (node_unique (h.new i _ (List.getElem?_eq_getElem hi)) hn')

end Extends

/-- The two nodes of a calculated value that is added at a position. -/
def cellNodes (position : NodeId) (base : Float) : List Node :=
  [.scalar base none, .calculated ⟨position, base, []⟩]

/-- What is added to a scene at a time, and how the old node is changed that links to it.  As an
operand it links to a cell that is named, or to a new one. -/
inductive Adds (named : NodeId → Prop) (s : Scene) :
    NodeId → (Node → Node) → List Node → Prop where
  | blank (owner : NodeId) {n : Node} (hn : n.Blank) : Adds named s owner id [n]
  | calculated (owner : NodeId) (base : Float) : Adds named s owner id (cellNodes s.count base)
  | cell {owner : NodeId} {n : Node} (slot : CellSlot) (base : Float)
      (howner : s.node owner = .ok n) (hempty : slot.cell? n = none) :
      Adds named s owner (slot.fill (s.count + 1)) (cellNodes s.count base)
  | transformation {owner : NodeId} {n : Node} (motion : Motion)
      (howner : s.node owner = .ok n) :
      Adds named s owner (Node.appendTransformation (s.count + 2))
        (cellNodes s.count 0.0 ++ [.transformation ⟨owner, motion, s.count + 1⟩])
  | attach {owner : NodeId} {n : Node} (slot : PinSlot) (origin : Point Float)
      (howner : s.node owner = .ok n) (hempty : n.attachment? slot = none) :
      Adds named s owner
        (Node.attach slot { originX := s.count + 1, originY := s.count + 3 })
        (cellNodes s.count origin.x ++ cellNodes (s.count + 2) origin.y)
  | readback {owner : NodeId} {n : Node} (r : Readback) (v : Float)
      (howner : s.node owner = .ok n) (hempty : n.readback? r = none) :
      Adds named s owner (Node.fillReadback r s.count) [.scalar v (some owner)]
  | pinReadback {owner : NodeId} {n : Node} (axis : Axis)
      (howner : s.node owner = .ok n) (hempty : n.pinReadback? axis = none) :
      Adds named s owner (Node.fillPinReadback axis s.count) [.scalar 0.0 (some owner)]
  | link {owner : NodeId} {c : Calculated} (op : Modifier) (operand : Option NodeId)
      (howner : s.node owner = .ok (.calculated c)) (hop : operand.isNone = op.isUnary)
      (hoperand : ∀ cell, operand = some cell → named cell) :
      Adds named s owner (Node.appendLink s.count) [.modified ⟨op, c.tail, operand, 0.0⟩]
  | linkConstant {owner : NodeId} {c : Calculated} (op : Modifier) (v : Float)
      (howner : s.node owner = .ok (.calculated c)) (hop : op.isUnary = false) :
      Adds named s owner (Node.appendLink (s.count + 1))
        [.scalar v none, .modified ⟨op, c.tail, some s.count, 0.0⟩]

/-- Something is added, and all else stays. -/
def Addition (named : NodeId → Prop) (s t : Scene) : Prop :=
  ∃ owner f news, Adds named s owner f news ∧ s.Extends t owner f news

abbrev Additions (named : NodeId → Prop) : Scene → Scene → Prop :=
  Relation.ReflTransGen (Addition named)

theorem Additions.of_adds (hadds : Adds named s owner f news) (h : s.Extends t owner f news) :
    Additions named s t :=
  .single ⟨owner, f, news, hadds, h⟩

/-- One change of a scene: something is added, or all links stay as they are. -/
inductive Change (named : NodeId → Prop) (s t : Scene) : Prop where
  | add {owner : NodeId} {f : Node → Node} {news : List Node} (hadds : Adds named s owner f news)
      (h : s.Extends t owner f news)
  | inPlace (h : t.wiring = s.wiring)

abbrev Changes (named : NodeId → Prop) : Scene → Scene → Prop :=
  Relation.ReflTransGen (Change named)

theorem Additions.changes (h : Additions named s t) : Changes named s t :=
  Relation.ReflTransGen.mono (fun _ _ ⟨_, _, _, hadds, hextends⟩ => .add hadds hextends) _ _ h

theorem Rewrites.changes (h : Rewrites s t) : Changes named s t :=
  .single (.inPlace h.alike.wiring)

theorem calculated_extends (s : Scene) (owner : NodeId) (base : Float) :
    s.Extends (s.calculated base).2 owner id (cellNodes s.count base) :=
  ((Extends.refl s owner).push _).push _

theorem calculated_count (s : Scene) (base : Float) :
    (s.calculated base).2.count = s.count + 2 := by
  simp [calculated, scalar, create]

theorem calculated_calculated_extends (s : Scene) (owner : NodeId) (base base' : Float) :
    s.Extends ((s.calculated base).2.calculated base').2 owner id
      (cellNodes s.count base ++ cellNodes (s.count + 2) base') := by
  rw [← calculated_count s base]
  exact ((calculated_extends s owner base).push _).push _

/-- A slot is found filled, or it is filled with a new calculated value. -/
theorem materialize_cases (slot : CellSlot) {base : Float}
    (h : s.materialize owner slot.cell? slot.fill base = .ok (cell, t)) :
    t = s ∨ ∃ n, s.node owner = .ok n ∧ slot.cell? n = none ∧
      s.Extends t owner (slot.fill (s.count + 1)) (cellNodes s.count base) := by
  obtain ⟨n, hn, hrest⟩ := except_bind_eq_ok.mp h
  cases hcell : slot.cell? n with
  | some found =>
      rw [hcell] at hrest
      cases hrest
      exact .inl rfl
  | none =>
      rw [hcell] at hrest
      obtain ⟨u, hu, hr⟩ := except_bind_eq_ok.mp hrest
      cases hr
      have hcount : (s.calculated base).1 = s.count + 1 := count_push s _
      exact .inr ⟨n, hn, hcell,
        (calculated_extends s owner base).update (lt_count_of_node hn) (hcount ▸ hu)⟩

theorem materialize_adds (slot : CellSlot) {base : Float}
    (h : s.materialize owner slot.cell? slot.fill base = .ok (cell, t)) : Additions named s t := by
  rcases materialize_cases slot h with rfl | ⟨n, hn, hempty, hextends⟩
  · exact .refl
  · exact .of_adds (.cell slot base hn hempty) hextends

theorem setBaseOf_changes {access : Except OutOfRange (NodeId × Scene)} {v : Float}
    (h : setBaseOf access v = .ok (cell, u))
    (haccess : ∀ cell t, access = .ok (cell, t) → Additions named s t) : Changes named s u := by
  obtain ⟨⟨found, t⟩, ht, hrest⟩ := except_bind_eq_ok.mp h
  obtain ⟨u', hu, hr⟩ := except_bind_eq_ok.mp hrest
  cases hr
  exact (haccess cell t ht).changes.trans (Rewrites.changes (t.setBaseValue_rewrites cell v u hu))

theorem addTransformation_adds {motion : Motion} (howner : owner < s.count)
    (h : s.addTransformation owner motion = .ok (cell, t)) : Additions named s t := by
  obtain ⟨u, hu, hr⟩ := except_bind_eq_ok.mp h
  cases hr
  have hcount := calculated_count s 0.0
  have hcell : (s.calculated 0.0).1 = s.count + 1 := count_push s _
  have hu : ((s.calculated 0.0).2.push
      (.transformation ⟨owner, motion, s.count + 1⟩)).update owner
        (Node.appendTransformation (s.count + 2)) = .ok t := by
    rw [← hcount, ← hcell]
    exact hu
  obtain ⟨n, hn⟩ := node_of_lt_count howner
  exact .of_adds (.transformation motion hn)
    (((calculated_extends s owner 0.0).push _).update howner hu)

theorem attachPin_adds {slot : PinSlot} {origin : Point Float}
    (h : s.attachPin owner slot origin = .ok t) : Additions named s t := by
  obtain ⟨n, hn, hrest⟩ := except_bind_eq_ok.mp h
  cases hslot : n.attachment? slot with
  | some a =>
      rw [hslot] at hrest
      cases hrest
      exact .refl
  | none =>
      rw [hslot] at hrest
      have hx := calculated_count s origin.x
      have hu : ((s.calculated origin.x).2.calculated origin.y).2.update owner
          (Node.attach slot { originX := s.count + 1, originY := s.count + 3 }) = .ok t := by
        have hcellX : (s.calculated origin.x).1 = s.count + 1 := count_push s _
        have hcellY : ((s.calculated origin.x).2.calculated origin.y).1 = s.count + 3 :=
          (count_push _ _).trans (congrArg (· + 1) hx)
        rw [← hcellX, ← hcellY]
        exact hrest
      exact .of_adds (.attach slot origin hn hslot)
        ((calculated_calculated_extends s owner origin.x origin.y).update (lt_count_of_node hn) hu)

theorem pinTarget?_adds {slot : PinSlot} {axis : Axis} {cell? : Option NodeId}
    (h : s.pinTarget? owner slot axis = .ok (cell?, t)) : Additions named s t := by
  obtain ⟨n, hn, hrest⟩ := except_bind_eq_ok.mp h
  cases hslot : n.attachment? slot with
  | none =>
      rw [hslot] at hrest
      cases hrest
      exact .refl
  | some a =>
      rw [hslot] at hrest
      obtain ⟨⟨cell, u⟩, hu, hr⟩ := except_bind_eq_ok.mp hrest
      cases hr
      exact materialize_adds (.target slot axis) hu

theorem setPinTargetAxis_changes {slot : PinSlot} {axis : Axis} {v : Float}
    (h : s.setPinTargetAxis owner slot axis v = .ok u) : Changes named s u := by
  obtain ⟨⟨cell?, t⟩, ht, hrest⟩ := except_bind_eq_ok.mp h
  have hchanges : Changes named s t := (pinTarget?_adds ht).changes
  cases cell? with
  | none =>
      cases hrest
      exact hchanges
  | some cell =>
      exact hchanges.trans (Rewrites.changes (t.setBaseValue_rewrites cell v u hrest))

theorem readback_cases {r : Readback} (h : s.readback owner r = .ok (cell, t)) :
    t = s ∨ ∃ n v, s.node owner = .ok n ∧ n.readback? r = none ∧
      s.Extends t owner (Node.fillReadback r s.count) [.scalar v (some owner)] := by
  obtain ⟨n, hn, hrest⟩ := except_bind_eq_ok.mp h
  cases hcell : n.readback? r with
  | some found =>
      rw [hcell] at hrest
      cases hrest
      exact .inl rfl
  | none =>
      rw [hcell] at hrest
      obtain ⟨v, -, hrest⟩ := except_bind_eq_ok.mp hrest
      obtain ⟨u, hu, hr⟩ := except_bind_eq_ok.mp hrest
      cases hr
      exact .inr ⟨n, v, hn, hcell,
        ((Extends.refl s owner).push _).update (lt_count_of_node hn) hu⟩

theorem readback_adds {r : Readback} (h : s.readback owner r = .ok (cell, t)) :
    Additions named s t := by
  rcases readback_cases h with rfl | ⟨n, v, hn, hempty, hextends⟩
  · exact .refl
  · exact .of_adds (.readback r v hn hempty) hextends

/-- A new read-back of a pin is added and then refreshed. -/
theorem pinReadback_cases {axis : Axis} (h : s.pinReadback owner axis = .ok (cell, t)) :
    t = s ∨ ∃ n u, s.node owner = .ok n ∧ n.pinReadback? axis = none ∧
      s.Extends u owner (Node.fillPinReadback axis s.count) [.scalar 0.0 (some owner)] ∧
      u.refreshPin owner = .ok t := by
  obtain ⟨n, hn, hrest⟩ := except_bind_eq_ok.mp h
  cases hcell : n.pinReadback? axis with
  | some found =>
      rw [hcell] at hrest
      cases hrest
      exact .inl rfl
  | none =>
      rw [hcell] at hrest
      obtain ⟨u, hu, hrest⟩ := except_bind_eq_ok.mp hrest
      obtain ⟨v, hv, hr⟩ := except_bind_eq_ok.mp hrest
      cases hr
      exact .inr ⟨n, u, hn, hcell,
        ((Extends.refl s owner).push _).update (lt_count_of_node hn) hu, hv⟩

theorem pinReadback_adds {axis : Axis} (h : s.pinReadback owner axis = .ok (cell, t)) :
    ∃ u, Additions named s u ∧ (t = u ∨ u.refreshPin owner = .ok t) := by
  rcases pinReadback_cases h with rfl | ⟨n, u, hn, hempty, hextends, hrefresh⟩
  · exact ⟨t, .refl, .inl rfl⟩
  · exact ⟨u, .of_adds (.pinReadback axis hn hempty) hextends, .inr hrefresh⟩

theorem pinReadback_changes {axis : Axis} (h : s.pinReadback owner axis = .ok (cell, t)) :
    Changes named s t := by
  obtain ⟨u, hu, rfl | ht⟩ := pinReadback_adds h
  · exact hu.changes
  · exact hu.changes.trans (Rewrites.changes (u.refreshPin_rewrites owner t ht))

theorem appendModifier_adds {link : ChainLink}
    (hcells : ∀ cell, link.operand = some (.cell cell) → named cell)
    (h : s.appendModifier owner link = .ok t) : Additions named s t := by
  obtain ⟨op, operand, hop⟩ := link
  obtain ⟨n, hn, hrest⟩ := except_bind_eq_ok.mp h
  match operand with
  | none | some (.cell cell) =>
      cases n with
      | calculated c =>
          refine .of_adds (.link op _ hn hop fun cell' hcell' => ?_)
            (((Extends.refl s owner).push _).update (lt_count_of_node hn) hrest)
          cases hcell' <;> exact hcells _ rfl
      | _ =>
          cases hrest
          exact .refl
  | some (.constant v) =>
      cases n with
      | calculated c =>
          have hn' : s.node owner = .ok (.calculated c) := by
            rcases node_push_eq_ok hn with hold | ⟨-, hnew⟩
            · exact hold
            · cases hnew
          have hcount : (s.operandCell (some (.constant v))).2.count = s.count + 1 := count_push s _
          rw [hcount] at hrest
          exact .of_adds (.linkConstant op v hn' (by rw [← hop]; rfl))
            ((((Extends.refl s owner).push _).push _).update (lt_count_of_node hn') hrest)
      | _ =>
          cases hrest
          exact .of_adds (.blank owner (.scalar v)) ((Extends.refl s owner).push _)

theorem modify_adds {links : List ChainLink}
    (hcells : ∀ link ∈ links, ∀ cell, link.operand = some (.cell cell) → named cell)
    (h : s.modify owner links = .ok t) : Additions named s t := by
  unfold modify at h
  induction links generalizing s with
  | nil =>
      cases h
      exact .refl
  | cons link links ih =>
      rw [List.foldlM_cons] at h
      obtain ⟨u, hu, hrest⟩ := except_bind_eq_ok.mp h
      rw [List.forall_mem_cons] at hcells
      exact (appendModifier_adds hcells.1 hu).trans (ih hcells.2 hrest)

end Scene

/-- A node without its place among parents and children. -/
def Node.unplaced (n : Node) : Node :=
  (n.setParent none).mapContainer fun c => { c with children := [] }

@[simp] theorem Node.unplaced_setParent (parent : Option NodeId) (n : Node) :
    (n.setParent parent).unplaced = n.unplaced := by
  cases n <;> rfl

@[simp] theorem Node.unplaced_mapChildren (f : List NodeId → List NodeId) (n : Node) :
    (n.mapContainer fun c => { c with children := f c.children }).unplaced = n.unplaced := by
  cases n <;> rfl

namespace Scene

variable {s t u : Scene} {parent child : NodeId}

/-- Nothing changed but which node is whose child. -/
def Rearranged (s t : Scene) : Prop :=
  t.nodes.map Node.unplaced = s.nodes.map Node.unplaced

theorem Rearranged.refl (s : Scene) : Rearranged s s :=
  rfl

theorem Rearranged.trans (hst : Rearranged s t) (htu : Rearranged t u) : Rearranged s u :=
  Eq.trans htu hst

theorem Rearranged.touch (h : Rearranged s t) : Rearranged s t.touch :=
  h

theorem Rearranged.update {id : NodeId} {f : Node → Node} (h : s.update id f = .ok t)
    (hf : ∀ n, (f n).unplaced = n.unplaced) : Rearranged s t := by
  unfold Scene.update at h
  split at h <;> cases h
  apply Array.ext_getElem?
  intro i
  simp only [Array.getElem?_map, Array.getElem?_modify]
  split <;> simp [Function.comp_def, hf]

theorem unlink_rearranged {r : Bool × Scene} (h : s.unlink parent child = .ok r) :
    Rearranged s r.2 := by
  rcases unlink_cases h with ⟨-, -, t, ht, hr⟩ | ⟨-, rfl⟩
  · exact (Rearranged.update ht (Node.unplaced_mapChildren fun l => l.erase child)).trans
      (.update hr (Node.unplaced_setParent none))
  · exact .refl s

theorem addChild_rearranged (h : s.addChild parent child = .ok t) : Rearranged s t := by
  obtain ⟨s₁, h₁, h⟩ := except_bind_eq_ok.mp h
  obtain ⟨s₂, h₂, h⟩ := except_bind_eq_ok.mp h
  obtain ⟨s₃, h₃, h⟩ := except_bind_eq_ok.mp h
  cases h
  have hdetach : Rearranged s s₁ := by
    rcases detach_cases h₁ with rfl | ⟨old, r, hr, rfl⟩
    · exact .refl _
    · exact unlink_rearranged hr
  have hattach : Rearranged s₁ s₂ := .update h₂ (Node.unplaced_setParent _)
  have happend : Rearranged s₂ s₃ := .update h₃ (Node.unplaced_mapChildren fun l => l ++ [child])
  exact ((hdetach.trans hattach).trans happend).touch

theorem removeChild_rearranged {r : Bool × Scene} (h : s.removeChild parent child = .ok r) :
    Rearranged s r.2 := by
  obtain ⟨⟨removed, t⟩, ht, hr⟩ := except_bind_eq_ok.mp h
  cases hr
  have hunlink : Rearranged s t := unlink_rearranged ht
  cases removed
  · exact hunlink
  · exact hunlink.touch

/-- Each node has a counterpart in the other scene. -/
theorem Rearranged.node (h : Rearranged s t) {id : NodeId} {n : Node} (hn : s.node id = .ok n) :
    ∃ n', t.node id = .ok n' ∧ n'.unplaced = n.unplaced := by
  have hmap := congrArg (fun nodes => nodes[id]?) h
  simp only [Array.getElem?_map, node_eq_ok.mp hn, Option.map_some] at hmap
  obtain ⟨n', hn', heq⟩ := Option.map_eq_some_iff.mp hmap
  exact ⟨n', node_eq_ok.mpr hn', heq⟩

end Scene

namespace Operation

open Scene Session

variable {σ : Session} {o : Outcome} {op : Operation}

/-- Attaches children or takes one away. -/
def IsRelinking : Operation → Prop
  | .addChild .. | .addChildren .. | .removeChild .. => True
  | _ => False

theorem outcome?_rearranged (hop : op.IsRelinking) (h : op.outcome? σ.scene = some o) :
    Rearranged σ.scene o.scene := by
  cases op with
  | addChild parent child =>
      obtain ⟨t, ht, rfl⟩ := map_toOption_eq_some.mp h
      exact addChild_rearranged ht
  | addChildren parent children =>
      obtain ⟨t, ht, rfl⟩ := map_toOption_eq_some.mp h
      exact foldlM_related Rearranged.refl Rearranged.trans addChild_rearranged children ht
  | removeChild parent child =>
      obtain ⟨r, hr, rfl⟩ := map_toOption_eq_some.mp h
      exact removeChild_rearranged hr
  | _ => exact hop.elim

/-- An operation that only adds something. -/
def IsAdding : Operation → Prop
  | .scalar _ | .input _ | .calculated _ | .modify .. | .part | .model | .pin | .pinnedPart
  | .partAttribute .. | .addTransformation .. | .readback .. | .pinCoordinate ..
  | .pinnedPartDimension .. | .attachPin .. | .pinOrigin .. | .pinTarget .. => True
  | _ => False

theorem outcome?_adds (hσ : Sound σ) (hallowed : op.Allowed σ) (hop : op.IsAdding)
    (h : op.outcome? σ.scene = some o) : Additions σ.HasValue σ.scene o.scene := by
  have hblank : ∀ {n : Node}, n.Blank → Additions σ.HasValue σ.scene (σ.scene.push n) := fun hn =>
    .of_adds (.blank 0 hn) ((Extends.refl σ.scene 0).push _)
  cases op with
  | scalar v =>
      cases h
      exact hblank (.scalar v)
  | input index =>
      cases h
      exact hblank (.input index)
  | calculated base =>
      cases h
      exact .of_adds (.calculated 0 base) (calculated_extends σ.scene 0 base)
  | part =>
      cases h
      exact hblank .part
  | model =>
      cases h
      exact hblank .model
  | pin =>
      cases h
      exact hblank .pin
  | pinnedPart =>
      cases h
      exact hblank .pinnedPart
  | modify id links =>
      obtain ⟨t, ht, rfl⟩ := map_toOption_eq_some.mp h
      exact modify_adds hallowed.2 ht
  | partAttribute id a =>
      obtain ⟨⟨cell, t⟩, ht, rfl⟩ := map_toOption_eq_some.mp h
      exact materialize_adds (.attribute a) ht
  | addTransformation owner motion =>
      obtain ⟨⟨cell, t⟩, ht, rfl⟩ := map_toOption_eq_some.mp h
      exact addTransformation_adds (hσ.isContainer hallowed).lt_count ht
  | readback owner r =>
      obtain ⟨⟨cell, t⟩, ht, rfl⟩ := map_toOption_eq_some.mp h
      exact readback_adds ht
  | pinCoordinate id axis =>
      obtain ⟨⟨cell, t⟩, ht, rfl⟩ := map_toOption_eq_some.mp h
      exact materialize_adds (.coordinate axis) ht
  | pinnedPartDimension id d =>
      obtain ⟨⟨cell, t⟩, ht, rfl⟩ := map_toOption_eq_some.mp h
      exact materialize_adds (.dimension d) ht
  | attachPin id slot origin =>
      obtain ⟨t, ht, rfl⟩ := map_toOption_eq_some.mp h
      exact attachPin_adds ht
  | pinOrigin id slot axis =>
      obtain ⟨cell?, -, rfl⟩ := map_toOption_eq_some.mp h
      exact .refl
  | pinTarget id slot axis =>
      obtain ⟨⟨cell?, t⟩, ht, rfl⟩ := map_toOption_eq_some.mp h
      exact pinTarget?_adds ht
  | _ => exact hop.elim

/-- An operation that attaches nothing and takes nothing away comes down to changes. -/
theorem outcome?_changes (hσ : Sound σ) (hallowed : op.Allowed σ) (hop : ¬ op.IsRelinking)
    (h : op.outcome? σ.scene = some o) : Changes σ.HasValue σ.scene o.scene := by
  by_cases hadds : op.IsAdding
  · exact (outcome?_adds hσ hallowed hadds h).changes
  cases op with
  | setValue id v =>
      obtain ⟨t, ht, rfl⟩ := map_toOption_eq_some.mp h
      exact Rewrites.changes (σ.scene.setValue_rewrites id v t ht)
  | setBaseValue id v =>
      obtain ⟨t, ht, rfl⟩ := map_toOption_eq_some.mp h
      exact Rewrites.changes (σ.scene.setBaseValue_rewrites id v t ht)
  | setPartAttribute id a v =>
      obtain ⟨⟨cell, t⟩, ht, rfl⟩ := map_toOption_eq_some.mp h
      exact setBaseOf_changes ht fun cell t ht => materialize_adds (.attribute a) ht
  | setPinCoordinate id axis v =>
      obtain ⟨⟨cell, t⟩, ht, rfl⟩ := map_toOption_eq_some.mp h
      exact setBaseOf_changes ht fun cell t ht => materialize_adds (.coordinate axis) ht
  | pinReadback id axis =>
      obtain ⟨⟨cell, t⟩, ht, rfl⟩ := map_toOption_eq_some.mp h
      exact pinReadback_changes ht
  | setPinnedPartDimension id d v =>
      obtain ⟨⟨cell, t⟩, ht, rfl⟩ := map_toOption_eq_some.mp h
      exact setBaseOf_changes ht fun cell t ht => materialize_adds (.dimension d) ht
  | setPinTarget id slot target =>
      obtain ⟨u, hu, rfl⟩ := map_toOption_eq_some.mp h
      obtain ⟨t, ht, hu⟩ := except_bind_eq_ok.mp hu
      exact (setPinTargetAxis_changes ht).trans (setPinTargetAxis_changes hu)
  | addChild | addChildren | removeChild => exact (hop trivial).elim
  | setDisplay id handle =>
      obtain ⟨t, ht, rfl⟩ := map_toOption_eq_some.mp h
      exact .single (.inPlace (setDisplay_alike ht).wiring)
  | setSource id index source =>
      obtain ⟨t, ht, rfl⟩ := map_toOption_eq_some.mp h
      exact .single (.inPlace (setSource_wiring ht))
  | compile root =>
      obtain rfl := outcome?_compile h
      exact .refl
  | compileModel id => exact .single (.inPlace (outcome?_compileModel h).wiring)
  | renderModel id => exact .single (.inPlace (outcome?_renderModel h).wiring)
  | renderList list inputs =>
      obtain ⟨f, hf, rfl⟩ := map_toOption_eq_some.mp h
      exact Rewrites.changes (replay_rewrites hf)
  | _ => exact (hadds trivial).elim

end Operation

end SceneGraph
