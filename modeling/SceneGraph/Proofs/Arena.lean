import SceneGraph.Proofs.Attachment
import SceneGraph.Proofs.Sources

/-!
What every position that a scene stores stands for.

A node stores positions of other nodes, each in a certain role: as the base of a chain, as a
link of it, as the cell of an attribute, and so on.  Main statement of this part: in every
scene that is used through its operations, each of them leads to a node of the kind that the
role asks for, and back where the role says so (`Session.Reachable.serves`).

`WellFormed` has most of this already.  Where it leaves several kinds open, `Narrow` goes on.
-/

namespace SceneGraph

namespace NodeKind

/-- What a host can hold as a value. -/
def IsValue (k : NodeKind) : Prop :=
  k = .scalar ∨ k = .input ∨ k = .calculated

/-- A part proper or a model. -/
def IsPart (k : NodeKind) : Prop :=
  k = .part ∨ k = .model

end NodeKind

/-- As what a node stores the position of another one.  Links, children, motions and sources
are counted from zero. -/
inductive Role where
  /-- The node that a read-back is read from. -/
  | requirement
  | base
  | link (k : Nat)
  | target
  | operand
  | owner
  | amount
  | parent
  | child (k : Nat)
  | motion (k : Nat)
  | attribute (a : PartAttribute)
  | readback (r : Readback)
  | coordinate (axis : Axis)
  | pinReadback (axis : Axis)
  | dimension (d : Dimension)
  | origin (slot : PinSlot) (axis : Axis)
  | pinTarget (slot : PinSlot) (axis : Axis)
  | source (k : Nat)
  deriving DecidableEq

/-- What a node stores in a role. -/
def Node.held? : Role → Node → Option NodeId
  | .requirement, .scalar _ requirement => requirement
  | .base, .calculated c => some c.base
  | .link k, .calculated c => c.modifiers[k]?
  | .target, .modified m => some m.target
  | .operand, .modified m => m.operand
  | .owner, .transformation t => some t.owner
  | .amount, .transformation t => some t.amount
  | .parent, n => n.parent?
  | .child k, n => n.kids[k]?
  | .motion k, n => n.transformations[k]?
  | .attribute a, n => n.attribute? a
  | .readback r, n => n.readback? r
  | .coordinate axis, n => n.coordinate? axis
  | .pinReadback axis, n => n.pinReadback? axis
  | .dimension d, n => n.dimension? d
  | .origin slot axis, n => (n.attachment? slot).map fun a => a.origin axis
  | .pinTarget slot axis, n => n.target? slot axis
  | .source k, n => (n.model?.bind fun state => state.sources[k]?).map Prod.snd
  | _, _ => none

theorem CellSlot.develops_fill (cell : NodeId) (n : Node) :
    (slot : CellSlot) → n.Develops (slot.fill cell n)
  | .attribute a => n.develops_fillAttribute a cell
  | .coordinate axis => n.develops_fillCoordinate axis cell
  | .dimension d => n.develops_fillDimension d cell
  | .target slot axis => n.develops_fillTarget slot axis cell

namespace Scene

variable {named : NodeId → Prop} {s t : Scene} {owner id cell : NodeId} {f : Node → Node}
  {news : List Node} {n : Node}

/-- A cell that is not read back from anywhere. -/
def IsPlain (s : Scene) (id : NodeId) : Prop :=
  ∃ v, s.node id = .ok (.scalar v none)

abbrev IsModified (s : Scene) : NodeId → Prop :=
  s.HasKind (· = .modified)

abbrev IsValue (s : Scene) : NodeId → Prop :=
  s.HasKind NodeKind.IsValue

theorem IsPlain.mono (h : s.IsPlain id) (hst : Develops s t) : t.IsPlain id := by
  obtain ⟨v, hv⟩ := h
  obtain ⟨n', hn', hdevelops⟩ := hst id _ hv
  obtain ⟨v', rfl⟩ := hdevelops.scalar
  exact ⟨v', hn'⟩

theorem IsPlain.hasKind (h : s.IsPlain id) : s.HasKind (· = .scalar) id := by
  obtain ⟨v, hv⟩ := h
  exact ⟨_, hv, rfl⟩

/-- A position is fit for the role in which a node stores it. -/
def Serves (s : Scene) (id : NodeId) (n : Node) : Role → NodeId → Prop
  | .requirement, c => ∃ m, s.node c = .ok m ∧ m.kind.IsPlaced ∧ m.Shows id
  | .base, c => s.IsPlain c
  | .link k, c => ∃ m, s.node c = .ok (.modified m) ∧ m.operand.isNone = m.op.isUnary ∧
      some m.target = n.held? (if k = 0 then .base else .link (k - 1))
  | .target, c => s.IsPlain c ∨ s.IsModified c
  | .operand, c => s.IsValue c
  | .owner, c => ∃ m, s.node c = .ok m ∧ m.kind.IsContainer ∧ id ∈ m.transformations
  | .parent, c => s.IsContainer c
  | .child _, c => s.IsPlaced c
  | .motion _, c => s.Moves c id
  | .readback _, c | .pinReadback _, c => ∃ v, s.node c = .ok (.scalar v (some id))
  | .amount, c | .attribute _, c | .coordinate _, c | .dimension _, c | .origin _ _, c
  | .pinTarget _ _, c => s.IsCalculated c
  | .source _, c => s.IsValue c

/-- Whatever serves in a role is there. -/
theorem Serves.lt_count {role : Role} (h : s.Serves id n role cell) : cell < s.count := by
  cases role with
  | base | readback | pinReadback =>
      obtain ⟨v, hv⟩ := h
      exact lt_count_of_node hv
  | target => exact h.elim (fun hplain => hplain.hasKind.lt_count) HasKind.lt_count
  | motion k =>
      obtain ⟨motion, amount, hm⟩ := h
      exact lt_count_of_node hm
  | _ =>
      obtain ⟨m, hm, -⟩ := h
      exact lt_count_of_node hm

/-- What the links of a node lead to, where `Fits` leaves several kinds open. -/
def Narrows (s : Scene) : Node → Prop
  | .calculated c => s.IsPlain c.base ∧ ∀ link ∈ c.modifiers, s.IsModified link
  | .modified m => m.operand.isNone = m.op.isUnary ∧
      (s.IsPlain m.target ∨ s.IsModified m.target) ∧
      ∀ cell, m.operand = some cell → s.IsValue cell
  | .transformation t => s.IsCalculated t.amount
  | _ => True

def Narrow (s : Scene) : Prop :=
  ∀ id n, s.node id = .ok n → s.Narrows n

theorem Narrows.mono (h : s.Narrows n) (hst : Develops s t) : t.Narrows n := by
  cases n with
  | calculated c => exact ⟨h.1.mono hst, fun link hlink => (h.2 link hlink).mono hst⟩
  | modified m =>
      exact ⟨h.1, h.2.1.imp (fun hplain => hplain.mono hst) fun hlink => hlink.mono hst,
        fun cell hcell => (h.2.2 cell hcell).mono hst⟩
  | transformation step => exact HasKind.mono (p := (· = .calculated)) h hst
  | _ => trivial

theorem narrows_wiring : s.Narrows n.wiring ↔ s.Narrows n := by
  cases n <;> exact Iff.rfl

theorem narrows_unplaced : s.Narrows n.unplaced ↔ s.Narrows n := by
  cases n <;> exact Iff.rfl

theorem narrow_empty (defaultSize : Float) : Narrow (empty defaultSize) := by
  intro id n hn
  obtain ⟨v, hv⟩ := (wellFormed_empty defaultSize).shared id (lt_count_of_node hn)
  obtain rfl := node_unique hv hn
  trivial

/-- A chain ends in a link, or in its base while it has none. -/
theorem Narrows.tail {c : Calculated} (h : s.Narrows (.calculated c)) :
    s.IsPlain c.tail ∨ s.IsModified c.tail := by
  unfold Calculated.tail
  cases hlast : c.modifiers.getLast? with
  | none => exact .inl h.1
  | some link => exact .inr (h.2 link (List.mem_of_getLast? hlast))

theorem Adds.develops (h : Adds named s owner f news) (hn : s.node owner = .ok n) :
    n.Develops (f n) := by
  cases h with
  | blank | calculated => exact .refl n
  | cell slot => exact slot.develops_fill _ n
  | transformation => exact Node.develops_appendTransformation _ n
  | attach slot => exact Node.develops_attach slot _ n
  | readback r v howner hempty =>
      obtain rfl := node_unique howner hn
      exact Node.develops_fillReadback hempty _
  | pinReadback axis howner hempty =>
      obtain rfl := node_unique howner hn
      exact Node.develops_fillPinReadback hempty _
  | link | linkConstant => exact Node.develops_appendLink _ n

theorem Extends.develops (h : s.Extends t owner f news)
    (hf : ∀ n, s.node owner = .ok n → n.Develops (f n)) : Develops s t := by
  intro id n hn
  refine ⟨_, h.old id n hn, ?_⟩
  split
  · next heq => exact hf n (heq ▸ hn)
  · exact .refl n

theorem Change.develops (h : Change named s t) : Develops s t := by
  cases h with
  | add hadds hextends => exact hextends.develops fun n hn => hadds.develops hn
  | inPlace hwiring => exact .of_wiring hwiring

theorem Narrows.fill (h : s.Narrows n) (slot : CellSlot) : s.Narrows (slot.fill cell n) := by
  match slot with
  | .attribute a | .coordinate axis | .dimension d => cases n <;> exact h
  | .target slot axis =>
      simp only [CellSlot.fill, Node.fillTarget]
      cases n.attachment? slot with
      | none => exact h
      | some a => cases n <;> exact h

theorem Narrows.appendLink (h : s.Narrows n) {link : NodeId} (hlink : s.IsModified link) :
    s.Narrows (n.appendLink link) := by
  cases n with
  | calculated c =>
      refine ⟨h.1, fun link' hlink' => ?_⟩
      rcases List.mem_append.mp hlink' with hold | hnew
      · exact h.2 link' hold
      · exact List.mem_singleton.mp hnew ▸ hlink
  | _ => exact h

/-- The two nodes of a new calculated value. -/
theorem cellNodes_narrow {position : NodeId} {base : Float}
    (hplain : t.IsPlain position) : ∀ n ∈ cellNodes position base, t.Narrows n := by
  intro n hn
  simp only [cellNodes, List.mem_cons, List.not_mem_nil, or_false] at hn
  rcases hn with rfl | rfl
  · trivial
  · exact ⟨hplain, fun _ hlink => absurd hlink List.not_mem_nil⟩

theorem Adds.narrows (h : Adds named s owner f news) (hextends : s.Extends t owner f news)
    (hs : s.Narrow) (hnamed : ∀ cell, named cell → s.IsValue cell) :
    (∀ n, s.node owner = .ok n → t.Narrows (f n)) ∧ ∀ n ∈ news, t.Narrows n := by
  have hst := hextends.develops fun n hn => h.develops hn
  have hold : ∀ n, s.node owner = .ok n → t.Narrows n := fun n hn => (hs owner n hn).mono hst
  cases h with
  | blank hblank =>
      refine ⟨hold, fun n hn => ?_⟩
      rw [List.mem_singleton.mp hn]
      cases hblank <;> trivial
  | calculated base =>
      exact ⟨hold, cellNodes_narrow ⟨base, hextends.new 0 _ rfl⟩⟩
  | cell slot base =>
      exact ⟨fun n hn => (hold n hn).fill slot, cellNodes_narrow ⟨base, hextends.new 0 _ rfl⟩⟩
  | transformation motion =>
      refine ⟨fun n hn => ?_, fun n hn => ?_⟩
      · have hn := hold n hn
        cases n <;> exact hn
      · rcases List.mem_append.mp hn with hn | hn
        · exact cellNodes_narrow ⟨0.0, hextends.new 0 _ rfl⟩ n hn
        · rw [List.mem_singleton.mp hn]
          exact ⟨_, hextends.new 1 _ rfl, rfl⟩
  | attach slot origin =>
      refine ⟨fun n hn => ?_, fun n hn => ?_⟩
      · have hn := hold n hn
        cases n <;> exact hn
      · rcases List.mem_append.mp hn with hn | hn
        · exact cellNodes_narrow ⟨origin.x, hextends.new 0 _ rfl⟩ n hn
        · exact cellNodes_narrow ⟨origin.y, hextends.new 2 _ rfl⟩ n hn
  | readback | pinReadback =>
      refine ⟨fun n hn => ?_, fun n hn => ?_⟩
      · have hn := hold n hn
        cases n <;> exact hn
      · rw [List.mem_singleton.mp hn]
        trivial
  | @link c op operand howner hop hoperand =>
      have hlink : t.IsModified s.count := ⟨_, hextends.new 0 _ rfl, rfl⟩
      refine ⟨fun n hn => (hold n hn).appendLink hlink, fun n hn => ?_⟩
      rw [List.mem_singleton.mp hn]
      refine ⟨hop, (hold _ howner).tail, fun cell hcell => ?_⟩
      exact (hnamed cell (hoperand cell hcell)).mono hst
  | @linkConstant c op v howner hop =>
      have hlink : t.IsModified (s.count + 1) := ⟨_, hextends.new 1 _ rfl, rfl⟩
      refine ⟨fun n hn => (hold n hn).appendLink hlink, fun n hn => ?_⟩
      simp only [List.mem_cons, List.not_mem_nil, or_false] at hn
      rcases hn with rfl | rfl
      · trivial
      · refine ⟨hop.symm, (hold _ howner).tail, fun cell hcell => ?_⟩
        obtain rfl := Option.some.inj hcell
        exact ⟨_, hextends.new 0 _ rfl, .inl rfl⟩

theorem Change.narrow (h : Change named s t) (hs : s.Narrow)
    (hnamed : ∀ cell, named cell → s.IsValue cell) : t.Narrow := by
  have hst := h.develops
  intro id n' hn'
  cases h with
  | add hadds hextends =>
      obtain ⟨howner, hnews⟩ := hadds.narrows hextends hs hnamed
      rcases hextends.node_cases hn' with ⟨n, hn, rfl⟩ | ⟨i, -, hi⟩
      · split
        · next heq => exact howner n (heq ▸ hn)
        · exact (hs id n hn).mono hst
      · exact hnews n' (List.mem_of_getElem? hi)
  | inPlace hwiring =>
      obtain ⟨n, hn, heq⟩ := node_of_wiring hwiring.symm hn'
      rw [← narrows_wiring, ← heq, narrows_wiring]
      exact (hs id n hn).mono hst

theorem Changes.narrow (h : Changes named s t) (hs : s.Narrow)
    (hnamed : ∀ cell, named cell → s.IsValue cell) : t.Narrow := by
  have hall : t.Narrow ∧ ∀ cell, named cell → t.IsValue cell := by
    induction h with
    | refl => exact ⟨hs, hnamed⟩
    | tail _ hstep ih =>
        exact ⟨hstep.narrow ih.1 ih.2, fun cell hcell => (ih.2 cell hcell).mono hstep.develops⟩
  exact hall.1

theorem Rearranged.narrow (h : Rearranged s t) (hst : Develops s t) (hs : s.Narrow) :
    t.Narrow := by
  intro id n' hn'
  obtain ⟨n, hn, heq⟩ := Rearranged.node (Eq.symm h) hn'
  rw [← narrows_unplaced, ← heq, narrows_unplaced]
  exact (hs id n hn).mono hst

/-- The cell that a read-back yields reads its owner back. -/
theorem readback_yields {r : Readback} (howner : s.IsContainer owner)
    (h : s.readback owner r = .ok (cell, t)) :
    ∃ n, t.node owner = .ok n ∧ n.readback? r = some cell := by
  obtain ⟨n, hn, hrest⟩ := except_bind_eq_ok.mp h
  cases hcell : n.readback? r with
  | some found =>
      rw [hcell] at hrest
      cases hrest
      exact ⟨n, hn, hcell⟩
  | none =>
      rw [hcell] at hrest
      obtain ⟨v, -, hrest⟩ := except_bind_eq_ok.mp hrest
      obtain ⟨u, hu, hr⟩ := except_bind_eq_ok.mp hrest
      cases hr
      refine ⟨n.fillReadback r s.count, ?_, ?_⟩
      · rw [node_update_self hu]
        show ((s.push _).node owner).map _ = _
        rw [node_push_of_lt (lt_count_of_node hn), hn]
        rfl
      · obtain ⟨n', hn', hkind⟩ := howner
        obtain rfl := node_unique hn hn'
        cases n with
        | part p | pinnedPart p => exact p.readbacks.fill_self r _
        | _ => exact hkind.elim

theorem pinReadback_yields {axis : Axis} (howner : s.HasKind (· = .pin) owner)
    (h : s.pinReadback owner axis = .ok (cell, t)) :
    ∃ n, t.node owner = .ok n ∧ n.pinReadback? axis = some cell := by
  obtain ⟨n, hn, hrest⟩ := except_bind_eq_ok.mp h
  cases hcell : n.pinReadback? axis with
  | some found =>
      rw [hcell] at hrest
      cases hrest
      exact ⟨n, hn, hcell⟩
  | none =>
      rw [hcell] at hrest
      obtain ⟨u, hu, hrest⟩ := except_bind_eq_ok.mp hrest
      obtain ⟨v, hv, hr⟩ := except_bind_eq_ok.mp hrest
      cases hr
      obtain ⟨n', hn', hkind⟩ := howner
      obtain rfl := node_unique hn hn'
      obtain ⟨p, rfl⟩ := Node.exists_pin_of_kind hkind
      have hpin : u.node owner = .ok ((Node.pin p).fillPinReadback axis s.count) := by
        rw [node_update_self hu]
        show ((s.push _).node owner).map _ = _
        rw [node_push_of_lt (lt_count_of_node hn), hn]
        rfl
      obtain ⟨n', hn', heq⟩ := node_of_wiring (u.refreshPin_rewrites owner _ hv).alike.wiring hpin
      refine ⟨n', hn', ?_⟩
      rw [← Node.pinReadback?_wiring, heq, Node.pinReadback?_wiring]
      exact p.readbacks.fill_self axis _

/-- Links of a chain follow each other. -/
theorem Chained.link {target : NodeId} {links : List NodeId} (h : s.Chained target links)
    {k : Nat} (hk : links[k]? = some cell) : ∃ m, s.node cell = .ok (.modified m) ∧
      some m.target = if k = 0 then some target else links[k - 1]? := by
  induction links generalizing target k with
  | nil => cases hk
  | cons link links ih =>
      cases k with
      | zero =>
          obtain rfl := Option.some.inj hk
          obtain ⟨⟨m, hm, rfl⟩, -⟩ := h
          exact ⟨m, hm, rfl⟩
      | succ k =>
          obtain ⟨m, hm, htarget⟩ := ih h.2 hk
          refine ⟨m, hm, htarget.trans ?_⟩
          cases k <;> rfl

theorem Fits.container {c : Container} (h : s.Fits id n) (hc : n.container? = some c) :
    s.ContainerFits id c := by
  cases n with
  | part p | pinnedPart p =>
      obtain rfl := Option.some.inj hc
      exact h.1
  | _ => cases hc

theorem isContainer_of_mem_transformations {m : Node} (h : id ∈ m.transformations) :
    m.kind.IsContainer := by
  cases m with
  | part p => exact isContainer_part p
  | pinnedPart p => trivial
  | _ => cases h

theorem isPlaced_of_shows {m : Node} (h : m.Shows cell) : m.kind.IsPlaced := by
  rcases h with ⟨r, hr⟩ | ⟨axis, haxis⟩
  · cases m with
    | part p => exact .inl (isContainer_part p)
    | pinnedPart p => exact .inl trivial
    | _ => cases hr
  · cases m with
    | pin p => exact .inr rfl
    | _ => cases haxis

theorem isPlaced_of_mem_kids (h : s.Fits id n) (hcell : cell ∈ n.kids) : s.IsPlaced cell := by
  unfold Node.kids at hcell
  cases hc : n.container? with
  | none =>
      rw [hc] at hcell
      cases hcell
  | some c =>
      rw [hc] at hcell
      exact (h.container hc).children cell hcell

/-- In a well-formed scene with narrow links, what a node stores serves in its role.  Sources
are taken for granted. -/
theorem serves_of_held (hs : s.WellFormed) (hnarrow : s.Narrow) (hn : s.node id = .ok n)
    {role : Role} (hsource : ∀ k, role = .source k → s.IsValue cell)
    (hheld : n.held? role = some cell) : s.Serves id n role cell := by
  have hfits := hs.fits id n hn
  have hnarrows := hnarrow id n hn
  match role with
  | .parent => exact parent_isContainer hs hn hheld
  | .child k =>
      exact isPlaced_of_mem_kids hfits (List.mem_of_getElem? hheld)
  | .motion k => exact moves_of_transformation hs hn (List.mem_of_getElem? hheld)
  | .readback r => exact hs.scalar_of_shows hn (.inl ⟨r, hheld⟩)
  | .pinReadback axis => exact hs.scalar_of_shows hn (.inr ⟨axis, hheld⟩)
  | .origin slot axis =>
      obtain ⟨a, ha, rfl⟩ := Option.map_eq_some_iff.mp hheld
      have ha := attachment_fits hfits ha
      cases axis with
      | x => exact ha.originX
      | y => exact ha.originY
  | .pinTarget slot axis =>
      obtain ⟨a, ha, haxis⟩ := Option.bind_eq_some_iff.mp hheld
      exact (attachment_fits hfits ha).target axis cell haxis
  | .source k => exact hsource k rfl
  | .attribute a =>
      cases n with
      | part p => exact hfits.2.1 a cell hheld
      | _ => cases hheld
  | .coordinate axis =>
      cases n with
      | pin p => exact hfits.2.1 axis cell hheld
      | _ => cases hheld
  | .dimension d =>
      cases n with
      | pinnedPart p => exact hfits.2.1 d cell hheld
      | _ => cases hheld
  | .requirement =>
      cases n with
      | scalar v requirement =>
          obtain rfl : requirement = some cell := hheld
          obtain ⟨m, hm, hshows⟩ := hfits
          exact ⟨m, hm, isPlaced_of_shows hshows, hshows⟩
      | _ => cases hheld
  | .base =>
      cases n with
      | calculated c =>
          obtain rfl := Option.some.inj hheld
          exact hnarrows.1
      | _ => cases hheld
  | .link k =>
      cases n with
      | calculated c =>
          obtain ⟨m, hm, htarget⟩ := hfits.2.link hheld
          refine ⟨m, hm, (hnarrow cell _ hm).1, htarget.trans ?_⟩
          cases k <;> rfl
      | _ => cases hheld
  | .target =>
      cases n with
      | modified m =>
          obtain rfl := Option.some.inj hheld
          exact hnarrows.2.1
      | _ => cases hheld
  | .operand =>
      cases n with
      | modified m => exact hnarrows.2.2 cell hheld
      | _ => cases hheld
  | .owner =>
      cases n with
      | transformation step =>
          obtain rfl := Option.some.inj hheld
          obtain ⟨-, m, hm, hmem⟩ := hfits
          exact ⟨m, hm, isContainer_of_mem_transformations hmem, hmem⟩
      | _ => cases hheld
  | .amount =>
      cases n with
      | transformation step =>
          obtain rfl := Option.some.inj hheld
          exact hnarrows
      | _ => cases hheld

end Scene

/-- The kinds of nodes that a handle goes on to name.  A value proper is no chain. -/
def Handle.Means : Handle → NodeKind → Prop
  | .value _, k => k = .scalar ∨ k = .input
  | h, k => h.Names k

namespace Session

open Scene Operation

variable {σ τ : Session} {op : Operation} {o : Outcome}

/-- Every handle is of the type that it was given out with. -/
theorem means_of_outcome (hσ : Sound σ) (hallowed : op.Allowed σ)
    (h : op.outcome? σ.scene = some o) {handle : Handle} (hhandle : o.handle? = some handle) :
    o.scene.HasKind handle.Means handle.id := by
  have hdelivers := outcome?_delivers hσ hallowed h
  have hvalid := hdelivers.handle handle hhandle
  have hbuilt := hdelivers.builds.wellFormed
  cases op with
  | scalar v =>
      cases h
      cases hhandle
      exact hasKind_push _ (.inl rfl)
  | input index =>
      cases h
      cases hhandle
      exact hasKind_push _ (.inr rfl)
  | readback owner r =>
      obtain ⟨⟨cell, t⟩, ht, rfl⟩ := map_toOption_eq_some.mp h
      cases hhandle
      obtain ⟨n, hn, hcell⟩ := readback_yields (hσ.isContainer hallowed) ht
      obtain ⟨v, hv⟩ := hbuilt.scalar_of_shows hn (.inl ⟨r, hcell⟩)
      exact ⟨_, hv, .inl rfl⟩
  | pinReadback pin axis =>
      obtain ⟨⟨cell, t⟩, ht, rfl⟩ := map_toOption_eq_some.mp h
      cases hhandle
      obtain ⟨n, hn, hcell⟩ := pinReadback_yields (hσ.handles _ hallowed) ht
      obtain ⟨v, hv⟩ := hbuilt.scalar_of_shows hn (.inr ⟨axis, hcell⟩)
      exact ⟨_, hv, .inl rfl⟩
  | calculated | part | model | pin | pinnedPart =>
      cases h
      cases hhandle
      exact hvalid
  | partAttribute | setPartAttribute | addTransformation | pinCoordinate | setPinCoordinate
  | pinnedPartDimension | setPinnedPartDimension =>
      obtain ⟨⟨cell, t⟩, -, rfl⟩ := map_toOption_eq_some.mp h
      cases hhandle
      exact hvalid
  | pinOrigin | pinTarget =>
      obtain ⟨r, -, rfl⟩ := map_toOption_eq_some.mp h
      obtain ⟨cell, -, rfl⟩ := Option.map_eq_some_iff.mp hhandle
      exact hvalid
  | compile root =>
      obtain rfl := outcome?_compile h
      cases hhandle
  | compileModel model =>
      rw [(outcome?_compileModel h).handle] at hhandle
      cases hhandle
  | renderModel model =>
      rw [(outcome?_renderModel h).handle] at hhandle
      cases hhandle
  | _ =>
      obtain ⟨r, -, rfl⟩ := map_toOption_eq_some.mp h
      cases hhandle

/-- What holds beyond soundness: links of chains are narrow, handles are of their types, and
the sources of models are values. -/
structure Strict (σ : Session) : Prop where
  links : σ.scene.Narrow
  handles : ∀ h ∈ σ.handles, σ.scene.HasKind h.Means h.id
  sources : ∀ model, ∀ entry ∈ σ.scene.sourceTable model, σ.scene.IsValue entry.2

theorem strict_start (defaultSize : Float) : Strict (start defaultSize) where
  links := narrow_empty defaultSize
  handles := by simp [start]
  sources model entry hentry := by
    rw [sourceTable_start] at hentry
    cases hentry

theorem Strict.isValue (hσ : Strict σ) {id : NodeId} (h : σ.HasValue id) :
    σ.scene.IsValue id := by
  rcases h with h | h
  · exact (hσ.handles _ h).imp fun _ hk => hk.imp_right .inl
  · exact (hσ.handles _ h).imp fun _ hk => .inr (.inr hk)

theorem Strict.next (hσ : Strict σ) (hsound : Sound σ) (h : Next σ τ) : Strict τ := by
  have hdevelops := (hsound.next h).2
  refine ⟨?_, fun handle hhandle => ?_, fun model entry hentry => ?_⟩
  · obtain ⟨op, hallowed, hperform⟩ := h
    obtain ⟨o, ho, rfl⟩ := perform_eq_some hperform
    by_cases hop : op.IsRelinking
    · exact (outcome?_rearranged hop ho).narrow hdevelops hσ.links
    · exact (outcome?_changes hsound hallowed hop ho).narrow hσ.links fun _ => hσ.isValue
  · obtain ⟨op, hallowed, hperform⟩ := h
    obtain ⟨o, ho, rfl⟩ := perform_eq_some hperform
    rcases List.mem_append.mp hhandle with hnew | hold
    · exact means_of_outcome hsound hallowed ho (Option.mem_toList.mp hnew)
    · exact (hσ.handles handle hold).mono hdevelops
  · refine HasKind.mono ?_ hdevelops
    exact (h.sources hsound hentry).elim (hσ.sources model entry) hσ.isValue

theorem Reachable.strict (h : Reachable σ) : Strict σ := by
  obtain ⟨defaultSize, hrun⟩ := h
  induction hrun with
  | refl => exact strict_start defaultSize
  | tail hrun hnext ih => exact ih.next (Reachable.sound ⟨defaultSize, hrun⟩) hnext

/-- What a node stores serves in the role that it is stored in. -/
theorem Reachable.serves (h : Reachable σ) {id cell : NodeId} {n : Node} {role : Role}
    (hn : σ.scene.node id = .ok n) (hheld : n.held? role = some cell) :
    σ.scene.Serves id n role cell := by
  refine serves_of_held h.sound.wellFormed h.strict.links hn (fun k hk => ?_) hheld
  subst hk
  obtain ⟨entry, hentry, rfl⟩ := Option.map_eq_some_iff.mp hheld
  obtain ⟨state, hstate, hentry⟩ := Option.bind_eq_some_iff.mp hentry
  refine h.strict.sources id entry ?_
  rw [sourceTable_eq hn, hstate]
  exact List.mem_of_getElem? hentry

/-- Nodes stay, and keep their kinds. -/
theorem Runs.develops (h : Runs σ τ) (hσ : Reachable σ) : σ.scene.Develops τ.scene := by
  induction h with
  | refl => exact .refl _
  | tail hrun hnext ih => exact ih.trans ((hσ.runs hrun).sound.next hnext).2

end Session

end SceneGraph
