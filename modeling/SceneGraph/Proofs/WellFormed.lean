import Mathlib.Data.List.Nodup
import SceneGraph.Proofs.Wiring

/-!
What the links of a scene hold on to.

In a scene that was built through its operations, every link leads to a node of the kind it
is meant for, the links of a chain follow each other, extra motions belong to the one
container that lists them, and a read-back stands in one slot of the node it reads.  Nodes
keep their kind, so links that hold go on to hold while a scene develops.
-/

namespace SceneGraph

namespace NodeKind

/-- Carries a number. -/
def IsNumber : NodeKind → Prop
  | .scalar | .input | .calculated | .modified => True
  | _ => False

def IsContainer : NodeKind → Prop
  | .part | .model | .pinnedPart => True
  | _ => False

/-- Has a place in the plane. -/
def IsPlaced (k : NodeKind) : Prop :=
  k.IsContainer ∨ k = .pin

end NodeKind

namespace Node

/-- What a node keeps for good. -/
def core : Node → Node
  | .scalar _ requirement => .scalar 0.0 requirement
  | .input _ index => .input 0.0 index
  | .calculated c => .calculated ⟨c.base, 0.0, []⟩
  | .modified m => .modified { m with value := 0.0 }
  | .transformation t => .transformation t
  | .part p => .part { model := p.model.map fun _ => {} }
  | .pin _ => .pin {}
  | .pinnedPart _ => .pinnedPart {}

/-- The extra motions of a container. -/
def transformations (n : Node) : List NodeId :=
  (n.container?.map Container.transformations).getD []

/-- Reads itself back into a cell. -/
def Shows (n : Node) (cell : NodeId) : Prop :=
  (∃ r, n.readback? r = some cell) ∨ ∃ axis, n.pinReadback? axis = some cell

/-- The node may have come out of the other: its slots are filled at most, and its lists of
motions grew at most. -/
structure Develops (n n' : Node) : Prop where
  core : n'.core = n.core
  transformations : n.transformations ⊆ n'.transformations
  readback : ∀ r cell, n.readback? r = some cell → n'.readback? r = some cell
  pinReadback : ∀ axis cell, n.pinReadback? axis = some cell → n'.pinReadback? axis = some cell

theorem Develops.refl (n : Node) : Develops n n :=
  ⟨rfl, List.Subset.refl _, fun _ _ h => h, fun _ _ h => h⟩

theorem Develops.trans {n n' n'' : Node} (h : Develops n n') (h' : Develops n' n'') :
    Develops n n'' :=
  ⟨h'.core.trans h.core, List.Subset.trans h.transformations h'.transformations,
    fun r cell hr => h'.readback r cell (h.readback r cell hr),
    fun axis cell ha => h'.pinReadback axis cell (h.pinReadback axis cell ha)⟩

theorem Develops.shows {n n' : Node} (h : Develops n n') {cell : NodeId} (hn : n.Shows cell) :
    n'.Shows cell := by
  rcases hn with ⟨r, hr⟩ | ⟨axis, ha⟩
  · exact Or.inl ⟨r, h.readback r cell hr⟩
  · exact Or.inr ⟨axis, h.pinReadback axis cell ha⟩

@[simp] theorem core_wiring (n : Node) : n.wiring.core = n.core := by
  cases n <;> simp [core, wiring, Function.comp_def]

@[simp] theorem transformations_wiring (n : Node) :
    n.wiring.transformations = n.transformations := by
  cases n <;> rfl

@[simp] theorem readback?_wiring (r : Readback) (n : Node) :
    n.wiring.readback? r = n.readback? r := by
  cases n <;> rfl

@[simp] theorem pinReadback?_wiring (axis : Axis) (n : Node) :
    n.wiring.pinReadback? axis = n.pinReadback? axis := by
  cases n <;> rfl

@[simp] theorem parent?_wiring (n : Node) : n.wiring.parent? = n.parent? := by
  cases n <;> rfl

theorem Develops.of_wiring {n n' : Node} (h : n'.wiring = n.wiring) : Develops n n' := by
  refine ⟨?_, ?_, fun r cell hr => ?_, fun axis cell ha => ?_⟩
  · rw [← core_wiring n', h, core_wiring]
  · rw [← transformations_wiring n', h, transformations_wiring]
    exact List.Subset.refl _
  · rwa [← readback?_wiring r n', h, readback?_wiring]
  · rwa [← pinReadback?_wiring axis n', h, pinReadback?_wiring]

/-- The wiring says which cells read a node back. -/
theorem shows_of_wiring {n n' : Node} (h : n'.wiring = n.wiring) {cell : NodeId} :
    n'.Shows cell ↔ n.Shows cell :=
  ⟨(Develops.of_wiring h.symm).shows, (Develops.of_wiring h).shows⟩

theorem kind_core (n : Node) : n.core.kind = n.kind := by
  cases n with
  | part p => simp [core, kind]
  | _ => rfl

theorem exists_pin_of_kind {n : Node} (hkind : n.kind = .pin) : ∃ p, n = .pin p := by
  cases n with
  | pin p => exact ⟨p, rfl⟩
  | part p => cases hmodel : p.model <;> simp [kind, hmodel] at hkind
  | _ => cases hkind

theorem Develops.kind {n n' : Node} (h : Develops n n') : n'.kind = n.kind := by
  rw [← kind_core n', h.core, kind_core]

theorem Develops.scalar {n' : Node} {v : Float} {requirement : Option NodeId}
    (h : Develops (.scalar v requirement) n') : ∃ v', n' = .scalar v' requirement := by
  have hcore := h.core
  cases n' with
  | scalar v' requirement' =>
      obtain rfl : requirement' = requirement := by simpa [Node.core] using hcore
      exact ⟨v', rfl⟩
  | _ => simp [Node.core] at hcore

theorem Develops.input {n' : Node} {v : Float} {index : InputIndex}
    (h : Develops (.input v index) n') : ∃ v', n' = .input v' index := by
  have hcore := h.core
  cases n' with
  | input v' index' =>
      obtain rfl : index' = index := by simpa [Node.core] using hcore
      exact ⟨v', rfl⟩
  | _ => simp [Node.core] at hcore

theorem Develops.calculated {n' : Node} {c : Calculated} (h : Develops (.calculated c) n') :
    ∃ c', n' = .calculated c' ∧ c'.base = c.base := by
  have hcore := h.core
  cases n' with
  | calculated c' =>
      have hbase : c'.base = c.base := by simpa [Node.core] using hcore
      exact ⟨c', rfl, hbase⟩
  | _ => simp [Node.core] at hcore

theorem Develops.modified {n' : Node} {m : Modified} (h : Develops (.modified m) n') :
    ∃ m', n' = .modified m' ∧ m'.target = m.target := by
  have hcore := h.core
  cases n' with
  | modified m' =>
      have htarget : m'.target = m.target := by
        simp only [Node.core, Node.modified.injEq, Modified.mk.injEq] at hcore
        exact hcore.2.1
      exact ⟨m', rfl, htarget⟩
  | _ => simp [Node.core] at hcore

theorem Develops.transformation {n' : Node} {t : Transformation}
    (h : Develops (.transformation t) n') : n' = .transformation t := by
  have hcore := h.core
  cases n' with
  | transformation t' =>
      obtain rfl : t' = t := by simpa [Node.core] using hcore
      rfl
  | _ => simp [Node.core] at hcore

end Node

namespace Scene

variable {s t u : Scene} {id : NodeId}

/-- Every node of the first scene is in the second, developed at most. -/
def Develops (s t : Scene) : Prop :=
  ∀ id n, s.node id = .ok n → ∃ n', t.node id = .ok n' ∧ n.Develops n'

namespace Develops

theorem refl (s : Scene) : Develops s s :=
  fun _ n hn => ⟨n, hn, .refl n⟩

theorem trans (hst : Develops s t) (htu : Develops t u) : Develops s u := by
  intro id n hn
  obtain ⟨n', hn', h⟩ := hst id n hn
  obtain ⟨n'', hn'', h'⟩ := htu id n' hn'
  exact ⟨n'', hn'', h.trans h'⟩

theorem push (s : Scene) (n : Node) : Develops s (s.push n) := by
  intro id n' hn'
  refine ⟨n', ?_, .refl n'⟩
  rw [node_push_of_lt (lt_count_of_node hn')]
  exact hn'

theorem update {f : Node → Node} (h : s.update id f = .ok t)
    (hf : ∀ n, s.node id = .ok n → n.Develops (f n)) : Develops s t := by
  intro other n hn
  by_cases heq : other = id
  · subst heq
    refine ⟨f n, ?_, hf n hn⟩
    rw [node_update_self h, hn]
    rfl
  · exact ⟨n, by rwa [node_update_of_ne h heq], .refl n⟩

theorem of_wiring (h : t.wiring = s.wiring) : Develops s t := by
  intro id n hn
  obtain ⟨n', hn', heq⟩ := node_of_wiring h hn
  exact ⟨n', hn', .of_wiring heq⟩

theorem lt_count (h : Develops s t) (hid : id < s.count) : id < t.count := by
  obtain ⟨n, hn⟩ := node_of_lt_count hid
  obtain ⟨n', hn', -⟩ := h id n hn
  exact lt_count_of_node hn'

end Develops

/-- A node of a certain kind stands in a certain place. -/
def HasKind (s : Scene) (p : NodeKind → Prop) (id : NodeId) : Prop :=
  ∃ n, s.node id = .ok n ∧ p n.kind

theorem HasKind.of_node {p : NodeKind → Prop} {n : Node} (hn : s.node id = .ok n)
    (hp : p n.kind) : s.HasKind p id :=
  ⟨n, hn, hp⟩

theorem HasKind.mono {p : NodeKind → Prop} (h : s.HasKind p id) (hst : Develops s t) :
    t.HasKind p id := by
  obtain ⟨n, hn, hp⟩ := h
  obtain ⟨n', hn', hdevelops⟩ := hst id n hn
  exact ⟨n', hn', hdevelops.kind ▸ hp⟩

theorem HasKind.imp {p q : NodeKind → Prop} (h : s.HasKind p id) (hpq : ∀ k, p k → q k) :
    s.HasKind q id := by
  obtain ⟨n, hn, hp⟩ := h
  exact ⟨n, hn, hpq n.kind hp⟩

/-- A node is of one kind. -/
theorem HasKind.of_kind {p : NodeKind → Prop} {k : NodeKind} (h : s.HasKind p id)
    (hk : s.HasKind (· = k) id) : p k := by
  obtain ⟨n, hn, hp⟩ := h
  obtain ⟨n', hn', hkind⟩ := hk
  obtain rfl := node_unique hn hn'
  exact hkind ▸ hp

theorem HasKind.lt_count {p : NodeKind → Prop} (h : s.HasKind p id) : id < s.count := by
  obtain ⟨n, hn, -⟩ := h
  exact lt_count_of_node hn

abbrev IsNumber (s : Scene) : NodeId → Prop :=
  s.HasKind NodeKind.IsNumber

abbrev IsCalculated (s : Scene) : NodeId → Prop :=
  s.HasKind (· = .calculated)

abbrev IsContainer (s : Scene) : NodeId → Prop :=
  s.HasKind NodeKind.IsContainer

abbrev IsPlaced (s : Scene) : NodeId → Prop :=
  s.HasKind NodeKind.IsPlaced

theorem IsCalculated.isNumber (h : s.IsCalculated id) : s.IsNumber id :=
  HasKind.imp h fun _ hk => hk ▸ trivial

theorem IsContainer.isPlaced (h : s.IsContainer id) : s.IsPlaced id :=
  HasKind.imp h fun _ hk => Or.inl hk

/-- The links of a chain work on each other, the first one on the cell in front. -/
def Chained (s : Scene) : NodeId → List NodeId → Prop
  | _, [] => True
  | target, link :: links =>
    (∃ m, s.node link = .ok (.modified m) ∧ m.target = target) ∧ s.Chained link links

theorem Chained.mono {target : NodeId} {links : List NodeId} (h : s.Chained target links)
    (hst : Develops s t) : t.Chained target links := by
  induction links generalizing target with
  | nil => trivial
  | cons link links ih =>
      obtain ⟨⟨m, hm, htarget⟩, hrest⟩ := h
      obtain ⟨n', hn', hdevelops⟩ := hst link _ hm
      obtain ⟨m', rfl, htarget'⟩ := hdevelops.modified
      exact ⟨⟨m', hn', htarget'.trans htarget⟩, ih hrest⟩

theorem chained_append {target link : NodeId} {links : List NodeId}
    (h : s.Chained target links) {m : Modified} (hm : s.node link = .ok (.modified m))
    (htarget : m.target = links.getLast?.getD target) : s.Chained target (links ++ [link]) := by
  induction links generalizing target with
  | nil => exact ⟨⟨m, hm, htarget⟩, trivial⟩
  | cons first links ih =>
      refine ⟨h.1, ih h.2 ?_⟩
      rw [htarget, List.getLast?_cons]
      rfl

/-- The end of a chain carries a number. -/
theorem isNumber_tail {c : Calculated} (hbase : s.IsNumber c.base)
    (hchained : s.Chained c.base c.modifiers) : s.IsNumber c.tail := by
  have hlast : ∀ (links : List NodeId) (target : NodeId), s.IsNumber target →
      s.Chained target links → s.IsNumber (links.getLast?.getD target) := by
    intro links
    induction links with
    | nil => exact fun _ htarget _ => htarget
    | cons link links ih =>
        intro target _ hlinks
        obtain ⟨⟨m, hm, -⟩, hrest⟩ := hlinks
        rw [List.getLast?_cons]
        exact ih link ⟨_, hm, trivial⟩ hrest
  exact hlast c.modifiers c.base hbase hchained

/-- Filled slots hold nodes of a certain kind. -/
def SlotsHold {ι : Type} (s : Scene) (p : NodeKind → Prop) (slots : Slots ι) : Prop :=
  ∀ i cell, slots i = some cell → s.HasKind p cell

/-- Filled slots hold distinct cells that read a node back. -/
structure SlotsShow {ι : Type} (s : Scene) (owner : NodeId) (slots : Slots ι) : Prop where
  cell : ∀ i cell, slots i = some cell → ∃ v, s.node cell = .ok (.scalar v (some owner))
  injective : ∀ i j cell, slots i = some cell → slots j = some cell → i = j

section

variable {ι : Type} {slots : Slots ι}

theorem SlotsHold.mono {p : NodeKind → Prop} (h : s.SlotsHold p slots) (hst : Develops s t) :
    t.SlotsHold p slots :=
  fun i cell hi => (h i cell hi).mono hst

theorem SlotsHold.fill [DecidableEq ι] {p : NodeKind → Prop} (h : s.SlotsHold p slots) {i : ι}
    {cell : NodeId} (hcell : s.HasKind p cell) : s.SlotsHold p (slots.fill i cell) := by
  intro j other hj
  by_cases heq : j = i
  · subst heq
    obtain rfl : cell = other := by simpa using hj
    exact hcell
  · rw [Slots.fill_of_ne slots heq] at hj
    exact h j other hj

theorem SlotsShow.mono {owner : NodeId} (h : s.SlotsShow owner slots) (hst : Develops s t) :
    t.SlotsShow owner slots := by
  refine ⟨fun i cell hi => ?_, h.injective⟩
  obtain ⟨v, hv⟩ := h.cell i cell hi
  obtain ⟨n', hn', hdevelops⟩ := hst cell _ hv
  obtain ⟨v', rfl⟩ := hdevelops.scalar
  exact ⟨v', hn'⟩

/-- A slot may be filled with a cell that is in none yet. -/
theorem SlotsShow.fill [DecidableEq ι] {owner : NodeId} (h : s.SlotsShow owner slots) {i : ι}
    {cell : NodeId} {v : Float} (hcell : s.node cell = .ok (.scalar v (some owner)))
    (hnew : ∀ j, slots j ≠ some cell) : s.SlotsShow owner (slots.fill i cell) := by
  refine ⟨fun j other hj => ?_, fun j k other hj hk => ?_⟩
  · by_cases heq : j = i
    · subst heq
      obtain rfl : cell = other := by simpa using hj
      exact ⟨v, hcell⟩
    · rw [Slots.fill_of_ne slots heq] at hj
      exact h.cell j other hj
  · by_cases hji : j = i <;> by_cases hki : k = i
    · exact hji.trans hki.symm
    · subst hji
      obtain rfl : cell = other := by simpa using hj
      rw [Slots.fill_of_ne slots hki] at hk
      exact absurd hk (hnew k)
    · subst hki
      obtain rfl : cell = other := by simpa using hk
      rw [Slots.fill_of_ne slots hji] at hj
      exact absurd hj (hnew j)
    · rw [Slots.fill_of_ne slots hji] at hj
      rw [Slots.fill_of_ne slots hki] at hk
      exact h.injective j k other hj hk

end

/-- The links of a container hold. -/
structure ContainerFits (s : Scene) (id : NodeId) (c : Container) : Prop where
  parent : ∀ k, c.parent = some k → s.IsContainer k
  children : ∀ k ∈ c.children, s.IsPlaced k
  transformations : ∀ k ∈ c.transformations, ∃ motion amount,
    s.node k = .ok (.transformation ⟨id, motion, amount⟩)
  nodup : c.transformations.Nodup

theorem ContainerFits.mono {c : Container} (h : s.ContainerFits id c) (hst : Develops s t) :
    t.ContainerFits id c := by
  refine ⟨fun k hk => (h.parent k hk).mono hst, fun k hk => (h.children k hk).mono hst,
    fun k hk => ?_, h.nodup⟩
  obtain ⟨motion, amount, hmotion⟩ := h.transformations k hk
  obtain ⟨n', hn', hdevelops⟩ := hst k _ hmotion
  obtain rfl := hdevelops.transformation
  exact ⟨motion, amount, hn'⟩

/-- The cells of an attached pin. -/
structure AttachmentFits (s : Scene) (a : Attachment) : Prop where
  originX : s.IsCalculated a.originX
  originY : s.IsCalculated a.originY
  target : s.SlotsHold (· = .calculated) a.target

theorem AttachmentFits.mono {a : Attachment} (h : s.AttachmentFits a) (hst : Develops s t) :
    t.AttachmentFits a :=
  ⟨h.originX.mono hst, h.originY.mono hst, h.target.mono hst⟩

/-- The links of a node hold. -/
def Fits (s : Scene) (id : NodeId) : Node → Prop
  | .scalar _ none | .input .. => True
  | .scalar _ (some owner) => ∃ n, s.node owner = .ok n ∧ n.Shows id
  | .calculated c => s.IsNumber c.base ∧ s.Chained c.base c.modifiers
  | .modified m => s.IsNumber m.target ∧ ∀ cell, m.operand = some cell → s.IsNumber cell
  | .transformation t =>
    s.IsNumber t.amount ∧ ∃ n, s.node t.owner = .ok n ∧ id ∈ n.transformations
  | .part p =>
    s.ContainerFits id p.container ∧ s.SlotsHold (· = .calculated) p.attributes ∧
      s.SlotsShow id p.readbacks
  | .pin p =>
    (∀ k, p.parent = some k → s.IsContainer k) ∧
      s.SlotsHold (· = .calculated) p.coordinates ∧ s.SlotsShow id p.readbacks
  | .pinnedPart p =>
    s.ContainerFits id p.container ∧ s.SlotsHold (· = .calculated) p.size ∧
      (∀ slot a, p.pins slot = some a → s.AttachmentFits a) ∧ s.SlotsShow id p.readbacks

theorem Fits.mono {n : Node} (h : s.Fits id n) (hst : Develops s t) : t.Fits id n := by
  cases n with
  | scalar v requirement =>
      cases requirement with
      | none => trivial
      | some owner =>
          obtain ⟨n, hn, hshows⟩ := h
          obtain ⟨n', hn', hdevelops⟩ := hst owner n hn
          exact ⟨n', hn', hdevelops.shows hshows⟩
  | input v index => trivial
  | calculated c => exact ⟨h.1.mono hst, h.2.mono hst⟩
  | modified m => exact ⟨h.1.mono hst, fun cell hcell => (h.2 cell hcell).mono hst⟩
  | transformation t =>
      obtain ⟨hamount, n, hn, hmem⟩ := h
      obtain ⟨n', hn', hdevelops⟩ := hst t.owner n hn
      exact ⟨hamount.mono hst, n', hn', hdevelops.transformations hmem⟩
  | part p => exact ⟨h.1.mono hst, h.2.1.mono hst, h.2.2.mono hst⟩
  | pin p => exact ⟨fun k hk => (h.1 k hk).mono hst, h.2.1.mono hst, h.2.2.mono hst⟩
  | pinnedPart p =>
      exact ⟨h.1.mono hst, h.2.1.mono hst, fun slot a ha => (h.2.2.1 slot a ha).mono hst,
        h.2.2.2.mono hst⟩

/-- Whether links hold does not depend on what a node carries. -/
theorem fits_wiring {n : Node} : s.Fits id n.wiring ↔ s.Fits id n := by
  cases n with
  | scalar v requirement => cases requirement <;> exact Iff.rfl
  | part p =>
      exact and_congr_left' ⟨fun h => ⟨h.parent, h.children, h.transformations, h.nodup⟩,
        fun h => ⟨h.parent, h.children, h.transformations, h.nodup⟩⟩
  | pinnedPart p =>
      exact and_congr_left' ⟨fun h => ⟨h.parent, h.children, h.transformations, h.nodup⟩,
        fun h => ⟨h.parent, h.children, h.transformations, h.nodup⟩⟩
  | _ => exact Iff.rfl

/-- All links hold, and the shared cells are plain cells. -/
structure WellFormed (s : Scene) : Prop where
  shared : ∀ id, id < 3 → ∃ v, s.node id = .ok (.scalar v none)
  fits : ∀ id n, s.node id = .ok n → s.Fits id n

theorem wellFormed_empty (defaultSize : Float) : WellFormed (empty defaultSize) := by
  have hshared : ∀ id, id < 3 → ∃ v, (empty defaultSize).node id = .ok (.scalar v none) := by
    intro (id : Nat) (hid : id < 3)
    obtain rfl | rfl | rfl : id = 0 ∨ id = 1 ∨ id = 2 := by omega
    all_goals exact ⟨_, rfl⟩
  refine ⟨hshared, fun id n hn => ?_⟩
  obtain ⟨v, hv⟩ := hshared id (lt_count_of_node hn)
  obtain rfl := Except.ok.inj (hn.symm.trans hv)
  trivial

/-- A developed scene is well-formed if the links of its new nodes and of its changed nodes
hold. -/
theorem WellFormed.develop (hs : s.WellFormed) (hst : Develops s t)
    (hnew : ∀ id n', t.node id = .ok n' →
      (∃ n, s.node id = .ok n ∧ n'.wiring = n.wiring) ∨ t.Fits id n') : t.WellFormed := by
  refine ⟨fun id hid => ?_, fun id n' hn' => ?_⟩
  · obtain ⟨v, hv⟩ := hs.shared id hid
    obtain ⟨n', hn', hdevelops⟩ := hst id _ hv
    obtain ⟨v', rfl⟩ := hdevelops.scalar
    exact ⟨v', hn'⟩
  · rcases hnew id n' hn' with ⟨n, hn, hwiring⟩ | hfits
    · rw [← fits_wiring, hwiring, fits_wiring]
      exact (hs.fits id n hn).mono hst
    · exact hfits

theorem WellFormed.of_wiring (hs : s.WellFormed) (h : t.wiring = s.wiring) : t.WellFormed := by
  refine hs.develop (.of_wiring h) fun id n' hn' => ?_
  exact Or.inl (node_of_wiring h.symm hn' |>.imp fun n hn => ⟨hn.1, hn.2.symm⟩)

theorem WellFormed.push (hs : s.WellFormed) {n : Node} (hn : (s.push n).Fits s.count n) :
    (s.push n).WellFormed := by
  refine hs.develop (.push s n) fun id n' hn' => ?_
  rcases node_push_eq_ok hn' with hold | ⟨rfl, rfl⟩
  · exact Or.inl ⟨n', hold, rfl⟩
  · exact Or.inr hn

theorem WellFormed.update (hs : s.WellFormed) {f : Node → Node} (h : s.update id f = .ok t)
    (hf : ∀ n, s.node id = .ok n → n.Develops (f n))
    (hfits : ∀ n, s.node id = .ok n → Develops s t → t.Fits id (f n)) : t.WellFormed := by
  have hst := Develops.update h hf
  refine hs.develop hst fun other n' hn' => ?_
  rcases node_update_eq_ok h hn' with hold | ⟨rfl, n, hn, rfl⟩
  · exact Or.inl ⟨n', hold, rfl⟩
  · exact Or.inr (hfits n hn hst)

section

variable (hs : s.WellFormed) {n : Node} (hn : s.node id = .ok n)
include hs hn

/-- The cells that read a node back name the node. -/
theorem WellFormed.scalar_of_shows {cell : NodeId} (hshows : n.Shows cell) :
    ∃ v, s.node cell = .ok (.scalar v (some id)) := by
  have hfits := hs.fits id n hn
  rcases hshows with ⟨r, hr⟩ | ⟨axis, haxis⟩
  · cases n with
    | part p => exact hfits.2.2.cell r cell hr
    | pinnedPart p => exact hfits.2.2.2.cell r cell hr
    | _ => cases hr
  · cases n with
    | pin p => exact hfits.2.2.cell axis cell haxis
    | _ => cases haxis

theorem parent_isContainer {p : NodeId} (hparent : n.parent? = some p) : s.IsContainer p := by
  have hfits := hs.fits id n hn
  cases n with
  | part q | pinnedPart q => exact hfits.1.parent p hparent
  | pin q => exact hfits.1 p hparent
  | _ => cases hparent

end

end Scene

end SceneGraph
