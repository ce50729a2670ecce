import Mathlib.Logic.Relation
import SceneGraph.Scene.Hierarchy
import SceneGraph.Scene.Model

/-!
What a compile looks at.

The *wiring* of a scene is what is left of it without numbers, matrices, display handles,
sources and kept lists.  Its render graph depends on nothing else.  Replays overwrite numbers
and matrices, so they do not change it, and neither do edits of values.
-/

namespace SceneGraph

/-- A computation in sequence succeeds exactly if both parts do. -/
theorem except_bind_eq_ok {ε α β : Type} {x : Except ε α} {f : α → Except ε β} {b : β} :
    (x >>= f) = .ok b ↔ ∃ a, x = .ok a ∧ f a = .ok b := by
  cases x with
  | error e =>
      constructor
      · intro h
        cases h
      · rintro ⟨_, h, _⟩
        cases h
  | ok a =>
      constructor
      · intro h
        exact ⟨a, rfl, h⟩
      · rintro ⟨a', ha', h⟩
        cases ha'
        exact h

theorem ok_bind {ε α β : Type} (a : α) (f : α → Except ε β) : (Except.ok a >>= f) = f a :=
  rfl

@[simp] theorem mapError_ok {ε φ α : Type} (a : α) (f : ε → φ) :
    (.ok a : Except ε α).mapError f = .ok a :=
  rfl

@[simp] theorem mapError_error {ε φ α : Type} (e : ε) (f : ε → φ) :
    (.error e : Except ε α).mapError f = .error (f e) :=
  rfl

@[simp] theorem mapError_eq_ok {ε φ α : Type} {x : Except ε α} {f : ε → φ} {a : α} :
    x.mapError f = .ok a ↔ x = .ok a := by
  cases x <;> simp

theorem except_map_eq_ok {ε α β : Type} {x : Except ε α} {g : α → β} {b : β} :
    x.map g = .ok b ↔ ∃ a, x = .ok a ∧ g a = b := by
  cases x <;> simp [Except.map]

theorem except_map_eq_error {ε α β : Type} {x : Except ε α} {g : α → β} {e : ε} :
    x.map g = .error e ↔ x = .error e := by
  cases x <;> simp [Except.map]

/-- A loop relates its beginning to its end by whatever every round of it does. -/
theorem foldlM_related {ε α β : Type} {R : β → β → Prop} (hrefl : ∀ b, R b b)
    (htrans : ∀ {a b c}, R a b → R b c → R a c) {f : β → α → Except ε β}
    (hf : ∀ {b a c}, f b a = .ok c → R b c) (l : List α) {b b' : β}
    (h : l.foldlM f b = .ok b') : R b b' := by
  induction l generalizing b with
  | nil =>
      cases h
      exact hrefl _
  | cons a l ih =>
      rw [List.foldlM_cons] at h
      obtain ⟨c, hc, hrest⟩ := except_bind_eq_ok.mp h
      exact htrans (hf hc) (ih hrest)

/-- A container without its matrices. -/
def Container.wiring (c : Container) : Container :=
  { c with working := Matrix.identity, content := Matrix.identity }

namespace Node

/-- A node without what it carries. -/
def wiring : Node → Node
  | .scalar _ requirement => .scalar 0.0 requirement
  | .input _ index => .input 0.0 index
  | .calculated c => .calculated { c with value := 0.0 }
  | .modified m => .modified { m with value := 0.0 }
  | .transformation t => .transformation t
  | .part p =>
    .part { p with
      container := p.container.wiring
      display := none
      model := p.model.map fun _ => {} }
  | .pin p => .pin { p with display := none }
  | .pinnedPart p => .pinnedPart { p with container := p.container.wiring, display := none }

/-- What tells pins with the same wiring apart is how they are shown. -/
theorem eq_pin_of_wiring {n : Node} {p : Pin} (h : n.wiring = (Node.pin p).wiring) :
    ∃ display, n = .pin { p with display } := by
  cases n with
  | pin p' =>
      simp only [wiring, pin.injEq, Pin.mk.injEq] at h
      obtain ⟨hparent, hcoordinates, hreadbacks, -⟩ := h
      refine ⟨p'.display, ?_⟩
      rw [← hparent, ← hcoordinates, ← hreadbacks]
  | _ => simp [wiring] at h

/-- The list that a model keeps, of whatever generation. -/
def cached? (n : Node) : Option CachedList :=
  n.model?.bind ModelState.cached

@[simp] theorem wiring_wiring (n : Node) : n.wiring.wiring = n.wiring := by
  cases n <;> simp [wiring, Container.wiring, Function.comp_def]

@[simp] theorem wiring_setValue (v : Float) (n : Node) : (n.setValue v).wiring = n.wiring := by
  cases n <;> rfl

@[simp] theorem model?_setValue (v : Float) (n : Node) : (n.setValue v).model? = n.model? := by
  cases n <;> rfl

theorem wiring_mapContainer {f : Container → Container} (hf : ∀ c, (f c).wiring = c.wiring)
    (n : Node) : (n.mapContainer f).wiring = n.wiring := by
  cases n <;> simp [mapContainer, wiring, hf]

@[simp] theorem model?_mapContainer (f : Container → Container) (n : Node) :
    (n.mapContainer f).model? = n.model? := by
  cases n <;> rfl

@[simp] theorem wiring_setDisplay (handle : DisplayHandle) (n : Node) :
    (n.setDisplay handle).wiring = n.wiring := by
  cases n <;> rfl

@[simp] theorem model?_setDisplay (handle : DisplayHandle) (n : Node) :
    (n.setDisplay handle).model? = n.model? := by
  cases n <;> rfl

@[simp] theorem wiring_mapModel (f : ModelState → ModelState) (n : Node) :
    (n.mapModel f).wiring = n.wiring := by
  cases n <;> simp [mapModel, wiring, Function.comp_def]

@[simp] theorem model?_mapModel (f : ModelState → ModelState) (n : Node) :
    (n.mapModel f).model? = n.model?.map f := by
  cases n <;> rfl

theorem cached?_mapModel {f : ModelState → ModelState} (hf : ∀ m, (f m).cached = m.cached)
    (n : Node) : (n.mapModel f).cached? = n.cached? := by
  rw [cached?, model?_mapModel, cached?]
  cases n.model? <;> simp [hf]

end Node

namespace Scene

variable {s t u : Scene} {ε : Type}

@[simp] theorem needs_wiring (isolated : List NodeId) (id : NodeId) (n : Node) :
    needs isolated id n.wiring = needs isolated id n := by
  cases n with
  | part p => simp [Node.wiring, needs]; rfl
  | _ => rfl

@[simp] theorem contributions_wiring (isolated : List NodeId) (id : NodeId) (n : Node) :
    contributions isolated id n.wiring = contributions isolated id n := by
  cases n with
  | part p => simp [Node.wiring, contributions]
  | _ => rfl

@[simp] theorem resolvedAfter_wiring (isolated : List NodeId) (id : NodeId) (n : Node) :
    resolvedAfter isolated id n.wiring = resolvedAfter isolated id n := by
  cases n with
  | part p => simp [Node.wiring, resolvedAfter, Container.wiring]
  | _ => rfl

@[simp] theorem boundInput_wiring (n : Node) : boundInput n.wiring = boundInput n := by
  cases n <;> rfl

/-- How the nodes of a scene are linked. -/
def wiring (s : Scene) : Array Node :=
  s.nodes.map Node.wiring

/-- What a node says of its links is read off the wiring. -/
theorem map_node_eq_of_wiring {α : Type} (h : t.wiring = s.wiring) {g : Node → α}
    (hg : ∀ n, g n.wiring = g n) (id : NodeId) :
    t.nodes[id]?.map g = s.nodes[id]?.map g := by
  have hread : ∀ r : Scene, r.nodes[id]?.map g = r.wiring[id]?.map g := by
    intro r
    simp [wiring, Function.comp_def, hg]
  rw [hread t, hread s, h]

theorem bind_node_of_wiring {α : Type} (h : t.wiring = s.wiring) {g : Node → Option α}
    (hg : ∀ n, g n.wiring = g n) (id : NodeId) :
    t.nodes[id]?.bind g = s.nodes[id]?.bind g := by
  simpa only [Option.bind_id_eq_join, ← Option.bind_id_eq_join, Option.bind_map,
    Function.id_comp] using congrArg Option.join (map_node_eq_of_wiring h hg id)

theorem lt_count_of_node {id : NodeId} {n : Node} (h : s.node id = .ok n) : id < s.count := by
  unfold node at h
  split at h
  · next hn => exact (Array.getElem?_eq_some_iff.mp hn).1
  · cases h

theorem node_of_lt_count {id : NodeId} (h : id < s.count) : ∃ n, s.node id = .ok n := by
  have hsize : id < s.nodes.size := h
  unfold node
  rw [Array.getElem?_eq_getElem hsize]
  exact ⟨_, rfl⟩

theorem node_eq_ok {id : NodeId} {n : Node} : s.node id = .ok n ↔ s.nodes[id]? = some n := by
  unfold node
  split <;> simp_all

theorem node_unique {id : NodeId} {n n' : Node} (hn : s.node id = .ok n)
    (hn' : s.node id = .ok n') : n = n' :=
  Except.ok.inj (hn.symm.trans hn')

/-- A node of a scene with one more node is an old one or the new one. -/
theorem node_push_eq_ok {id : NodeId} {n n' : Node} (h : (s.push n).node id = .ok n') :
    s.node id = .ok n' ∨ id = s.count ∧ n' = n := by
  by_cases hid : id < s.count
  · rw [node_push_of_lt hid] at h
    exact Or.inl h
  · have hcount := lt_count_of_node h
    rw [count_push] at hcount
    obtain rfl : id = s.count := Nat.le_antisymm (Nat.le_of_lt_succ hcount) (Nat.le_of_not_lt hid)
    rw [node_push_self] at h
    exact Or.inr ⟨rfl, (Except.ok.inj h).symm⟩

/-- A node of a scene after an update is an old one or the updated one. -/
theorem node_update_eq_ok {id other : NodeId} {f : Node → Node} {n' : Node}
    (h : s.update id f = .ok t) (hn' : t.node other = .ok n') :
    s.node other = .ok n' ∨ other = id ∧ ∃ n, s.node id = .ok n ∧ n' = f n := by
  by_cases heq : other = id
  · subst heq
    rw [node_update_self h] at hn'
    obtain ⟨n, hn, hf⟩ := except_map_eq_ok.mp hn'
    exact Or.inr ⟨rfl, n, hn, hf.symm⟩
  · rw [node_update_of_ne h heq] at hn'
    exact Or.inl hn'

/-- Each node has a counterpart with the same links. -/
theorem node_of_wiring (h : t.wiring = s.wiring) {id : NodeId} {n : Node}
    (hn : s.node id = .ok n) : ∃ n', t.node id = .ok n' ∧ n'.wiring = n.wiring := by
  have hmap := map_node_eq_of_wiring h Node.wiring_wiring id
  rw [node_eq_ok.mp hn] at hmap
  obtain ⟨n', hn', heq⟩ := Option.map_eq_some_iff.mp hmap
  exact ⟨n', node_eq_ok.mpr hn', heq⟩

theorem count_eq_of_wiring (h : t.wiring = s.wiring) : t.count = s.count := by
  have hsize := congrArg Array.size h
  simpa [wiring, count] using hsize

theorem graph_eq_of_wiring (h : t.wiring = s.wiring) : t.graph = s.graph := by
  have hrequirements : t.graph.requirements = s.graph.requirements := by
    funext isolated id
    simp only [graph, map_node_eq_of_wiring h (needs_wiring isolated id) id]
  have hcontributions : t.graph.contributions = s.graph.contributions := by
    funext isolated id
    simp only [graph, map_node_eq_of_wiring h (contributions_wiring isolated id) id]
  have hchildren : t.graph.children = s.graph.children := by
    funext isolated id
    simp only [graph, map_node_eq_of_wiring h (resolvedAfter_wiring isolated id) id]
  have hinputs : t.graph.inputIndex = s.graph.inputIndex := by
    funext id
    exact bind_node_of_wiring h boundInput_wiring id
  unfold graph at *
  simp_all [count_eq_of_wiring h]

/-- Scenes with the same wiring compile alike, down to what is noted on the way. -/
theorem compile_eq_of_wiring (h : t.wiring = s.wiring) (root : NodeId) :
    t.compile root = s.compile root := by
  have hfailure : t.failure = s.failure := by
    funext e
    cases e <;> simp [failure, count_eq_of_wiring h]
  unfold compile
  rw [graph_eq_of_wiring h, hfailure]

/-- The list that a model keeps, of whatever generation. -/
def cached? (s : Scene) (id : NodeId) : Option CachedList :=
  s.nodes[id]?.bind Node.cached?

theorem nodes_update {id : NodeId} {f : Node → Node} (h : s.update id f = .ok t) (i : NodeId) :
    t.nodes[i]? = if i = id then s.nodes[i]?.map f else s.nodes[i]? := by
  unfold update at h
  split at h <;> cases h
  simp only [Array.getElem?_modify, eq_comm]

theorem wiring_update {id : NodeId} {f : Node → Node} (h : s.update id f = .ok t)
    (hf : ∀ n, (f n).wiring = n.wiring) : t.wiring = s.wiring := by
  apply Array.ext_getElem?
  intro i
  simp only [wiring, Array.getElem?_map, nodes_update h]
  split <;> simp [Function.comp_def, hf]

/-- Where the inputs of a model come from. -/
def sourceTable (s : Scene) (model : NodeId) : SourceTable :=
  ((s.nodes[model]?.bind Node.model?).map ModelState.sources).getD []

theorem cached?_eq_getD (s : Scene) (id : NodeId) :
    s.cached? id = ((s.nodes[id]?.bind Node.model?).getD {}).cached := by
  unfold cached?
  rw [show Node.cached? = fun n => n.model?.bind ModelState.cached from rfl, ← Option.bind_assoc]
  cases s.nodes[id]?.bind Node.model? <;> rfl

theorem sourceTable_eq_getD (s : Scene) (id : NodeId) :
    s.sourceTable id = ((s.nodes[id]?.bind Node.model?).getD {}).sources := by
  unfold sourceTable
  cases s.nodes[id]?.bind Node.model? <;> rfl

/-- What is read off the nodes one by one stays as it is if no update changes it. -/
theorem bind_node_update {α : Type} {id : NodeId} {f : Node → Node} (h : s.update id f = .ok t)
    {g : Node → Option α} (hg : ∀ n, g (f n) = g n) (i : NodeId) :
    t.nodes[i]?.bind g = s.nodes[i]?.bind g := by
  rw [nodes_update h]
  split
  · rw [Option.bind_map]
    exact congrArg _ (funext hg)
  · rfl

theorem cached?_update {id : NodeId} {f : Node → Node} (h : s.update id f = .ok t)
    (hf : ∀ n, (f n).cached? = n.cached?) : t.cached? = s.cached? :=
  funext fun i => bind_node_update h hf i

theorem sourceTable_update {id : NodeId} {f : Node → Node} (h : s.update id f = .ok t)
    (hf : ∀ n, (f n).model?.map ModelState.sources = n.model?.map ModelState.sources) :
    t.sourceTable = s.sourceTable := by
  funext i
  simp only [sourceTable, Option.map_bind]
  exact congrArg (Option.getD · []) (bind_node_update h hf i)

theorem generation_update {id : NodeId} {f : Node → Node} (h : s.update id f = .ok t) :
    t.generation = s.generation := by
  unfold Scene.update at h
  split at h <;> cases h
  rfl

theorem defaultSize_update {id : NodeId} {f : Node → Node} (h : s.update id f = .ok t) :
    t.defaultSize = s.defaultSize := by
  unfold Scene.update at h
  split at h <;> cases h
  rfl

/-- Nothing that a compile looks at changed, and every source and kept list is still there. -/
structure Alike (s t : Scene) : Prop where
  wiring : t.wiring = s.wiring
  cached : t.cached? = s.cached?
  sources : t.sourceTable = s.sourceTable
  generation : t.generation = s.generation
  defaultSize : t.defaultSize = s.defaultSize

namespace Alike

theorem refl (s : Scene) : Alike s s :=
  ⟨rfl, rfl, rfl, rfl, rfl⟩

theorem trans (hst : Alike s t) (htu : Alike t u) : Alike s u :=
  ⟨htu.wiring.trans hst.wiring, htu.cached.trans hst.cached, htu.sources.trans hst.sources,
    htu.generation.trans hst.generation, htu.defaultSize.trans hst.defaultSize⟩

theorem update {id : NodeId} {f : Node → Node} (h : s.update id f = .ok t)
    (hwiring : ∀ n, (f n).wiring = n.wiring) (hmodel : ∀ n, (f n).model? = n.model?) :
    Alike s t where
  wiring := wiring_update h hwiring
  cached := cached?_update h fun n => congrArg (Option.bind · ModelState.cached) (hmodel n)
  sources := sourceTable_update h fun n => congrArg (Option.map ModelState.sources) (hmodel n)
  generation := generation_update h
  defaultSize := defaultSize_update h

end Alike

/-- One number was overwritten, or the matrices of one container. -/
inductive Writes : Scene → Scene → Prop
  | setValue {s t : Scene} {id : NodeId} {v : Float} (h : s.setValue id v = .ok t) : Writes s t
  | mapContainer {s t : Scene} {id : NodeId} {f : Container → Container}
      (h : s.update id (Node.mapContainer f) = .ok t) (hf : ∀ c, (f c).wiring = c.wiring) :
      Writes s t

/-- Nothing happened but that numbers and matrices were overwritten. -/
abbrev Rewrites : Scene → Scene → Prop :=
  Relation.ReflTransGen Writes

theorem Writes.alike (h : Writes s t) : Alike s t := by
  cases h with
  | setValue h => exact Alike.update h (Node.wiring_setValue _) (Node.model?_setValue _)
  | mapContainer h hf =>
      exact Alike.update h (Node.wiring_mapContainer hf) (Node.model?_mapContainer _)

theorem Rewrites.alike (h : Rewrites s t) : Alike s t := by
  induction h with
  | refl => exact Alike.refl s
  | tail _ h ih => exact ih.trans h.alike

/-- A computation that overwrites numbers and matrices, and no more. -/
def Overwrites (s : Scene) (x : Except ε Scene) : Prop :=
  ∀ t, x = .ok t → Rewrites s t

namespace Overwrites

theorem pure (s : Scene) : Overwrites s (Pure.pure s : Except ε Scene) := by
  rintro t ⟨⟩
  exact .refl

/-- Reading first does no harm. -/
theorem read {α : Type} {x : Except ε α} {f : α → Except ε Scene}
    (hf : ∀ a, Overwrites s (f a)) : Overwrites s (x >>= f) := by
  intro t h
  obtain ⟨a, _, ha⟩ := except_bind_eq_ok.mp h
  exact hf a t ha

theorem bind {x : Except ε Scene} {f : Scene → Except ε Scene} (hx : Overwrites s x)
    (hf : ∀ t, Overwrites t (f t)) : Overwrites s (x >>= f) := by
  intro u h
  obtain ⟨t, ht, hu⟩ := except_bind_eq_ok.mp h
  exact (hx t ht).trans (hf t u hu)

theorem foldlM {α : Type} {f : Scene → α → Except ε Scene}
    (hf : ∀ s a, Overwrites s (f s a)) (l : List α) (s : Scene) :
    Overwrites s (l.foldlM f s) :=
  fun _ h => foldlM_related (fun _ => .refl) .trans (fun {b a c} => hf b a c) l h

end Overwrites

theorem setValue_rewrites (s : Scene) (id : NodeId) (v : Float) :
    Overwrites s (s.setValue id v) :=
  fun _ h => .single (.setValue h)

theorem setBaseValue_rewrites (s : Scene) (id : NodeId) (v : Float) :
    Overwrites s (s.setBaseValue id v) := by
  refine Overwrites.read fun n => ?_
  cases n with
  | calculated c => exact (s.setValue_rewrites id v).bind fun t => t.setValue_rewrites c.base v
  | _ => exact Overwrites.pure s

theorem setSlotValue_rewrites (s : Scene) (slot : Option NodeId) (v : Float) :
    Overwrites s (s.setSlotValue slot v) := by
  cases slot with
  | none => exact Overwrites.pure s
  | some cell => exact s.setValue_rewrites cell v

theorem setDisplay_alike {id : NodeId} {handle : DisplayHandle}
    (h : s.setDisplay id handle = .ok t) : Alike s t :=
  Alike.update h (Node.wiring_setDisplay handle) (Node.model?_setDisplay handle)

/-- A registered source enters the table of a model, unless there is no model. -/
theorem setSource_cases {id : NodeId} {index : InputIndex} {source : NodeId}
    (h : s.setSource id index source = .ok t) : t = s ∨ ∃ state sources,
      s.nodes[id]?.bind Node.model? = some state ∧
        state.sources.register index source = .ok sources ∧
        s.update id (Node.mapModel fun state => { state with sources }) = .ok t := by
  obtain ⟨n, hn, h⟩ := except_bind_eq_ok.mp h
  have hn := node_eq_ok.mp (mapError_eq_ok.mp hn)
  cases hmodel : n.model? with
  | none =>
      rw [hmodel] at h
      cases h
      exact Or.inl rfl
  | some state =>
      rw [hmodel] at h
      obtain ⟨sources, hsources, h⟩ := except_bind_eq_ok.mp h
      exact Or.inr ⟨state, sources, by rw [hn, Option.bind_some, hmodel], hsources,
        mapError_eq_ok.mp h⟩

theorem setSource_wiring {id : NodeId} {index : InputIndex} {source : NodeId}
    (h : s.setSource id index source = .ok t) : t.wiring = s.wiring := by
  rcases setSource_cases h with rfl | ⟨_, _, -, -, hupdate⟩
  · rfl
  · exact wiring_update hupdate (Node.wiring_mapModel _)

theorem setSource_cached {id : NodeId} {index : InputIndex} {source : NodeId}
    (h : s.setSource id index source = .ok t) : t.cached? = s.cached? := by
  rcases setSource_cases h with rfl | ⟨_, _, -, -, hupdate⟩
  · rfl
  · exact cached?_update hupdate (Node.cached?_mapModel fun _ => rfl)

theorem setSource_generation {id : NodeId} {index : InputIndex} {source : NodeId}
    (h : s.setSource id index source = .ok t) : t.generation = s.generation := by
  rcases setSource_cases h with rfl | ⟨_, _, -, -, hupdate⟩
  · rfl
  · exact generation_update hupdate

theorem setSource_defaultSize {id : NodeId} {index : InputIndex} {source : NodeId}
    (h : s.setSource id index source = .ok t) : t.defaultSize = s.defaultSize := by
  rcases setSource_cases h with rfl | ⟨_, _, -, -, hupdate⟩
  · rfl
  · exact defaultSize_update hupdate

theorem refreshReadbacks_rewrites (s : Scene) (owner : NodeId) :
    Overwrites s (s.refreshReadbacks owner) := by
  refine Overwrites.read fun n => ?_
  cases n.readbacks? with
  | none => exact Overwrites.pure s
  | some slots =>
      refine Overwrites.foldlM (fun t r => ?_) Readback.all s
      unfold refreshReadback
      cases slots r with
      | none => exact Overwrites.pure t
      | some cell => exact Overwrites.read fun v => t.setValue_rewrites cell v

theorem refreshPin_rewrites (s : Scene) (id : NodeId) : Overwrites s (s.refreshPin id) := by
  refine Overwrites.read fun position => ?_
  cases position with
  | none => exact Overwrites.pure s
  | some world =>
      refine Overwrites.read fun n => ?_
      exact (s.setSlotValue_rewrites _ _).bind fun t => t.setSlotValue_rewrites _ _

theorem mapWorking_rewrites (s : Scene) (id : NodeId) (f : Matrix Float → Matrix Float) :
    Overwrites s (s.mapWorking id f) :=
  fun _ h => .single (.mapContainer h fun _ => rfl)

end Scene

open Scene (Overwrites Rewrites)

theorem Step.change_rewrites (s : Scene) (step : Step) : Overwrites s (step.change s) := by
  cases step with
  | modify dest op target operand =>
      exact Overwrites.read fun running => Overwrites.read fun v => s.setValue_rewrites dest _
  | assign dest source => exact Overwrites.read fun v => s.setValue_rewrites dest v
  | compose part c =>
      exact Overwrites.read fun x => Overwrites.read fun y => Overwrites.read fun scaleX =>
        Overwrites.read fun scaleY => Overwrites.read fun rotation => s.mapWorking_rewrites part _
  | transform owner motion amount =>
      exact Overwrites.read fun v => s.mapWorking_rewrites owner _
  | concatParent part parent =>
      refine Overwrites.read fun n => ?_
      cases n.container? with
      | none => exact Overwrites.pure s
      | some c => exact s.mapWorking_rewrites part _
  | placeContent part originX originY =>
      refine Overwrites.read fun x => Overwrites.read fun y => fun t h => ?_
      exact .single (.mapContainer h fun _ => rfl)
  | solvePins part pins width height =>
      exact Overwrites.read fun pairs => Overwrites.read fun w => Overwrites.read fun h =>
        s.mapWorking_rewrites part _
  | showPart id => exact s.refreshReadbacks_rewrites id
  | showPin id => exact s.refreshPin_rewrites id
  | showPinnedPart id => exact s.refreshReadbacks_rewrites id

/-- Showing a node leaves the scene as it is. -/
theorem Frame.scene_present {f f' : Frame} {shown : Shown} (h : f.present shown = .ok f') :
    f'.scene = f.scene := by
  obtain ⟨n, -, hn⟩ := except_bind_eq_ok.mp h
  cases hdisplay : n.display? with
  | none =>
      rw [hdisplay] at hn
      cases hn
      rfl
  | some handle =>
      rw [hdisplay] at hn
      cases hn
      rfl

theorem Step.scene_run {f f' : Frame} {step : Step} (h : step.run f = .ok f') :
    step.change f.scene = .ok f'.scene := by
  obtain ⟨t, ht, hrest⟩ := except_bind_eq_ok.mp h
  cases hshown : step.shown? with
  | none =>
      rw [hshown] at hrest
      cases hrest
      exact ht
  | some shown =>
      rw [hshown] at hrest
      rw [Frame.scene_present hrest]
      exact ht

theorem Frame.write_rewrites {f f' : Frame} {w : NodeId × Float} (h : f.write w = .ok f') :
    Rewrites f.scene f'.scene := by
  obtain ⟨t, ht, rfl⟩ : ∃ t, f.scene.setValue w.1 w.2 = .ok t ∧ f.withScene t = f' := by
    unfold Frame.write at h
    cases hset : f.scene.setValue w.1 w.2 with
    | error e => rw [hset] at h; cases h
    | ok t => rw [hset] at h; cases h; exact ⟨t, rfl, rfl⟩
  exact f.scene.setValue_rewrites w.1 w.2 t ht

theorem Frame.writes_rewrites {f f' : Frame} {writes : List (NodeId × Float)}
    (h : writes.foldlM Frame.write f = .ok f') : Rewrites f.scene f'.scene :=
  foldlM_related (R := fun f f' => Rewrites f.scene f'.scene) (fun _ => .refl) .trans
    Frame.write_rewrites writes h

mutual

theorem Command.run_rewrites {f f' : Frame} :
    (c : Command) → c.run f = .ok f' → Rewrites f.scene f'.scene
  | .step s, h => s.change_rewrites f.scene f'.scene (Step.scene_run h)
  | .replayModel model list, h => by
      obtain ⟨inputs, -, hrun⟩ := except_bind_eq_ok.mp h
      exact Command.runList_rewrites list hrun

theorem Command.runList_rewrites {inputs : InputIndex → Option Float} {f f' : Frame} :
    (list : SceneList) → Command.runList inputs f list = .ok f' → Rewrites f.scene f'.scene
  | ⟨_, commands, bindings⟩, h => by
      obtain ⟨f₁, hwrites, hrun⟩ := except_bind_eq_ok.mp h
      exact (Frame.writes_rewrites hwrites).trans (Command.runAll_rewrites commands hrun)

theorem Command.runAll_rewrites {f f' : Frame} :
    (cs : List Command) → Command.runAll f cs = .ok f' → Rewrites f.scene f'.scene
  | [], h => by
      cases h
      exact .refl
  | c :: cs, h => by
      obtain ⟨f₁, hc, hcs⟩ := except_bind_eq_ok.mp h
      exact (Command.run_rewrites c hc).trans (Command.runAll_rewrites cs hcs)

end

/-- Whatever a list holds, replaying it overwrites numbers and matrices, and no more. -/
theorem Scene.replay_rewrites {s : Scene} {list : SceneList} {inputs : InputIndex → Option Float}
    {f : Frame} (h : s.replay list inputs = .ok f) : Rewrites s f.scene := by
  unfold Scene.replay at h
  rw [← Command.runList_eq_replay] at h
  exact Command.runList_rewrites list h

end SceneGraph
