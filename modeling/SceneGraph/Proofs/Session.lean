import Mathlib.Logic.Relation
import SceneGraph.Scene.Hierarchy
import SceneGraph.Scene.Model

/-!
Using a scene through its operations.

A session is a scene together with the handles it has given out.  A handle says what kind of
node it names, and an operation takes only handles of the kinds it is meant for.  Operations
that merely look at a scene are left out.

A session also counts how often the generation has moved on.  The scene itself counts in a
machine word and so forgets every full turn.
-/

namespace SceneGraph

theorem toOption_eq_some {ε α : Type} {x : Except ε α} {a : α} :
    x.toOption = some a ↔ x = .ok a := by
  cases x <;> simp [Except.toOption]

theorem map_toOption_eq_some {ε α β : Type} {x : Except ε α} {g : α → β} {b : β} :
    x.toOption.map g = some b ↔ ∃ a, x = .ok a ∧ g a = b := by
  cases x <;> simp [Except.toOption]

/-- What a host names a node by. -/
inductive Handle where
  /-- A number, read-backs included. -/
  | value (id : NodeId)
  | calculated (id : NodeId)
  | part (id : NodeId)
  | model (id : NodeId)
  | pin (id : NodeId)
  | pinnedPart (id : NodeId)
  deriving DecidableEq

def Handle.id : Handle → NodeId
  | .value id | .calculated id | .part id | .model id | .pin id | .pinnedPart id => id

inductive Operation where
  | scalar (v : Float)
  | input (index : InputIndex)
  | calculated (base : Float)
  | setValue (id : NodeId) (v : Float)
  | setBaseValue (id : NodeId) (v : Float)
  | modify (id : NodeId) (links : List ChainLink)
  | part
  | model
  | pin
  | pinnedPart
  | partAttribute (part : NodeId) (a : PartAttribute)
  | setPartAttribute (part : NodeId) (a : PartAttribute) (v : Float)
  | addTransformation (owner : NodeId) (motion : Motion)
  | readback (owner : NodeId) (r : Readback)
  | pinCoordinate (pin : NodeId) (axis : Axis)
  | setPinCoordinate (pin : NodeId) (axis : Axis) (v : Float)
  | pinReadback (pin : NodeId) (axis : Axis)
  | pinnedPartDimension (part : NodeId) (d : Dimension)
  | setPinnedPartDimension (part : NodeId) (d : Dimension) (v : Float)
  | attachPin (part : NodeId) (slot : PinSlot) (origin : Point Float)
  | pinOrigin (part : NodeId) (slot : PinSlot) (axis : Axis)
  | pinTarget (part : NodeId) (slot : PinSlot) (axis : Axis)
  | setPinTarget (part : NodeId) (slot : PinSlot) (target : Point Float)
  | addChild (parent child : NodeId)
  | addChildren (parent : NodeId) (children : List NodeId)
  | removeChild (parent child : NodeId)
  | setDisplay (id : NodeId) (handle : DisplayHandle)
  | setSource (model : NodeId) (index : InputIndex) (source : NodeId)
  | compile (root : NodeId)
  | compileModel (model : NodeId)
  | renderModel (model : NodeId)
  | renderList (list : SceneList) (inputs : List (Option Float))

/-- What an operation leads to. -/
structure Outcome where
  scene : Scene
  /-- The handle that the host gets. -/
  handle? : Option Handle := none
  /-- The model that keeps a new list. -/
  cached? : Option NodeId := none

namespace Outcome

def ofScene (s : Scene) : Outcome where
  scene := s

/-- The host gets a handle of the given kind. -/
def handing (kind : NodeId → Handle) (r : NodeId × Scene) : Outcome where
  scene := r.2
  handle? := some (kind r.1)

/-- A cycle is reported and leaves the scene as it was. -/
def orCycle? (s : Scene) : Except SceneFailure Outcome → Option Outcome
  | .ok o => some o
  | .error (.cycle _) => some (ofScene s)
  | .error _ => none

end Outcome

namespace Operation

/-- Executes an operation.  There is no outcome if it panics. -/
def outcome? (s : Scene) : Operation → Option Outcome
  | .scalar v => some (.handing .value (s.scalar v))
  | .input index => some (.handing .value (s.input index))
  | .calculated base => some (.handing .calculated (s.calculated base))
  | .setValue id v => (s.setValue id v).toOption.map .ofScene
  | .setBaseValue id v => (s.setBaseValue id v).toOption.map .ofScene
  | .modify id links => (s.modify id links).toOption.map .ofScene
  | .part => some (.handing .part s.part)
  | .model => some (.handing .model s.model)
  | .pin => some (.handing .pin s.pin)
  | .pinnedPart => some (.handing .pinnedPart s.pinnedPart)
  | .partAttribute id a =>
    (s.partAttribute id a).toOption.map (.handing .calculated)
  | .setPartAttribute id a v =>
    (s.setPartAttribute id a v).toOption.map (.handing .calculated)
  | .addTransformation owner motion =>
    (s.addTransformation owner motion).toOption.map (.handing .calculated)
  | .readback owner r => (s.readback owner r).toOption.map (.handing .value)
  | .pinCoordinate id axis =>
    (s.pinCoordinate id axis).toOption.map (.handing .calculated)
  | .setPinCoordinate id axis v =>
    (s.setPinCoordinate id axis v).toOption.map (.handing .calculated)
  | .pinReadback id axis => (s.pinReadback id axis).toOption.map (.handing .value)
  | .pinnedPartDimension id d =>
    (s.pinnedPartDimension id d).toOption.map (.handing .calculated)
  | .setPinnedPartDimension id d v =>
    (s.setPinnedPartDimension id d v).toOption.map (.handing .calculated)
  | .attachPin id slot origin => (s.attachPin id slot origin).toOption.map .ofScene
  | .pinOrigin id slot axis =>
    (s.pinOrigin? id slot axis).toOption.map fun cell? =>
      { scene := s, handle? := cell?.map .calculated }
  | .pinTarget id slot axis =>
    (s.pinTarget? id slot axis).toOption.map fun r =>
      { scene := r.2, handle? := r.1.map .calculated }
  | .setPinTarget id slot target =>
    (s.setPinTarget id slot target).toOption.map .ofScene
  | .addChild parent child => (s.addChild parent child).toOption.map .ofScene
  | .addChildren parent children => (s.addChildren parent children).toOption.map .ofScene
  | .removeChild parent child =>
    (s.removeChild parent child).toOption.map fun r => .ofScene r.2
  | .setDisplay id handle => (s.setDisplay id handle).toOption.map .ofScene
  | .setSource id index source => (s.setSource id index source).toOption.map .ofScene
  | .compile root => Outcome.orCycle? s ((s.compile root).result.map fun _ => .ofScene s)
  | .compileModel id =>
    Outcome.orCycle? s ((s.compileModel id).result.map fun r =>
      { scene := r.2, cached? := some id })
  | .renderModel id =>
    Outcome.orCycle? s ((s.renderModel id).result.map fun f =>
      { scene := f.scene
        cached? := if (s.keptList? id).toOption.join.isSome then none else some id })
  | .renderList list inputs =>
    (s.replay list (suppliedBy inputs)).toOption.map fun f => .ofScene f.scene

/-- How many children an operation attaches or takes away. -/
def relinks (s : Scene) : Operation → Nat
  | .addChild .. => 1
  | .addChildren _ children => children.length
  | .removeChild parent child =>
    if child ∈ (s.children parent).toOption.getD [] then 1 else 0
  | _ => 0

end Operation

structure Session where
  scene : Scene
  /-- The handles given out so far. -/
  handles : List Handle := []
  /-- How often the generation has moved on: once for every node, and once for every child
  that was attached or taken away. -/
  bumps : Nat := 0
  /-- The number of bumps when a model last got a list to keep. -/
  cachedAt : NodeId → Nat := fun _ => 0

namespace Session

/-- A new scene. -/
def start (defaultSize : Float) : Session where
  scene := Scene.empty defaultSize

def HasValue (σ : Session) (id : NodeId) : Prop :=
  .value id ∈ σ.handles ∨ .calculated id ∈ σ.handles

def HasCalculated (σ : Session) (id : NodeId) : Prop :=
  .calculated id ∈ σ.handles

def HasModel (σ : Session) (id : NodeId) : Prop :=
  .model id ∈ σ.handles

/-- A model is also a part. -/
def HasPart (σ : Session) (id : NodeId) : Prop :=
  .part id ∈ σ.handles ∨ .model id ∈ σ.handles

def HasPin (σ : Session) (id : NodeId) : Prop :=
  .pin id ∈ σ.handles

def HasPinnedPart (σ : Session) (id : NodeId) : Prop :=
  .pinnedPart id ∈ σ.handles

def HasContainer (σ : Session) (id : NodeId) : Prop :=
  σ.HasPart id ∨ σ.HasPinnedPart id

/-- Anything that can be placed under a container. -/
def HasChild (σ : Session) (id : NodeId) : Prop :=
  σ.HasContainer id ∨ σ.HasPin id

/-- The session after an operation. -/
def follow (σ : Session) (op : Operation) (o : Outcome) : Session where
  scene := o.scene
  handles := o.handle?.toList ++ σ.handles
  bumps := σ.bumps + ((o.scene.count - σ.scene.count) + op.relinks σ.scene)
  cachedAt model := if o.cached? = some model then σ.bumps else σ.cachedAt model

def perform (σ : Session) (op : Operation) : Option Session :=
  (op.outcome? σ.scene).map (σ.follow op)

theorem perform_eq_some {σ τ : Session} {op : Operation} (h : σ.perform op = some τ) :
    ∃ o, op.outcome? σ.scene = some o ∧ τ = σ.follow op o := by
  obtain ⟨o, ho, rfl⟩ := Option.map_eq_some_iff.mp h
  exact ⟨o, ho, rfl⟩

theorem perform_of_outcome? {σ : Session} {op : Operation} {o : Outcome}
    (h : op.outcome? σ.scene = some o) : σ.perform op = some (σ.follow op o) :=
  congrArg (Option.map (σ.follow op)) h

end Session

/-- The arguments of an operation are handles of the session, of the right kinds.  A compile
may start from any node and a replay may take any list, however old. -/
def Operation.Allowed (σ : Session) : Operation → Prop
  | .setValue id _ => σ.HasValue id
  | .setBaseValue id _ => σ.HasCalculated id
  | .modify id links =>
    σ.HasCalculated id ∧ ∀ link ∈ links, ∀ cell, link.operand = some (.cell cell) →
      σ.HasValue cell
  | .partAttribute id _ | .setPartAttribute id _ _ => σ.HasPart id
  | .addTransformation owner _ | .readback owner _ => σ.HasContainer owner
  | .pinCoordinate id _ | .setPinCoordinate id _ _ | .pinReadback id _ => σ.HasPin id
  | .pinnedPartDimension id _ | .setPinnedPartDimension id _ _ | .attachPin id _ _
  | .pinOrigin id _ _ | .pinTarget id _ _ | .setPinTarget id _ _ =>
    σ.HasPinnedPart id
  | .addChild parent child | .removeChild parent child =>
    σ.HasContainer parent ∧ σ.HasChild child
  | .addChildren parent children =>
    σ.HasContainer parent ∧ ∀ child ∈ children, σ.HasChild child
  | .setDisplay id _ => σ.HasChild id
  | .setSource id _ source => σ.HasModel id ∧ σ.HasValue source
  | .compileModel id | .renderModel id => σ.HasModel id
  | .scalar _ | .input _ | .calculated _ | .part | .model | .pin | .pinnedPart | .compile _
  | .renderList _ _ => True

section

variable (σ : Session) (id : NodeId)

instance : Decidable (σ.HasValue id) :=
  inferInstanceAs (Decidable (_ ∨ _))

instance : Decidable (σ.HasCalculated id) :=
  inferInstanceAs (Decidable (_ ∈ _))

instance : Decidable (σ.HasModel id) :=
  inferInstanceAs (Decidable (_ ∈ _))

instance : Decidable (σ.HasPart id) :=
  inferInstanceAs (Decidable (_ ∨ _))

instance : Decidable (σ.HasPin id) :=
  inferInstanceAs (Decidable (_ ∈ _))

instance : Decidable (σ.HasPinnedPart id) :=
  inferInstanceAs (Decidable (_ ∈ _))

instance : Decidable (σ.HasContainer id) :=
  inferInstanceAs (Decidable (_ ∨ _))

instance : Decidable (σ.HasChild id) :=
  inferInstanceAs (Decidable (_ ∨ _))

instance (link : ChainLink) :
    Decidable (∀ cell, link.operand = some (.cell cell) → σ.HasValue cell) :=
  match link.operand with
  | some (.cell cell) =>
    decidable_of_iff (σ.HasValue cell) ⟨fun h _ heq => Operand.cell.inj (Option.some.inj heq) ▸ h,
      fun h => h cell rfl⟩
  | some (.constant _) | none => isTrue nofun

instance : (op : Operation) → Decidable (op.Allowed σ)
  | .setValue id _ => inferInstanceAs (Decidable (σ.HasValue id))
  | .setBaseValue id _ => inferInstanceAs (Decidable (σ.HasCalculated id))
  | .modify id links => inferInstanceAs (Decidable (σ.HasCalculated id ∧ ∀ link ∈ links,
      ∀ cell, link.operand = some (.cell cell) → σ.HasValue cell))
  | .partAttribute id _ | .setPartAttribute id _ _ => inferInstanceAs (Decidable (σ.HasPart id))
  | .addTransformation id _ | .readback id _ => inferInstanceAs (Decidable (σ.HasContainer id))
  | .pinCoordinate id _ | .setPinCoordinate id _ _ | .pinReadback id _ =>
    inferInstanceAs (Decidable (σ.HasPin id))
  | .pinnedPartDimension id _ | .setPinnedPartDimension id _ _ | .attachPin id _ _
  | .pinOrigin id _ _ | .pinTarget id _ _ | .setPinTarget id _ _ =>
    inferInstanceAs (Decidable (σ.HasPinnedPart id))
  | .addChild parent child | .removeChild parent child =>
    inferInstanceAs (Decidable (σ.HasContainer parent ∧ σ.HasChild child))
  | .addChildren parent children =>
    inferInstanceAs (Decidable (σ.HasContainer parent ∧ ∀ child ∈ children, σ.HasChild child))
  | .setDisplay id _ => inferInstanceAs (Decidable (σ.HasChild id))
  | .setSource id _ source => inferInstanceAs (Decidable (σ.HasModel id ∧ σ.HasValue source))
  | .compileModel id | .renderModel id => inferInstanceAs (Decidable (σ.HasModel id))
  | .scalar _ | .input _ | .calculated _ | .part | .model | .pin | .pinnedPart | .compile _
  | .renderList _ _ => .isTrue trivial

end

namespace Session

/-- One allowed operation leads from one session to the next. -/
def Next (σ τ : Session) : Prop :=
  ∃ op : Operation, op.Allowed σ ∧ σ.perform op = some τ

/-- A run of allowed operations. -/
abbrev Runs : Session → Session → Prop :=
  Relation.ReflTransGen Next

/-- The session after some operations, if all of them are allowed. -/
def runAll (σ : Session) : List Operation → Option Session
  | [] => some σ
  | op :: ops => if op.Allowed σ then (σ.perform op).bind fun τ => τ.runAll ops else none

theorem runAll_cons {σ τ : Session} {op : Operation} {ops : List Operation} :
    σ.runAll (op :: ops) = some τ ↔
      op.Allowed σ ∧ ∃ υ, σ.perform op = some υ ∧ υ.runAll ops = some τ := by
  rw [runAll]
  split
  · next hallowed => rw [Option.bind_eq_some_iff, and_iff_right hallowed]
  · next hallowed => exact iff_of_false nofun fun h => hallowed h.1

theorem runs_of_runAll {σ τ : Session} {ops : List Operation} (h : σ.runAll ops = some τ) :
    Runs σ τ := by
  induction ops generalizing σ with
  | nil =>
      obtain rfl : σ = τ := Option.some.inj h
      exact .refl
  | cons op ops ih =>
      obtain ⟨hallowed, υ, hυ, hrest⟩ := runAll_cons.mp h
      exact .head ⟨op, hallowed, hυ⟩ (ih hrest)

/-- What a run on a new scene leads to. -/
def Reachable (σ : Session) : Prop :=
  ∃ defaultSize, Runs (start defaultSize) σ

end Session

end SceneGraph
