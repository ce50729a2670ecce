import Mathlib.Algebra.Notation.Defs
import SceneGraph.Geometry.PinSolver

/-!
Arithmetic in which a division by zero has no result.

What has no result makes every number undefined that is computed from it.  So a computation
that comes to numbers throughout has divided by no zero.
-/

namespace SceneGraph

/-- A number, or what a division by zero leaves. -/
inductive Checked (α : Type) where
  | number (v : α)
  | undefined
  deriving DecidableEq

namespace Checked

variable {α : Type}

def map₂ (f : α → α → α) : Checked α → Checked α → Checked α
  | .number v, .number w => .number (f v w)
  | _, _ => .undefined

instance [Zero α] : Zero (Checked α) :=
  ⟨.number 0⟩

instance [One α] : One (Checked α) :=
  ⟨.number 1⟩

instance [Neg α] : Neg (Checked α) where
  neg
    | .number v => .number (-v)
    | .undefined => .undefined

instance [Add α] : Add (Checked α) :=
  ⟨map₂ (· + ·)⟩

instance [Sub α] : Sub (Checked α) :=
  ⟨map₂ (· - ·)⟩

instance [Mul α] : Mul (Checked α) :=
  ⟨map₂ (· * ·)⟩

instance [Zero α] [Div α] [DecidableEq α] : Div (Checked α) where
  div
    | .number v, .number w => if w = 0 then .undefined else .number (v / w)
    | _, _ => .undefined

@[simp]
theorem number_zero [Zero α] : number (0 : α) = 0 :=
  rfl

@[simp]
theorem number_one [One α] : number (1 : α) = 1 :=
  rfl

@[simp]
theorem neg_number [Neg α] (v : α) : -number v = number (-v) :=
  rfl

@[simp]
theorem number_add [Add α] (v w : α) : number v + number w = number (v + w) :=
  rfl

@[simp]
theorem number_sub [Sub α] (v w : α) : number v - number w = number (v - w) :=
  rfl

@[simp]
theorem number_mul [Mul α] (v w : α) : number v * number w = number (v * w) :=
  rfl

theorem number_div [Zero α] [Div α] [DecidableEq α] (v : α) {w : α} (hw : w ≠ 0) :
    number v / number w = number (v / w) :=
  if_neg hw

@[simp]
theorem number_div_zero [Zero α] [Div α] [DecidableEq α] (v : α) :
    number v / 0 = (undefined : Checked α) :=
  if_pos rfl

@[simp]
theorem number_beq_zero [Zero α] [DecidableEq α] (v : α) : (number v == 0) = (v == 0) := by
  rw [Bool.eq_iff_iff, beq_iff_eq, beq_iff_eq]
  exact ⟨number.inj, congrArg number⟩

end Checked

section

variable {α β : Type}

def Point.map (f : α → β) (p : Point α) : Point β :=
  ⟨f p.x, f p.y⟩

def Size.map (f : α → β) (size : Size α) : Size β :=
  ⟨f size.width, f size.height⟩

def Matrix.map (f : α → β) (m : Matrix α) : Matrix β :=
  ⟨f m.a, f m.b, f m.c, f m.d, f m.x, f m.y⟩

def PinPair.map (f : α → β) (p : PinPair α) : PinPair β :=
  ⟨p.origin.map f, p.target.map f⟩

end

namespace Matrix

variable {α : Type}

theorem isAxisAligned_checked [Zero α] [DecidableEq α] (m : Matrix α) :
    (m.map Checked.number).isAxisAligned = m.isAxisAligned := by
  simp [isAxisAligned, map]

theorem translate_checked [Add α] (m : Matrix α) (tx ty : α) :
    (m.map Checked.number).translate (.number tx) (.number ty) =
      (m.translate tx ty).map .number :=
  rfl

theorem concat_checked [Zero α] [Add α] [Mul α] [DecidableEq α] (m n : Matrix α) :
    (m.map Checked.number).concat (n.map .number) = (m.concat n).map .number := by
  rw [concat, concat, isAxisAligned_checked, isAxisAligned_checked]
  split <;> rfl

end Matrix

end SceneGraph
