import Mathlib.Algebra.Ring.Basic
import Mathlib.Tactic.Ring
import SceneGraph.Geometry.Matrix

/-!
Matrices as maps of the plane, in exact arithmetic.

A matrix is known by where it sends points, and appending an edit moves each image by the map of
the edit.  So laws of products are laws of composition.
-/

namespace SceneGraph

attribute [ext] Point Matrix

/-- A map that can be appended to a matrix. -/
inductive Edit (α : Type) where
  | rotate (t : Turn α)
  | translate (tx ty : α)
  | translateX (tx : α)
  | translateY (ty : α)
  | scale (sx sy : α)
  | scaleX (sx : α)
  | scaleY (sy : α)
  | concat (n : Matrix α)
  deriving DecidableEq

namespace Edit

variable {α : Type} [Zero α] [Add α] [Sub α] [Mul α]

def append [BEq α] (m : Matrix α) : Edit α → Matrix α
  | .rotate t => m.rotate t
  | .translate tx ty => m.translate tx ty
  | .translateX tx => m.translateX tx
  | .translateY ty => m.translateY ty
  | .scale sx sy => m.scale sx sy
  | .scaleX sx => m.scaleX sx
  | .scaleY sy => m.scaleY sy
  | .concat n => m.concat n

/-- Where the map sends a point. -/
def move (p : Point α) : Edit α → Point α
  | .rotate t => ⟨t.cos * p.x - t.sin * p.y, t.sin * p.x + t.cos * p.y⟩
  | .translate tx ty => ⟨p.x + tx, p.y + ty⟩
  | .translateX tx => ⟨p.x + tx, p.y⟩
  | .translateY ty => ⟨p.x, p.y + ty⟩
  | .scale sx sy => ⟨p.x * sx, p.y * sy⟩
  | .scaleX sx => ⟨p.x * sx, p.y⟩
  | .scaleY sy => ⟨p.x, p.y * sy⟩
  | .concat n => n.image p

end Edit

namespace Matrix

variable {R : Type} [CommRing R]

/-- The product of any two maps, without regard to terms that vanish. -/
def product (m n : Matrix R) : Matrix R :=
  ⟨m.a * n.a + m.b * n.c, m.a * n.b + m.b * n.d,
   m.c * n.a + m.d * n.c, m.d * n.d + m.c * n.b,
   m.x * n.a + n.x + m.y * n.c, m.y * n.d + n.y + m.x * n.b⟩

theorem image_mk (m : Matrix R) (px py : R) :
    m.image ⟨px, py⟩ = ⟨m.x + m.a * px + m.c * py, m.y + m.d * py + m.b * px⟩ :=
  rfl

@[simp]
theorem image_identity (p : Point R) : (identity : Matrix R).image p = p := by
  ext <;> simp [identity, image, imageX, imageY]

/-- A matrix is known by the images of three corners of the unit square. -/
theorem eq_of_image_corners {m n : Matrix R} (horigin : m.image ⟨0, 0⟩ = n.image ⟨0, 0⟩)
    (hfirst : m.image ⟨1, 0⟩ = n.image ⟨1, 0⟩) (hsecond : m.image ⟨0, 1⟩ = n.image ⟨0, 1⟩) :
    m = n := by
  simp only [image_mk, mul_zero, add_zero, mul_one, Point.mk.injEq] at horigin hfirst hsecond
  obtain ⟨hx, hy⟩ := horigin
  rw [hx, hy, add_right_inj, add_right_inj] at hfirst hsecond
  obtain ⟨ha, hb⟩ := hfirst
  obtain ⟨hc, hd⟩ := hsecond
  ext <;> assumption

theorem eq_of_image_eq {m n : Matrix R} (h : ∀ p, m.image p = n.image p) : m = n :=
  eq_of_image_corners (h _) (h _) (h _)

theorem image_product (m n : Matrix R) (p : Point R) :
    (m.product n).image p = n.image (m.image p) := by
  ext <;> simp only [product, image, imageX, imageY] <;> ring

variable [DecidableEq R]

theorem isAxisAligned_iff {m : Matrix R} : m.isAxisAligned = true ↔ m.b = 0 ∧ m.c = 0 := by
  simp [isAxisAligned]

/-- The short product of two axis-aligned maps is their product. -/
theorem concat_eq_product (m n : Matrix R) : m.concat n = m.product n := by
  rw [concat]
  split
  · next h =>
      rw [Bool.and_eq_true, isAxisAligned_iff, isAxisAligned_iff] at h
      obtain ⟨⟨hmb, hmc⟩, hnb, hnc⟩ := h
      simp [product, hmb, hmc, hnb, hnc]
  · rfl

theorem image_concat (m n : Matrix R) (p : Point R) :
    (m.concat n).image p = n.image (m.image p) := by
  rw [concat_eq_product, image_product]

theorem concat_assoc (l m n : Matrix R) : (l.concat m).concat n = l.concat (m.concat n) := by
  apply eq_of_image_eq
  intro p
  simp only [image_concat]

@[simp]
theorem identity_concat (m : Matrix R) : identity.concat m = m := by
  apply eq_of_image_eq
  intro p
  rw [image_concat, image_identity]

@[simp]
theorem concat_identity (m : Matrix R) : m.concat identity = m := by
  apply eq_of_image_eq
  intro p
  rw [image_concat, image_identity]

/-- The basis vectors of the product, whichever formula they are computed by. -/
theorem concatLinear_eq (m n : Matrix R) :
    m.concatLinear n = (m.concat n).withOffsetOf m := by
  rw [concatLinear, concat_eq_product]
  split
  · next h =>
      rw [Bool.and_eq_true, isAxisAligned_iff, isAxisAligned_iff] at h
      obtain ⟨⟨hmb, hmc⟩, hnb, hnc⟩ := h
      simp [product, withOffsetOf, hmb, hmc, hnb, hnc]
  · rfl

theorem concatOffset_eq (m n : Matrix R) :
    m.concatOffset n = m.withOffsetOf (m.concat n) := by
  rw [concat_eq_product]
  ext <;> simp only [concatOffset, withOffsetOf, product] <;> ring

/-- Appending to the basis vectors reads nothing of the offset, and the other way round. -/
theorem concatOffset_concatLinear (m n : Matrix R) :
    (m.concatLinear n).concatOffset n = m.concat n := by
  rw [concatOffset_eq, concatLinear_eq, concat_eq_product, concat_eq_product]
  rfl

theorem concatLinear_concatOffset (m n : Matrix R) :
    (m.concatOffset n).concatLinear n = m.concat n := by
  rw [concatLinear_eq, concatOffset_eq, concat_eq_product, concat_eq_product]
  rfl

theorem image_append (m : Matrix R) (e : Edit R) (p : Point R) :
    (e.append m).image p = e.move (m.image p) := by
  cases e with
  | concat n => exact image_concat m n p
  | _ =>
      ext <;> simp only [Edit.append, Edit.move, image, imageX, imageY, rotate, rotateLinear,
        rotateXAxis, rotateYAxis, rotateOffset, translate, translateX, translateY, scale, scaleX,
        scaleY] <;> ring

/-- Edits move the image of a point in the order in which they were appended. -/
theorem image_foldl_append (edits : List (Edit R)) (m : Matrix R) (p : Point R) :
    (edits.foldl Edit.append m).image p = edits.foldl Edit.move (m.image p) := by
  induction edits generalizing m with
  | nil => rfl
  | cons e edits ih =>
      rw [List.foldl_cons, List.foldl_cons, ih, image_append]

/-- Edits append: what was there is applied first, and then the map of each edit in turn.  The
product of maps is one formula for all pairs, a monoid, and the same in one step or in two. -/
theorem edits_append (m : Matrix R) :
    (∀ (edits : List (Edit R)) (p : Point R),
      (edits.foldl Edit.append m).image p = edits.foldl Edit.move (m.image p)) ∧
    (∀ n, m.concat n = m.product n) ∧
    (∀ n l, (m.concat n).concat l = m.concat (n.concat l)) ∧
    m.concat identity = m ∧ identity.concat m = m ∧
    ∀ n, (m.concatLinear n).concatOffset n = m.concat n ∧
      (m.concatOffset n).concatLinear n = m.concat n :=
  ⟨fun edits p => image_foldl_append edits m p, concat_eq_product m, concat_assoc m,
    concat_identity m, identity_concat m,
    fun n => ⟨concatOffset_concatLinear m n, concatLinear_concatOffset m n⟩⟩

end Matrix

end SceneGraph
