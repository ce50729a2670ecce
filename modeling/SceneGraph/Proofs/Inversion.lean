import Mathlib.Algebra.Order.Field.Rat
import Mathlib.Tactic.FieldSimp
import Mathlib.Tactic.NormNum
import SceneGraph.Proofs.Affine
import SceneGraph.Proofs.Checked

/-!
Undoing a map, in exact arithmetic.

A map can be undone where its determinant is not zero.  There both ways to compute the inverse
come to the same matrix, and a point lies in the image of a rectangle if the inverse sends it
into the rectangle.
-/

namespace SceneGraph

namespace Matrix

/-- The area that the map gives to the unit square, with its sign. -/
def determinant {α : Type} [Sub α] [Mul α] (m : Matrix α) : α :=
  m.a * m.d - m.b * m.c

section Formulas

variable {α : Type} [One α] [Add α] [Sub α] [Neg α] [Mul α] [Div α]

/-- The inverse by way of the scales of the axes. -/
def byScales (m : Matrix α) : Matrix α :=
  ⟨1 / m.a, m.b, m.c, 1 / m.d, m.x * -(1 / m.a), m.y * -(1 / m.d)⟩

/-- The inverse by way of the determinant. -/
def byDeterminant (m : Matrix α) : Matrix α :=
  let inv := 1 / m.determinant
  ⟨m.d * inv, -m.b * inv, -m.c * inv, m.a * inv,
   -(m.d * inv * m.x + -m.c * inv * m.y), -(-m.b * inv * m.x + m.a * inv * m.y)⟩

theorem inverse_eq [Zero α] [BEq α] (m : Matrix α) :
    m.inverse = if m.isAxisAligned && m.a != 0 && m.d != 0 then m.byScales
      else if m.determinant == 0 then identity else m.byDeterminant :=
  rfl

end Formulas

variable {K : Type} [Field K]

theorem determinant_product (m n : Matrix K) :
    (m.product n).determinant = m.determinant * n.determinant := by
  simp only [determinant, product]
  ring

theorem determinant_identity : (identity : Matrix K).determinant = 1 := by
  simp [determinant, identity]

variable [DecidableEq K] {m : Matrix K}

/-- The scales of an axis-aligned map are what its determinant is made of. -/
theorem determinant_of_isAxisAligned (h : m.isAxisAligned = true) :
    m.determinant = m.a * m.d := by
  obtain ⟨hb, -⟩ := isAxisAligned_iff.mp h
  rw [determinant, hb, zero_mul, sub_zero]

theorem byScales_eq_byDeterminant (h : m.isAxisAligned = true) (hdet : m.determinant ≠ 0) :
    m.byScales = m.byDeterminant := by
  obtain ⟨hb, hc⟩ := isAxisAligned_iff.mp h
  rw [determinant_of_isAxisAligned h] at hdet
  have ha : m.a ≠ 0 := left_ne_zero_of_mul hdet
  have hd : m.d ≠ 0 := right_ne_zero_of_mul hdet
  rw [byDeterminant, determinant_of_isAxisAligned h]
  ext <;> simp [byScales, hb, hc] <;> field_simp

theorem inverse_of_singular (hdet : m.determinant = 0) : m.inverse = identity := by
  -- An axis-aligned map with two scales has a determinant, so the short way is not taken.
  have hguard : (m.isAxisAligned && m.a != 0 && m.d != 0) = false := by
    rw [Bool.eq_false_iff]
    intro h
    simp only [Bool.and_eq_true, bne_iff_ne, ne_eq] at h
    obtain ⟨⟨haligned, ha⟩, hd⟩ := h
    rw [determinant_of_isAxisAligned haligned] at hdet
    exact mul_ne_zero ha hd hdet
  simp [inverse_eq, hguard, hdet]

theorem inverse_eq_byDeterminant (hdet : m.determinant ≠ 0) : m.inverse = m.byDeterminant := by
  rw [inverse_eq]
  split
  · next h =>
      simp only [Bool.and_eq_true] at h
      exact byScales_eq_byDeterminant h.1.1 hdet
  · rw [if_neg (by simpa using hdet)]

theorem concat_inverse (hdet : m.determinant ≠ 0) : m.concat m.inverse = identity := by
  rw [inverse_eq_byDeterminant hdet, concat_eq_product]
  ext <;> simp only [product, byDeterminant, identity] <;> field_simp <;>
    simp only [determinant] <;> ring

theorem determinant_inverse_ne_zero (hdet : m.determinant ≠ 0) : m.inverse.determinant ≠ 0 := by
  have hone : m.determinant * m.inverse.determinant = 1 := by
    rw [← determinant_product, ← concat_eq_product, concat_inverse hdet, determinant_identity]
  exact right_ne_zero_of_mul_eq_one hone

/-- What undoes the inverse is the map itself: both follow the inverse of the map to nothing. -/
theorem inverse_inverse (hdet : m.determinant ≠ 0) : m.inverse.inverse = m := by
  calc m.inverse.inverse = (m.concat m.inverse).concat m.inverse.inverse := by
        rw [concat_inverse hdet, identity_concat]
    _ = m.concat (m.inverse.concat m.inverse.inverse) := concat_assoc _ _ _
    _ = m := by rw [concat_inverse (determinant_inverse_ne_zero hdet), concat_identity]

theorem inverse_concat (hdet : m.determinant ≠ 0) : m.inverse.concat m = identity := by
  have h := concat_inverse (determinant_inverse_ne_zero hdet)
  rwa [inverse_inverse hdet] at h

theorem image_inverse_image (hdet : m.determinant ≠ 0) (p : Point K) :
    m.inverse.image (m.image p) = p := by
  rw [← image_concat, concat_inverse hdet, image_identity]

theorem image_image_inverse (hdet : m.determinant ≠ 0) (p : Point K) :
    m.image (m.inverse.image p) = p := by
  rw [← image_concat, inverse_concat hdet, image_identity]

/-- The inverse divides by the scales or by the determinant, and by neither where it is zero. -/
theorem inverse_checked (m : Matrix K) :
    (m.map Checked.number).inverse = m.inverse.map .number := by
  have ha : ((m.map Checked.number).a != 0) = (m.a != 0) := by simp [map, bne]
  have hd : ((m.map Checked.number).d != 0) = (m.d != 0) := by simp [map, bne]
  have hdet : (m.map Checked.number).determinant = .number m.determinant := rfl
  rw [inverse_eq, inverse_eq, isAxisAligned_checked, ha, hd, hdet, Checked.number_beq_zero]
  split
  · next h =>
      simp only [Bool.and_eq_true, bne_iff_ne] at h
      obtain ⟨⟨-, ha⟩, hd⟩ := h
      simp only [byScales, map, ← Checked.number_one, Checked.number_div 1 ha,
        Checked.number_div 1 hd, Checked.neg_number, Checked.number_mul]
  · split
    · rfl
    · next h =>
        rw [beq_iff_eq] at h
        simp only [byDeterminant, hdet, ← Checked.number_one, Checked.number_div 1 h]
        rfl

theorem contains_iff [LE K] [DecidableLE K] (hdet : m.determinant ≠ 0) (p : Point K)
    (size : Size K) :
    m.contains p size = true ↔ ∃ u v, 0 ≤ u ∧ u ≤ size.width ∧ 0 ≤ v ∧ v ≤ size.height ∧
      p = m.image ⟨u, v⟩ := by
  simp only [contains, Bool.and_eq_true, decide_eq_true_eq]
  constructor
  · rintro ⟨⟨⟨hu, hwidth⟩, hv⟩, hheight⟩
    exact ⟨_, _, hu, hwidth, hv, hheight, (image_image_inverse hdet p).symm⟩
  · rintro ⟨u, v, hu, hwidth, hv, hheight, rfl⟩
    rw [image_inverse_image hdet]
    exact ⟨⟨⟨hu, hwidth⟩, hv⟩, hheight⟩

/-- The inverse undoes a map from either side wherever the determinant is not zero, by whichever
formula it is computed, and is the identity everywhere else; it never divides by zero.  Hence a
point is in the image of a rectangle if and only if it is the image of a point of the rectangle,
edges included. -/
theorem inverse_undoes {K : Type} [Field K] [LinearOrder K] (m : Matrix K) :
    (m.determinant ≠ 0 →
      m.concat m.inverse = identity ∧ m.inverse.concat m = identity ∧ m.inverse.inverse = m ∧
      m.inverse = m.byDeterminant ∧
      (m.isAxisAligned = true → m.inverse = m.byScales ∧ m.byScales = m.byDeterminant) ∧
      ∀ p size, m.contains p size = true ↔
        ∃ u v, 0 ≤ u ∧ u ≤ size.width ∧ 0 ≤ v ∧ v ≤ size.height ∧ p = m.image ⟨u, v⟩) ∧
    (m.determinant = 0 → m.inverse = identity) ∧
    (m.map Checked.number).inverse = m.inverse.map .number := by
  refine ⟨fun hdet => ?_, inverse_of_singular, inverse_checked m⟩
  refine ⟨concat_inverse hdet, inverse_concat hdet, inverse_inverse hdet,
    inverse_eq_byDeterminant hdet, fun haligned => ?_, fun p size => contains_iff hdet p size⟩
  have hsame := byScales_eq_byDeterminant haligned hdet
  exact ⟨(inverse_eq_byDeterminant hdet).trans hsame.symm, hsame⟩

/-- Turns, stretches and skews. -/
def skewed : Matrix ℚ :=
  ⟨2, 1, -3, 4, 5, -6⟩

/-- Neither turns nor skews, and has no width. -/
def flattened : Matrix ℚ :=
  ⟨0, 0, 0, 3, 1, 1⟩

theorem inverse_undoes_skewed :
    skewed.determinant ≠ 0 ∧ skewed.concat skewed.inverse = identity ∧
      skewed.inverse.inverse = skewed ∧ skewed.contains ⟨0, 8⟩ ⟨4, 3⟩ = true ∧
      flattened.determinant = 0 ∧ flattened.inverse = identity := by
  have hdet : skewed.determinant ≠ 0 := by
    norm_num [skewed, determinant]
  have hflat : flattened.determinant = 0 := by
    norm_num [flattened, determinant]
  obtain ⟨hundoes, -, -⟩ := inverse_undoes skewed
  obtain ⟨hright, -, hinverse, -, -, hcontains⟩ := hundoes hdet
  obtain ⟨-, hidentity, -⟩ := inverse_undoes flattened
  have hcorner : (⟨0, 8⟩ : Point ℚ) = skewed.image ⟨2, 3⟩ := by
    norm_num [skewed, image, imageX, imageY]
  have hinside : skewed.contains ⟨0, 8⟩ ⟨4, 3⟩ = true :=
    (hcontains _ _).mpr ⟨2, 3, by norm_num, by norm_num, by norm_num, le_refl 3, hcorner⟩
  exact ⟨hdet, hright, hinverse, hinside, hflat, hidentity hflat⟩

end Matrix

end SceneGraph
