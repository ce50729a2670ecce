import Mathlib.Algebra.Order.Field.Basic
import Mathlib.Analysis.SpecialFunctions.Complex.Arg
import Mathlib.Tactic.LinearCombination
import SceneGraph.Proofs.Inversion

/-!
Carrying pins to their targets, in exact arithmetic.

Both the origins of three pins and their targets span a rectangle.  Undoing the one and then
doing the other is the map that the pins ask for, as long as the origins do span the plane.
-/

namespace SceneGraph

theorem forall_mem_triple {α : Type} {P : α → Prop} {p q r : α} :
    (∀ s ∈ [p, q, r], P s) ↔ P p ∧ P q ∧ P r := by
  simp

namespace Point

section

variable {K : Type} [Field K]

/-- Three points on one line. -/
def Collinear (p q r : Point K) : Prop :=
  ∃ a b c : K, (a ≠ 0 ∨ b ≠ 0) ∧ ∀ s ∈ [p, q, r], a * s.x + b * s.y = c

/-- Twice the area of a triangle, with its sign. -/
def area (p q r : Point K) : K :=
  (q.x - p.x) * (r.y - p.y) - (q.y - p.y) * (r.x - p.x)

theorem Collinear.perm {p q r p' q' r' : Point K} (h : Collinear p q r)
    (hperm : [p', q', r'].Perm [p, q, r]) : Collinear p' q' r' := by
  obtain ⟨a, b, c, hne, hline⟩ := h
  exact ⟨a, b, c, hne, fun s hs => hline s (hperm.mem_iff.mp hs)⟩

theorem area_of_collinear {p q r : Point K} (h : Collinear p q r) : area p q r = 0 := by
  obtain ⟨a, b, c, hne, hline⟩ := h
  obtain ⟨hp, hq, hr⟩ := forall_mem_triple.mp hline
  have ha : a * area p q r = 0 := by
    rw [area]
    linear_combination (r.y - p.y) * (hq - hp) - (q.y - p.y) * (hr - hp)
  have hb : b * area p q r = 0 := by
    rw [area]
    linear_combination (q.x - p.x) * (hr - hp) - (r.x - p.x) * (hq - hp)
  rcases hne with hne | hne
  · exact (mul_eq_zero.mp ha).resolve_left hne
  · exact (mul_eq_zero.mp hb).resolve_left hne

theorem sub_ne_zero_of_ne {p q : Point K} (hne : p ≠ q) : q.x - p.x ≠ 0 ∨ q.y - p.y ≠ 0 := by
  by_contra hzero
  rw [not_or, not_not, not_not, sub_eq_zero, sub_eq_zero] at hzero
  exact hne (Point.ext hzero.1.symm hzero.2.symm)

/-- The line through two points, in whose equation a third point has the area for its defect. -/
theorem collinear_of_ne {p q r : Point K} (hne : p ≠ q) (h : area p q r = 0) :
    Collinear p q r := by
  refine ⟨-(q.y - p.y), q.x - p.x, (q.x - p.x) * p.y - (q.y - p.y) * p.x, ?_, ?_⟩
  · rw [neg_ne_zero]
    exact (sub_ne_zero_of_ne hne).symm
  · refine forall_mem_triple.mpr ⟨by ring, by ring, ?_⟩
    rw [area] at h
    linear_combination h

theorem collinear_self (p r : Point K) : Collinear p p r := by
  by_cases hne : p = r
  · subst hne
    exact ⟨1, 0, p.x, .inl one_ne_zero, by simp⟩
  · have hline : Collinear p r p := collinear_of_ne hne (by simp [area])
    exact hline.perm ((List.Perm.swap r p []).cons p)

theorem collinear_iff {p q r : Point K} : Collinear p q r ↔ area p q r = 0 := by
  constructor
  · exact area_of_collinear
  · intro h
    by_cases hne : p = q
    · subst hne
      exact collinear_self p r
    · exact collinear_of_ne hne h

theorem collinear_of_not_nodup {p q r : Point K} (h : ¬[p, q, r].Nodup) : Collinear p q r := by
  have hsame : p = q ∨ p = r ∨ q = r := by
    by_contra hne
    simp only [not_or] at hne
    exact h (by simp [hne])
  rcases hsame with rfl | rfl | rfl
  · exact collinear_self p r
  · exact (collinear_self p q).perm ((List.Perm.swap p q []).cons p)
  · exact (collinear_self q p).perm (List.perm_append_singleton p [q, q]).symm

/-- The point beside two others is the first of them plus a vector that is not zero and stands at
a right angle to the way from the first to the second. -/
def StandsBeside (beside : Point K → Point K → Point K) : Prop :=
  ∀ p q, p ≠ q → ∃ v : Point K, (v.x ≠ 0 ∨ v.y ≠ 0) ∧
    v.x * (q.x - p.x) + v.y * (q.y - p.y) = 0 ∧ beside p q = ⟨p.x + v.x, p.y + v.y⟩

end

/-- Where squares are not negative, a point at a right angle is off the line. -/
theorem StandsBeside.not_collinear {K : Type} [Field K] [LinearOrder K] [IsStrictOrderedRing K]
    {beside : Point K → Point K → Point K} (h : StandsBeside beside) {p q : Point K}
    (hne : p ≠ q) : ¬Collinear p q (beside p q) := by
  intro hline
  obtain ⟨v, hv, hright, hbeside⟩ := h p q hne
  have harea : (q.x - p.x) * v.y - (q.y - p.y) * v.x = 0 := by
    have h := area_of_collinear hline
    rwa [hbeside, area, add_sub_cancel_left, add_sub_cancel_left] at h
  have hlength : (q.x - p.x) ^ 2 + (q.y - p.y) ^ 2 ≠ 0 := by
    intro hzero
    rw [add_eq_zero_iff_of_nonneg (sq_nonneg _) (sq_nonneg _), sq_eq_zero_iff,
      sq_eq_zero_iff] at hzero
    exact (sub_ne_zero_of_ne hne).elim (absurd hzero.1) (absurd hzero.2)
  have hx : ((q.x - p.x) ^ 2 + (q.y - p.y) ^ 2) * v.x = 0 := by
    linear_combination (q.x - p.x) * hright - (q.y - p.y) * harea
  have hy : ((q.x - p.x) ^ 2 + (q.y - p.y) ^ 2) * v.y = 0 := by
    linear_combination (q.y - p.y) * hright + (q.x - p.x) * harea
  rcases hv with hv | hv
  · exact hv ((mul_eq_zero.mp hx).resolve_left hlength)
  · exact hv ((mul_eq_zero.mp hy).resolve_left hlength)

/-- The point one unit from the first, a quarter turn from the direction of the second. -/
noncomputable def unitBeside (p q : Point ℝ) : Point ℝ :=
  let angle := Complex.arg ⟨q.x - p.x, q.y - p.y⟩ + Real.pi / 2
  ⟨p.x + Real.cos angle, p.y + Real.sin angle⟩

theorem unitBeside_standsBeside : StandsBeside unitBeside := by
  intro p q hne
  let z : ℂ := ⟨q.x - p.x, q.y - p.y⟩
  have hz : z ≠ 0 := by
    intro hzero
    obtain ⟨hx, hy⟩ := Complex.ext_iff.mp hzero
    exact (sub_ne_zero_of_ne hne).elim (absurd hx) (absurd hy)
  refine ⟨⟨Real.cos (z.arg + Real.pi / 2), Real.sin (z.arg + Real.pi / 2)⟩, ?_, ?_, rfl⟩
  · by_contra hzero
    rw [not_or, not_not, not_not] at hzero
    obtain ⟨hcos, hsin⟩ : Real.cos (z.arg + Real.pi / 2) = 0 ∧ Real.sin (z.arg + Real.pi / 2) = 0 :=
      hzero
    have hone := Real.cos_sq_add_sin_sq (z.arg + Real.pi / 2)
    rw [hcos, hsin] at hone
    norm_num at hone
  · rw [Real.cos_add_pi_div_two, Real.sin_add_pi_div_two, Complex.sin_arg, Complex.cos_arg hz]
    change -(z.im / ‖z‖) * z.re + z.re / ‖z‖ * z.im = 0
    ring

section

variable {α : Type}

/-- A point beside two others, where these are given by numbers. -/
def liftBeside (beside : Point α → Point α → Point α) :
    Point (Checked α) → Point (Checked α) → Point (Checked α)
  | ⟨.number px, .number py⟩, ⟨.number qx, .number qy⟩ =>
    (beside ⟨px, py⟩ ⟨qx, qy⟩).map .number
  | _, _ => ⟨.undefined, .undefined⟩

end

end Point

namespace PinPair

open Point SceneGraph.Matrix

section

variable {K : Type} [Field K]

/-- The map puts the corner of a rectangle at the first point and, where it has a width and a
height, the next corners at the others.  A direction without extent it sends nowhere. -/
structure Spans (size : Size K) (p q r : Point K) (m : Matrix K) : Prop where
  offset : m.x = p.x ∧ m.y = p.y
  across : size.width ≠ 0 → m.image ⟨size.width, 0⟩ = q
  down : size.height ≠ 0 → m.image ⟨0, size.height⟩ = r
  narrow : size.width = 0 → m.a = 0 ∧ m.b = 0
  low : size.height = 0 → m.c = 0 ∧ m.d = 0

/-- Points that a rectangle does not span the plane with. -/
def Flat (size : Size K) (p q r : Point K) : Prop :=
  size.width = 0 ∨ size.height = 0 ∨ Collinear p q r

theorem Spans.corner {size : Size K} {p q r : Point K} {m : Matrix K} (h : Spans size p q r m) :
    m.image ⟨0, 0⟩ = p := by
  obtain ⟨hx, hy⟩ := h.offset
  ext <;> simp [image, imageX, imageY, hx, hy]

/-- There is one such map. -/
theorem Spans.unique {size : Size K} {p q r : Point K} {m n : Matrix K}
    (hm : Spans size p q r m) (hn : Spans size p q r n) : m = n := by
  obtain ⟨hmx, hmy⟩ := hm.offset
  obtain ⟨hnx, hny⟩ := hn.offset
  have hfirst : m.a = n.a ∧ m.b = n.b := by
    by_cases hwidth : size.width = 0
    · simp [hm.narrow hwidth, hn.narrow hwidth]
    · have himage := (hm.across hwidth).trans (hn.across hwidth).symm
      simpa [image_mk, hmx, hmy, hnx, hny, hwidth] using himage
  have hsecond : m.c = n.c ∧ m.d = n.d := by
    by_cases hheight : size.height = 0
    · simp [hm.low hheight, hn.low hheight]
    · have himage := (hm.down hheight).trans (hn.down hheight).symm
      simpa [image_mk, hmx, hmy, hnx, hny, hheight] using himage
  exact Matrix.ext hfirst.1 hfirst.2 hsecond.1 hsecond.2 (hmx.trans hnx.symm) (hmy.trans hny.symm)

variable [DecidableEq K] {size : Size K}

theorem basis_spans (size : Size K) (p q r : Point K) :
    Spans size p q r (basis size p q r) where
  offset := ⟨rfl, rfl⟩
  across h := by
    ext <;> simp [basis, image, imageX, imageY, h]
  down h := by
    ext <;> simp [basis, image, imageX, imageY, h]
  narrow h := by simp [basis, h]
  low h := by simp [basis, h]

theorem spans_iff {p q r : Point K} {m : Matrix K} :
    Spans size p q r m ↔ m = basis size p q r :=
  ⟨fun h => h.unique (basis_spans size p q r), fun h => h ▸ basis_spans size p q r⟩

theorem determinant_basis {p q r : Point K} (hwidth : size.width ≠ 0) (hheight : size.height ≠ 0) :
    (basis size p q r).determinant = area p q r / (size.width * size.height) := by
  simp only [basis, determinant, area, beq_iff_eq, hwidth, hheight, if_false]
  field_simp

theorem determinant_basis_eq_zero_iff {p q r : Point K} :
    (basis size p q r).determinant = 0 ↔ Flat size p q r := by
  by_cases hwidth : size.width = 0
  · simp [Flat, basis, determinant, hwidth]
  · by_cases hheight : size.height = 0
    · simp [Flat, basis, determinant, hheight]
    · rw [determinant_basis hwidth hheight, div_eq_zero_iff, ← collinear_iff]
      simp [Flat, hwidth, hheight]

/-- Undoing the span of the origins and doing that of the targets takes corner to corner. -/
theorem image_carry {p q r : PinPair K} (hflat : ¬Flat size p.origin q.origin r.origin) :
    ∀ s ∈ [p, q, r], (carry size p q r).image s.origin = s.target := by
  have hdet : (basis size p.origin q.origin r.origin).determinant ≠ 0 :=
    mt determinant_basis_eq_zero_iff.mp hflat
  have hcorner : ∀ corner s, (basis size p.origin q.origin r.origin).image corner = s →
      (carry size p q r).image s = (basis size p.target q.target r.target).image corner := by
    rintro corner _ rfl
    rw [carry, image_concat, image_inverse_image hdet]
  have horigins := basis_spans size p.origin q.origin r.origin
  have htargets := basis_spans size p.target q.target r.target
  rw [Flat, not_or, not_or] at hflat
  obtain ⟨hwidth, hheight, -⟩ := hflat
  refine forall_mem_triple.mpr ⟨?_, ?_, ?_⟩
  · rw [hcorner _ _ horigins.corner, htargets.corner]
  · rw [hcorner _ _ (horigins.across hwidth), htargets.across hwidth]
  · rw [hcorner _ _ (horigins.down hheight), htargets.down hheight]

theorem carry_of_flat {p q r : PinPair K} (hflat : Flat size p.origin q.origin r.origin) :
    carry size p q r = basis size p.target q.target r.target := by
  rw [carry, inverse_of_singular (determinant_basis_eq_zero_iff.mpr hflat), identity_concat]

/-- A matrix is known by the images of three points that are not on one line. -/
theorem eq_of_image_eq_of_not_collinear {p q r : Point K} {m n : Matrix K}
    (hline : ¬Collinear p q r) (h : ∀ s ∈ [p, q, r], m.image s = n.image s) : m = n := by
  -- The points are the corners of the unit square under a map that can be undone.
  have hflat : ¬Flat ⟨1, 1⟩ p q r := by
    simpa [Flat] using hline
  have hdet : (basis ⟨1, 1⟩ p q r).determinant ≠ 0 := mt determinant_basis_eq_zero_iff.mp hflat
  have hspans := basis_spans ⟨1, 1⟩ p q r
  obtain ⟨hp, hq, hr⟩ := forall_mem_triple.mp h
  have hsame : (basis ⟨1, 1⟩ p q r).concat m = (basis ⟨1, 1⟩ p q r).concat n := by
    apply eq_of_image_corners
    · rw [image_concat, image_concat, hspans.corner, hp]
    · rw [image_concat, image_concat, hspans.across one_ne_zero, hq]
    · rw [image_concat, image_concat, hspans.down one_ne_zero, hr]
  calc m = ((basis ⟨1, 1⟩ p q r).inverse.concat (basis ⟨1, 1⟩ p q r)).concat m := by
        rw [inverse_concat hdet, identity_concat]
    _ = (basis ⟨1, 1⟩ p q r).inverse.concat ((basis ⟨1, 1⟩ p q r).concat n) := by
        rw [concat_assoc, hsame]
    _ = n := by rw [← concat_assoc, inverse_concat hdet, identity_concat]

theorem eq_carry {p q r : PinPair K} (hflat : ¬Flat size p.origin q.origin r.origin)
    {m : Matrix K} (hm : ∀ s ∈ [p, q, r], m.image s.origin = s.target) :
    m = carry size p q r := by
  have hline : ¬Collinear p.origin q.origin r.origin := fun h => hflat (.inr (.inr h))
  apply eq_of_image_eq_of_not_collinear hline
  change ∀ s ∈ [p, q, r].map PinPair.origin, m.image s = (carry size p q r).image s
  rw [List.forall_mem_map]
  intro s hs
  rw [hm s hs, image_carry hflat s hs]

/-- The map does not depend on the rectangle by way of which it is computed, nor on the order of
the pins. -/
theorem carry_eq_carry {size' : Size K} {p q r p' q' r' : PinPair K}
    (hwidth : size.width ≠ 0) (hheight : size.height ≠ 0)
    (hwidth' : size'.width ≠ 0) (hheight' : size'.height ≠ 0)
    (hline : ¬Collinear p.origin q.origin r.origin) (hperm : [p', q', r'].Perm [p, q, r]) :
    carry size' p' q' r' = carry size p q r := by
  have hline' : ¬Collinear p'.origin q'.origin r'.origin := fun h =>
    hline (h.perm (hperm.symm.map PinPair.origin))
  have hflat : ¬Flat size p.origin q.origin r.origin := by
    simp [Flat, hwidth, hheight, hline]
  have hflat' : ¬Flat size' p'.origin q'.origin r'.origin := by
    simp [Flat, hwidth', hheight', hline']
  exact eq_carry hflat fun s hs => image_carry hflat' s (hperm.mem_iff.mpr hs)

/-- An extent is divided by only where it is not zero. -/
theorem basis_checked (size : Size K) (p q r : Point K) :
    basis (size.map .number) (p.map .number) (q.map .number) (r.map .number) =
      (basis size p q r).map Checked.number := by
  by_cases hwidth : size.width = 0 <;> by_cases hheight : size.height = 0 <;>
    simp [basis, Matrix.map, Size.map, Point.map, hwidth, hheight, Checked.number_div]

theorem carry_checked (size : Size K) (p q r : PinPair K) :
    carry (size.map .number) (p.map .number) (q.map .number) (r.map .number) =
      (carry size p q r).map Checked.number := by
  rw [carry, carry, ← concat_checked, ← inverse_checked, ← basis_checked, ← basis_checked]
  rfl

theorem solve_checked (beside : Point K → Point K → Point K) (size : Size K)
    (pins : List (PinPair K)) :
    solve (liftBeside beside) (size.map .number) (pins.map (PinPair.map .number)) =
      (solve beside size pins).map Checked.number := by
  rcases pins with _ | ⟨p, _ | ⟨q, _ | ⟨r, rest⟩⟩⟩
  · rfl
  · exact translate_checked identity _ _
  · exact carry_checked size p q ⟨beside p.origin q.origin, beside p.target q.target⟩
  · exact carry_checked size p q r

end

/-- Two pins span no plane only if they coincide, since the third point is off their line. -/
theorem flat_beside_iff {K : Type} [Field K] [LinearOrder K] [IsStrictOrderedRing K]
    {beside : Point K → Point K → Point K} (hbeside : StandsBeside beside) {size : Size K}
    {p q : Point K} :
    Flat size p q (beside p q) ↔ size.width = 0 ∨ size.height = 0 ∨ p = q := by
  have hline : Collinear p q (beside p q) ↔ p = q := by
    constructor
    · intro h
      by_contra hne
      exact hbeside.not_collinear hne h
    · rintro rfl
      exact collinear_self p _
  rw [Flat, hline]

/-- The map that pins ask for.  Three pins that are not on one line have exactly one, whatever
the rectangle, their order and the pins after them; two pins that are apart reach their targets;
and where the origins span no plane, what comes out is the span of the targets.  Nothing is ever
divided by zero. -/
theorem solve_carries {K : Type} [Field K] [LinearOrder K] [IsStrictOrderedRing K]
    {beside : Point K → Point K → Point K} (hbeside : StandsBeside beside) (size : Size K) :
    (∀ p q r rest, size.width ≠ 0 → size.height ≠ 0 →
      ¬Collinear p.origin q.origin r.origin →
      (∀ s ∈ [p, q, r], (solve beside size (p :: q :: r :: rest)).image s.origin = s.target) ∧
      (∀ m : Matrix K, (∀ s ∈ [p, q, r], m.image s.origin = s.target) →
        m = solve beside size (p :: q :: r :: rest)) ∧
      ∀ size' p' q' r' rest', size'.width ≠ 0 → size'.height ≠ 0 →
        [p', q', r'].Perm [p, q, r] →
        solve beside size' (p' :: q' :: r' :: rest') =
          solve beside size (p :: q :: r :: rest)) ∧
    (∀ p q, size.width ≠ 0 → size.height ≠ 0 → p.origin ≠ q.origin →
      ∀ s ∈ [p, q], (solve beside size [p, q]).image s.origin = s.target) ∧
    (∀ p q r rest, Flat size p.origin q.origin r.origin ∨
        ¬[p.origin, q.origin, r.origin].Nodup →
      solve beside size (p :: q :: r :: rest) = basis size p.target q.target r.target) ∧
    (∀ p q, size.width = 0 ∨ size.height = 0 ∨ p.origin = q.origin →
      solve beside size [p, q] = basis size p.target q.target (beside p.target q.target)) ∧
    (∀ p q r, (basis size p q r).determinant = 0 ↔ Flat size p q r) ∧
    (∀ p q, Flat size p q (beside p q) ↔ size.width = 0 ∨ size.height = 0 ∨ p = q) ∧
    (∀ p q r m, Spans size p q r m ↔ m = basis size p q r) ∧
    ∀ pins : List (PinPair K),
      solve (liftBeside beside) (size.map .number) (pins.map (PinPair.map .number)) =
        (solve beside size pins).map Checked.number := by
  refine ⟨fun p q r rest hwidth hheight hline => ?_, fun p q hwidth hheight hne s hs => ?_,
    fun p q r rest hflat => ?_, fun p q hflat => ?_, fun p q r => determinant_basis_eq_zero_iff,
    fun p q => flat_beside_iff hbeside, fun p q r m => spans_iff, solve_checked beside size⟩
  · have hflat : ¬Flat size p.origin q.origin r.origin := by
      simp [Flat, hwidth, hheight, hline]
    exact ⟨image_carry hflat, fun m hm => eq_carry hflat hm,
      fun size' p' q' r' rest' hwidth' hheight' hperm =>
        carry_eq_carry hwidth hheight hwidth' hheight' hline hperm⟩
  · have hflat : ¬Flat size p.origin q.origin (beside p.origin q.origin) := by
      rw [flat_beside_iff hbeside]
      simp [hwidth, hheight, hne]
    refine image_carry (r := ⟨_, beside p.target q.target⟩) hflat s ?_
    exact List.mem_append_left [_] hs
  · rcases hflat with hflat | hsame
    · exact carry_of_flat hflat
    · exact carry_of_flat (.inr (.inr (collinear_of_not_nodup hsame)))
  · exact carry_of_flat (r := ⟨_, beside p.target q.target⟩) ((flat_beside_iff hbeside).mpr hflat)

/-- The start of a segment, which stays where it is. -/
noncomputable def heel : PinPair ℝ :=
  ⟨⟨0, 0⟩, ⟨0, 0⟩⟩

/-- The end of the segment, which turns a quarter and doubles its length. -/
noncomputable def toe : PinPair ℝ :=
  ⟨⟨1, 0⟩, ⟨0, 2⟩⟩

/-- A point beside the segment, which turns a quarter. -/
noncomputable def side : PinPair ℝ :=
  ⟨⟨0, 1⟩, ⟨-1, 0⟩⟩

theorem solve_carries_turned :
    StandsBeside unitBeside ∧ ¬Collinear heel.origin toe.origin side.origin ∧
      (∀ s ∈ [heel, toe], (solve unitBeside ⟨30, 20⟩ [heel, toe]).image s.origin = s.target) ∧
      solve unitBeside ⟨30, 20⟩ [heel, toe, side] = ⟨0, 2, -1, 0, 0, 0⟩ ∧
      solve unitBeside ⟨1, 1⟩ [side, heel, toe, toe] =
        solve unitBeside ⟨30, 20⟩ [heel, toe, side] ∧
      solve unitBeside ⟨0, 20⟩ [heel, toe, side] =
        basis ⟨0, 20⟩ heel.target toe.target side.target := by
  have hline : ¬Collinear heel.origin toe.origin side.origin := by
    intro h
    have harea := area_of_collinear h
    norm_num [area, heel, toe, side] at harea
  have hwidth : (30 : ℝ) ≠ 0 := by norm_num
  have hheight : (20 : ℝ) ≠ 0 := by norm_num
  obtain ⟨hthree, htwo, -⟩ := solve_carries unitBeside_standsBeside ⟨30, 20⟩
  obtain ⟨-, honly, hsame⟩ := hthree heel toe side [] hwidth hheight hline
  obtain ⟨-, -, hflat, -⟩ := solve_carries unitBeside_standsBeside ⟨0, 20⟩
  have hapart : heel.origin ≠ toe.origin := by
    simp [heel, toe]
  have hmatrix : ∀ s ∈ [heel, toe, side], (⟨0, 2, -1, 0, 0, 0⟩ : Matrix ℝ).image s.origin =
      s.target := by
    simp [heel, toe, side, image, imageX, imageY]
  have hperm : [side, heel, toe].Perm [heel, toe, side] :=
    (List.perm_append_singleton side [heel, toe]).symm
  exact ⟨unitBeside_standsBeside, hline, htwo heel toe hwidth hheight hapart,
    (honly _ hmatrix).symm, hsame ⟨1, 1⟩ side heel toe [toe] one_ne_zero one_ne_zero hperm,
    hflat heel toe side [] (.inl (.inl rfl))⟩

end PinPair

end SceneGraph
