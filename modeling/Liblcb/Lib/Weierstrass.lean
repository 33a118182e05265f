import Mathlib.AlgebraicGeometry.EllipticCurve.Affine.Point
import Mathlib.Tactic.FieldSimp
import Mathlib.Tactic.LinearCombination

/-!
# Chord and tangent on a short Weierstrass curve

The group law of `y ^ 2 = x ^ 3 + a * x + b` over a field in which two is not zero, read off
coordinates: `HasCoords P x y` says that `P` is the finite point `(x, y)`, and the lemmas give the
coordinates of a sum, first affine and then as Jacobian triples `(X / Z ^ 2, Y / Z ^ 3)`.
-/

namespace Weierstrass

open WeierstrassCurve.Affine

variable {F : Type} [Field F]

/-- The curve `y ^ 2 = x ^ 3 + a * x + b`. -/
def short (a b : F) : WeierstrassCurve.Affine F := ⟨0, 0, 0, a, b⟩

variable {a b : F}

/-- `P` is the finite point `(x, y)`. -/
def HasCoords (P : (short a b).Point) (x y : F) : Prop :=
  ∃ h : (short a b).Nonsingular x y, P = .some x y h

theorem HasCoords.ne_zero {P : (short a b).Point} {x y : F} (h : HasCoords P x y) : P ≠ 0 := by
  obtain ⟨hns, rfl⟩ := h
  exact Point.some_ne_zero hns

theorem HasCoords.unique {P : (short a b).Point} {x y x' y' : F} (h : HasCoords P x y)
    (h' : HasCoords P x' y') : x = x' ∧ y = y' := by
  obtain ⟨hns, rfl⟩ := h
  obtain ⟨hns', heq⟩ := h'
  injection heq with hx hy
  exact ⟨hx, hy⟩

theorem HasCoords.inj {P Q : (short a b).Point} {x y : F} (h : HasCoords P x y)
    (h' : HasCoords Q x y) : P = Q := by
  obtain ⟨hns, rfl⟩ := h
  obtain ⟨hns', rfl⟩ := h'
  rfl

@[simp] theorem short_negY (x y : F) : (short a b).negY x y = -y := by
  simp [negY, short]

theorem short_equation (x y : F) :
    (short a b).Equation x y ↔ y ^ 2 = x ^ 3 + a * x + b := by
  rw [equation_iff]
  simp [short]

theorem HasCoords.equation {P : (short a b).Point} {x y : F} (h : HasCoords P x y) :
    y ^ 2 = x ^ 3 + a * x + b := by
  obtain ⟨hns, -⟩ := h
  exact (short_equation x y).mp hns.1

theorem HasCoords.neg {P : (short a b).Point} {x y : F} (h : HasCoords P x y) :
    HasCoords (-P) x (-y) := by
  obtain ⟨hns, rfl⟩ := h
  have hns' : (short a b).Nonsingular x ((short a b).negY x y) := (nonsingular_neg x y).mpr hns
  rw [short_negY] at hns'
  refine ⟨hns', ?_⟩
  rw [Point.neg_some]
  congr 1
  exact short_negY x y

theorem hasCoords_of_equation (hΔ : 4 * a ^ 3 + 27 * b ^ 2 ≠ 0) (h2 : (2 : F) ≠ 0) {x y : F}
    (h : y ^ 2 = x ^ 3 + a * x + b) : ∃ P : (short a b).Point, HasCoords P x y := by
  have heq := (short_equation (a := a) (b := b) x y).mpr h
  have hD : (short a b).Δ ≠ 0 := by
    intro h0
    apply hΔ
    have : (short a b).Δ = -(2 ^ 4 * (4 * a ^ 3 + 27 * b ^ 2)) := by
      simp only [short, WeierstrassCurve.Δ, WeierstrassCurve.b₂, WeierstrassCurve.b₄,
        WeierstrassCurve.b₆, WeierstrassCurve.b₈]
      ring
    rw [this, neg_eq_zero, mul_eq_zero] at h0
    exact h0.resolve_left (pow_ne_zero _ h2)
  have hns := (equation_iff_nonsingular_of_Δ_ne_zero hD).mp heq
  exact ⟨.some x y hns, hns, rfl⟩

/-! ## Sums of affine points -/

section Affine

variable [DecidableEq F]

theorem HasCoords.add {P Q : (short a b).Point} {x₁ y₁ x₂ y₂ l x₃ : F} (hP : HasCoords P x₁ y₁)
    (hQ : HasCoords Q x₂ y₂) (hx : x₁ ≠ x₂) (hl : l * (x₂ - x₁) = y₂ - y₁)
    (hx₃ : x₃ = l ^ 2 - x₁ - x₂) : HasCoords (P + Q) x₃ (l * (x₁ - x₃) - y₁) := by
  obtain ⟨hns, rfl⟩ := hP
  obtain ⟨hns', rfl⟩ := hQ
  have hne : x₂ - x₁ ≠ 0 := sub_ne_zero.mpr (Ne.symm hx)
  have hslope : (short a b).slope x₁ x₂ y₁ y₂ = l := by
    rw [slope_of_X_ne hx, div_eq_iff (sub_ne_zero.mpr hx)]
    linear_combination hl
  have hX : (short a b).addX x₁ x₂ l = x₃ := by
    simp only [addX, short, hx₃]
    ring
  have hY : (short a b).addY x₁ x₂ y₁ l = l * (x₁ - x₃) - y₁ := by
    rw [addY, short_negY, negAddY, hX]
    ring
  have hadd := nonsingular_add hns hns' (fun h => hx h.1)
  rw [hslope, hX, hY] at hadd
  refine ⟨hadd, ?_⟩
  rw [Point.add_some (fun h => hx h.1)]
  congr 1
  · rw [hslope, hX]
  · rw [hslope, hY]

theorem HasCoords.add_of_ne {P Q : (short a b).Point} {x y₁ y₂ : F} (hP : HasCoords P x y₁)
    (hQ : HasCoords Q x y₂) (hy : y₁ ≠ y₂) : P + Q = 0 := by
  have h1 := hP.equation
  have h2 := hQ.equation
  have hmul : (y₁ - y₂) * (y₁ + y₂) = 0 := by linear_combination h1 - h2
  have hsum := (mul_eq_zero.mp hmul).resolve_left (sub_ne_zero.mpr hy)
  have hneg := hQ.neg
  rw [show -y₂ = y₁ by linear_combination -hsum] at hneg
  rw [hP.inj hneg, neg_add_cancel]

theorem HasCoords.double_of_zero {P : (short a b).Point} {x : F} (hP : HasCoords P x 0) :
    P + P = 0 := by
  have hneg := hP.neg
  rw [neg_zero] at hneg
  have h := hP.inj hneg
  rw [add_eq_zero_iff_eq_neg, ← h]

theorem HasCoords.double (h2 : (2 : F) ≠ 0) {P : (short a b).Point} {x y l x₃ : F}
    (hP : HasCoords P x y) (hy : y ≠ 0) (hl : l * (2 * y) = 3 * x ^ 2 + a)
    (hx₃ : x₃ = l ^ 2 - x - x) : HasCoords (P + P) x₃ (l * (x - x₃) - y) := by
  obtain ⟨hns, rfl⟩ := hP
  have hne : y ≠ (short a b).negY x y := by
    rw [short_negY]
    intro h
    have : 2 * y = 0 := by linear_combination h
    exact hy ((mul_eq_zero.mp this).resolve_left h2)
  have hslope : (short a b).slope x x y y = l := by
    rw [slope_of_Y_ne rfl hne, short_negY, div_eq_iff (by
      intro h
      apply hne
      rw [short_negY]
      linear_combination h)]
    simp only [short]
    linear_combination -hl
  have hX : (short a b).addX x x l = x₃ := by
    simp only [addX, short, hx₃]
    ring
  have hY : (short a b).addY x x y l = l * (x - x₃) - y := by
    rw [addY, short_negY, negAddY, hX]
    ring
  have hadd := nonsingular_add hns hns (fun h => hne h.2)
  rw [hslope, hX, hY] at hadd
  refine ⟨hadd, ?_⟩
  rw [Point.add_some (fun h => hne h.2)]
  congr 1
  · rw [hslope, hX]
  · rw [hslope, hY]

end Affine

/-! ## Jacobian triples -/

/-- `P` is the finite point with the Jacobian coordinates `(X, Y, Z)`. -/
structure JacCoords (P : (short a b).Point) (X Y Z : F) : Prop where
  z_ne : Z ≠ 0
  coords : HasCoords P (X / Z ^ 2) (Y / Z ^ 3)

theorem JacCoords.neg {P : (short a b).Point} {X Y Z : F} (h : JacCoords P X Y Z) :
    JacCoords (-P) X (-Y) Z := by
  refine ⟨h.z_ne, ?_⟩
  rw [neg_div]
  exact h.coords.neg

theorem JacCoords.of_affine {P : (short a b).Point} {x y : F} (h : HasCoords P x y) :
    JacCoords P x y 1 := by
  refine ⟨one_ne_zero, ?_⟩
  rw [one_pow, one_pow, div_one, div_one]
  exact h

section Add

variable {P Q : (short a b).Point} {X₁ Y₁ Z₁ X₂ Y₂ Z₂ : F}

theorem JacCoords.x_eq_iff (hP : JacCoords P X₁ Y₁ Z₁) (hQ : JacCoords Q X₂ Y₂ Z₂) :
    X₁ / Z₁ ^ 2 = X₂ / Z₂ ^ 2 ↔ X₁ * Z₂ ^ 2 = X₂ * Z₁ ^ 2 :=
  div_eq_div_iff (pow_ne_zero 2 hP.z_ne) (pow_ne_zero 2 hQ.z_ne)

theorem JacCoords.y_eq_iff (hP : JacCoords P X₁ Y₁ Z₁) (hQ : JacCoords Q X₂ Y₂ Z₂) :
    Y₁ / Z₁ ^ 3 = Y₂ / Z₂ ^ 3 ↔ Y₁ * Z₂ ^ 3 = Y₂ * Z₁ ^ 3 :=
  div_eq_div_iff (pow_ne_zero 3 hP.z_ne) (pow_ne_zero 3 hQ.z_ne)

theorem JacCoords.eq_of_cross (hP : JacCoords P X₁ Y₁ Z₁) (hQ : JacCoords Q X₂ Y₂ Z₂)
    (hx : X₁ * Z₂ ^ 2 = X₂ * Z₁ ^ 2) (hy : Y₁ * Z₂ ^ 3 = Y₂ * Z₁ ^ 3) : P = Q := by
  have h := hP.coords
  rw [(hP.x_eq_iff hQ).mpr hx, (hP.y_eq_iff hQ).mpr hy] at h
  exact h.inj hQ.coords

variable [DecidableEq F]

theorem JacCoords.add_of_ne (hP : JacCoords P X₁ Y₁ Z₁) (hQ : JacCoords Q X₂ Y₂ Z₂)
    (hx : X₁ * Z₂ ^ 2 = X₂ * Z₁ ^ 2) (hy : Y₁ * Z₂ ^ 3 ≠ Y₂ * Z₁ ^ 3) : P + Q = 0 := by
  have h := hP.coords
  rw [(hP.x_eq_iff hQ).mpr hx] at h
  exact h.add_of_ne hQ.coords (fun heq => hy ((hP.y_eq_iff hQ).mp heq))

/-- Addition of triples, with `A`, `B`, `C`, `D` the cross products, `E = C - A` and
`F = D - B`. -/
theorem JacCoords.add {A B C D : F} (hP : JacCoords P X₁ Y₁ Z₁) (hQ : JacCoords Q X₂ Y₂ Z₂)
    (hA : A = X₁ * Z₂ ^ 2) (hB : B = Y₁ * Z₂ ^ 3) (hC : C = X₂ * Z₁ ^ 2) (hD : D = Y₂ * Z₁ ^ 3)
    (hx : A ≠ C) {X₃ : F} (hX : X₃ = (D - B) ^ 2 - (C - A) ^ 3 - 2 * (A * (C - A) ^ 2)) :
    JacCoords (P + Q) X₃ ((D - B) * (A * (C - A) ^ 2 - X₃) - B * (C - A) ^ 3)
      ((C - A) * Z₁ * Z₂) := by
  have hz₁ := hP.z_ne
  have hz₂ := hQ.z_ne
  have hE : C - A ≠ 0 := sub_ne_zero.mpr (Ne.symm hx)
  have hne : X₁ / Z₁ ^ 2 ≠ X₂ / Z₂ ^ 2 := by
    rw [Ne, hP.x_eq_iff hQ, ← hA, ← hC]
    exact hx
  refine ⟨mul_ne_zero (mul_ne_zero hE hz₁) hz₂, ?_⟩
  have hx₁ : X₁ / Z₁ ^ 2 = A / (Z₁ * Z₂) ^ 2 := by
    rw [hA]
    field_simp
  have hx₂ : X₂ / Z₂ ^ 2 = C / (Z₁ * Z₂) ^ 2 := by
    rw [hC]
    field_simp
  have hy₁ : Y₁ / Z₁ ^ 3 = B / (Z₁ * Z₂) ^ 3 := by
    rw [hB]
    field_simp
  have hy₂ : Y₂ / Z₂ ^ 3 = D / (Z₁ * Z₂) ^ 3 := by
    rw [hD]
    field_simp
  have hz : Z₁ * Z₂ ≠ 0 := mul_ne_zero hz₁ hz₂
  have hsum := hP.coords.add hQ.coords hne (l := (D - B) / ((C - A) * (Z₁ * Z₂)))
    (by
      rw [hx₁, hx₂, hy₁, hy₂]
      field_simp)
    (show X₃ / ((C - A) * Z₁ * Z₂) ^ 2 = _ by
      rw [hx₁, hx₂, hX, mul_assoc]
      generalize Z₁ * Z₂ = Z at hz
      generalize hEdef : C - A = E at hE
      rw [show C = A + E by rw [← hEdef]; ring]
      field_simp
      ring)
  have hy₃ : (D - B) / ((C - A) * (Z₁ * Z₂)) * (X₁ / Z₁ ^ 2 - X₃ / ((C - A) * Z₁ * Z₂) ^ 2) -
      Y₁ / Z₁ ^ 3 = ((D - B) * (A * (C - A) ^ 2 - X₃) - B * (C - A) ^ 3) /
        ((C - A) * Z₁ * Z₂) ^ 3 := by
    rw [hx₁, hy₁, mul_assoc (C - A)]
    field_simp
  rw [hy₃] at hsum
  exact hsum

/-- Mixed addition: the second point is affine, so that two of the cross products are `X₁` and
`Y₁`. -/
theorem JacCoords.add_affine {x₂ y₂ C D X₃ : F} (hP : JacCoords P X₁ Y₁ Z₁)
    (hQ : HasCoords Q x₂ y₂) (hC : C = x₂ * Z₁ ^ 2) (hD : D = y₂ * Z₁ ^ 3) (hx : X₁ ≠ C)
    (hX : X₃ = (D - Y₁) ^ 2 - (C - X₁) ^ 3 - 2 * (X₁ * (C - X₁) ^ 2)) :
    JacCoords (P + Q) X₃ ((D - Y₁) * (X₁ * (C - X₁) ^ 2 - X₃) - Y₁ * (C - X₁) ^ 3)
      ((C - X₁) * Z₁) := by
  have hA : X₁ = X₁ * 1 ^ 2 := by rw [one_pow, mul_one]
  have hB : Y₁ = Y₁ * 1 ^ 3 := by rw [one_pow, mul_one]
  have hsum := hP.add (.of_affine hQ) hA hB hC hD hx hX
  rw [mul_one] at hsum
  exact hsum

theorem JacCoords.double_of_zero (hP : JacCoords P X₁ 0 Z₁) : P + P = 0 := by
  have h := hP.coords
  rw [zero_div] at h
  exact h.double_of_zero

/-- Doubling of a triple, with `M` the numerator of the slope, `S = X * (2 * Y) ^ 2` and
`2 * T = (2 * Y) ^ 4`. -/
theorem JacCoords.double (h2 : (2 : F) ≠ 0) (hP : JacCoords P X₁ Y₁ Z₁) (hy : Y₁ ≠ 0)
    {M S T X₃ : F} (hM : M = 3 * X₁ ^ 2 + a * Z₁ ^ 4) (hS : S = X₁ * (2 * Y₁) ^ 2)
    (hT : 2 * T = (2 * Y₁) ^ 4) (hX : X₃ = M ^ 2 - S - S) :
    JacCoords (P + P) X₃ ((S - X₃) * M - T) (Z₁ * (2 * Y₁)) := by
  have hz := hP.z_ne
  have hT' : T = 8 * Y₁ ^ 4 := by
    apply mul_left_cancel₀ h2
    rw [hT]
    ring
  refine ⟨mul_ne_zero hz (mul_ne_zero h2 hy), ?_⟩
  have hdbl := hP.coords.double h2 (div_ne_zero hy (pow_ne_zero 3 hz))
    (l := M / (Z₁ * (2 * Y₁))) (by
      rw [hM]
      field_simp)
    (show X₃ / (Z₁ * (2 * Y₁)) ^ 2 = _ by
      rw [hX, hS]
      field_simp)
  have hy₃ : M / (Z₁ * (2 * Y₁)) * (X₁ / Z₁ ^ 2 - X₃ / (Z₁ * (2 * Y₁)) ^ 2) - Y₁ / Z₁ ^ 3 =
      ((S - X₃) * M - T) / (Z₁ * (2 * Y₁)) ^ 3 := by
    rw [hS, hT']
    field_simp
    ring
  rw [hy₃] at hdbl
  exact hdbl

end Add

/-! ## Triples with `Z = 0` -/

/-- The triple stands for `P`: with `Z = 0` for the point at infinity, whatever `X` and `Y` are. -/
inductive Represents : (short a b).Point → F → F → F → Prop
  | infinite (X Y : F) : Represents 0 X Y 0
  | finite {P : (short a b).Point} {X Y Z : F} (h : JacCoords P X Y Z) : Represents P X Y Z

theorem Represents.neg {P : (short a b).Point} {X Y Z : F} (h : Represents P X Y Z) :
    Represents (-P) X (-Y) Z := by
  cases h with
  | infinite =>
    show Represents 0 X (-Y) 0
    exact .infinite X (-Y)
  | finite h => exact .finite h.neg

theorem Represents.of_affine {P : (short a b).Point} {x y : F} (h : HasCoords P x y) :
    Represents P x y 1 := .finite (JacCoords.of_affine h)

theorem Represents.eq_zero {P : (short a b).Point} {X Y : F} (h : Represents P X Y 0) : P = 0 := by
  cases h with
  | infinite => rfl
  | finite h => exact absurd rfl h.z_ne

theorem Represents.z_eq_zero_iff {P : (short a b).Point} {X Y Z : F} (h : Represents P X Y Z) :
    Z = 0 ↔ P = 0 := by
  cases h with
  | infinite => exact iff_of_true rfl rfl
  | finite h => exact iff_of_false h.z_ne h.coords.ne_zero

theorem Represents.coords {P : (short a b).Point} {X Y Z : F} (h : Represents P X Y Z)
    (hZ : Z ≠ 0) : JacCoords P X Y Z := by
  cases h with
  | infinite => exact absurd rfl hZ
  | finite h => exact h

section

variable [DecidableEq F] {P : (short a b).Point} {X Y Z M S T X₃ : F}

theorem Represents.double (h2 : (2 : F) ≠ 0) (h : Represents P X Y Z)
    (hM : M = 3 * X ^ 2 + a * Z ^ 4) (hS : S = X * (2 * Y) ^ 2) (hT : 2 * T = (2 * Y) ^ 4)
    (hX : X₃ = M ^ 2 - S - S) : Represents (P + P) X₃ ((S - X₃) * M - T) (Z * (2 * Y)) := by
  cases h with
  | infinite =>
    rw [add_zero, zero_mul]
    exact .infinite _ _
  | finite h =>
    by_cases hy : Y = 0
    · subst hy
      rw [h.double_of_zero, mul_zero, mul_zero]
      exact .infinite _ _
    · exact .finite (h.double h2 hy hM hS hT hX)

theorem Represents.double_of_zero (h : Represents P X 0 Z) : P + P = 0 := by
  cases h with
  | infinite => exact add_zero 0
  | finite h => exact h.double_of_zero

theorem Represents.double_carried {V : F} (h2 : (2 : F) ≠ 0) (h : Represents P X (V / 2) Z)
    (hM : M = 3 * X ^ 2 + a * Z ^ 4) (hS : S = X * V ^ 2) (hX : X₃ = M ^ 2 - S - S) :
    Represents (P + P) X₃ ((M * 2 * (S - X₃) - (V ^ 2) ^ 2) / 2) (Z * V) := by
  have hV : 2 * (V / 2) = V := mul_div_cancel₀ V h2
  have hT : 2 * (V ^ 4 / 2) = (2 * (V / 2)) ^ 4 := by rw [hV, mul_div_cancel₀ _ h2]
  have hdbl := h.double h2 hM (by rw [hV, hS]) hT hX
  have hY : (S - X₃) * M - V ^ 4 / 2 = (M * 2 * (S - X₃) - (V ^ 2) ^ 2) / 2 := by
    field_simp
  rw [hV, hY] at hdbl
  exact hdbl

end

end Weierstrass
