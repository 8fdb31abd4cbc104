import Mathlib

/-!
# Parts of an amount

An amount that is divided by weights, every part rounded down. The parts do not add up to the amount,
but never to more than it, if the weights do not add up to more than the total.
-/

namespace DeltaChain.Lib.Shares

variable {α : Type} {amount weight total : Int}

/-- What `weight` out of `total` gets of an amount. -/
def part (amount weight total : Int) : Int := amount * weight / total

theorem part_nonneg (hamount : 0 ≤ amount) (hweight : 0 ≤ weight) (htotal : 0 ≤ total) :
    0 ≤ part amount weight total :=
  Int.ediv_nonneg (mul_nonneg hamount hweight) htotal

theorem part_le (hamount : 0 ≤ amount) (hweight : weight ≤ total) (htotal : 0 < total) :
    part amount weight total ≤ amount :=
  Int.ediv_le_of_le_mul htotal (mul_le_mul_of_nonneg_left hweight hamount)

theorem part_mul_le (amount weight : Int) (htotal : 0 < total) :
    part amount weight total * total ≤ amount * weight :=
  Int.ediv_mul_le _ htotal.ne'

theorem part_mono {weight' : Int} (hamount : 0 ≤ amount) (h : weight ≤ weight') (htotal : 0 < total) :
    part amount weight total ≤ part amount weight' total :=
  Int.ediv_le_ediv htotal (mul_le_mul_of_nonneg_left h hamount)

theorem sum_part_mul_le (amount : Int) (w : α → Int) (htotal : 0 < total) (l : List α) :
    (l.map fun a => part amount (w a) total).sum * total ≤ amount * (l.map w).sum := by
  induction l with
  | nil => simp
  | cons a l ih =>
    have hhead := part_mul_le amount (w a) htotal
    simp only [List.map_cons, List.sum_cons, add_mul, mul_add]
    omega

/-- **The parts** add up to no more than the amount. -/
theorem sum_part_le (hamount : 0 ≤ amount) (w : α → Int) (htotal : 0 < total) (l : List α)
    (h : (l.map w).sum ≤ total) : (l.map fun a => part amount (w a) total).sum ≤ amount := by
  have hscaled : (l.map fun a => part amount (w a) total).sum * total ≤ amount * total :=
    (sum_part_mul_le amount w htotal l).trans (mul_le_mul_of_nonneg_left h hamount)
  exact le_of_mul_le_mul_right hscaled htotal

end DeltaChain.Lib.Shares
