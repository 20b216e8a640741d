import Mathlib.Data.Nat.Notation
import Mathlib.Data.BitVec

/-! A counter kept in a machine word that moves by a fixed size instead of by one. It stands
for a number as long as the scaled number fits the word. -/
namespace ScaledCounter

variable {width size : ℕ}

/-- The word that stands for `n`. -/
def scaled (width size n : ℕ) : BitVec width := BitVec.ofNat width (size*n)

theorem scaled_zero : scaled width size 0 = 0 := rfl

theorem scaled_succ (n : ℕ) :
    scaled width size n + BitVec.ofNat width size = scaled width size (n+1) := by
  rw [scaled, scaled, Nat.mul_succ, BitVec.ofNat_add]

theorem scaled_pred (n : ℕ) :
    scaled width size (n+1) - BitVec.ofNat width size = scaled width size n := by
  rw [← scaled_succ, BitVec.add_sub_cancel]

/-- Within the word the counter reads zero for zero only. -/
theorem scaled_eq_zero_iff {n : ℕ} (hsize : 0 < size) (hfits : size*n < 2^width) :
    scaled width size n = 0 ↔ n = 0 := by
  constructor
  · intro h
    have hnat : (scaled width size n).toNat = 0 := by rw [h]; rfl
    rw [scaled, BitVec.toNat_ofNat, Nat.mod_eq_of_lt hfits] at hnat
    rcases Nat.mul_eq_zero.mp hnat with hz | hz
    · omega
    · exact hz
  · rintro rfl
    exact scaled_zero

end ScaledCounter
