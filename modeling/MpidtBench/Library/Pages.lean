import Mathlib.Data.Nat.Bitwise

namespace Pages

-- Clearing the low `k` of `w` bits rounds down to a multiple of 2^k.
theorem land_mask (fits : x < 2 ^ w) (order : k ≤ w) : x &&& (2 ^ w - 1 - (2 ^ k - 1)) = x / 2 ^ k * 2 ^ k := by
  have split : 2 ^ w - 1 - (2 ^ k - 1) = (2 ^ (w-k) - 1) <<< k := by
    have whole : 2 ^ (w-k) * 2 ^ k = 2 ^ w := by rw [← Nat.pow_add,Nat.sub_add_cancel order]
    have positive := Nat.two_pow_pos k
    rw [Nat.shiftLeft_eq,Nat.sub_mul,Nat.one_mul,whole]
    omega
  rw [split,← Nat.shiftRight_eq_div_pow,← Nat.shiftLeft_eq]
  apply Nat.eq_of_testBit_eq
  intro i
  simp only [Nat.testBit_and,Nat.testBit_shiftLeft,Nat.testBit_shiftRight,Nat.testBit_two_pow_sub_one]
  by_cases low : k ≤ i
  · rw [Nat.add_sub_cancel' low]
    by_cases high : i - k < w - k
    · simp [low,high]
    · have zero : x.testBit i = false := Nat.testBit_lt_two_pow (Nat.lt_of_lt_of_le fits (Nat.pow_le_pow_right (by decide) (by omega)))
      simp [zero]
  · simp [low]

-- The whole pages that cover `size` bytes from a page boundary on.
def covered (page size : Nat) : Nat := (size + (page - 1)) / page * page

theorem le_covered (positive : 0 < page) (size : Nat) : size ≤ covered page size := by
  have parts := Nat.div_add_mod (size + (page - 1)) page
  have low := Nat.mod_lt (size + (page - 1)) positive
  rw [covered,Nat.mul_comm]
  omega

theorem covered_page (positive : 0 < page) : covered page page = page := by
  rw [covered,Nat.add_div_left _ positive,Nat.div_eq_of_lt (by omega)]
  simp

-- Blocks that divide the page do not cross a page boundary.
theorem block_within (divides : size ∣ page) (positive : 0 < page) (i : Nat) : i * size % page + size ≤ page := by
  obtain ⟨count,rfl⟩ := divides
  have some_blocks : 0 < count := Nat.pos_of_mul_pos_left positive
  rw [Nat.mul_comm i size,Nat.mul_mod_mul_left,← Nat.mul_succ]
  exact Nat.mul_le_mul_left _ (Nat.mod_lt i some_blocks)

-- The block in which the first page ends, when it does not end with one.
theorem block_crossing (positive : 0 < size) (indivisible : ¬ size ∣ page) :
    page / size * size < page ∧ page < page / size * size + size := by
  have parts := Nat.div_add_mod page size
  have low := Nat.mod_lt page positive
  have part : 0 < page % size := Nat.pos_of_ne_zero fun zero => indivisible (Nat.dvd_of_mod_eq_zero zero)
  rw [Nat.mul_comm] at parts
  omega

end Pages
