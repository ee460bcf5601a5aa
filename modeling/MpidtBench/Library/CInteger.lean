import Mathlib.Algebra.Ring.Nat

namespace CInteger

-- 32-bit int and 64-bit size_t; a size_t is a Nat below `sizeMod`, an int an Int.
def intMax : Nat := 2147483647
def sizeMod : Nat := 18446744073709551616
def IsInt (x : Int) : Prop := -(intMax : Int) - 1 ≤ x ∧ x ≤ intMax

-- Conversions and unsigned arithmetic of C: narrowing to int keeps the residue
-- modulo 2^32 as two's complement, everything on size_t is modulo 2^64.
def toInt (x : Nat) : Int := Int.bmod x 4294967296
def toSize (x : Int) : Nat := (x % (sizeMod : Int)).toNat
def addSize (a b : Nat) : Nat := (a + b) % sizeMod
def subSize (a b : Nat) : Nat := (a + (sizeMod - b % sizeMod)) % sizeMod
def mulSize (a b : Nat) : Nat := (a * b) % sizeMod

def addInt (x y : Int) : Int := Int.bmod (x + y) 4294967296
def mulInt (x y : Int) : Int := Int.bmod (x * y) 4294967296

theorem toInt_exact (small : x ≤ intMax) : toInt x = x := by
  unfold intMax at small
  unfold toInt
  rw [Int.bmod_def]
  omega

theorem toInt_isInt (x : Nat) : IsInt (toInt x) := by
  unfold IsInt intMax toInt
  rw [Int.bmod_def]
  omega

theorem toSize_exact (small : x < sizeMod) : toSize (x : Int) = x := by
  unfold sizeMod at small
  simp only [toSize,sizeMod]
  omega

theorem addSize_exact (small : a + b < sizeMod) : addSize a b = a + b := Nat.mod_eq_of_lt small

theorem subSize_exact (ordered : b ≤ a) (small : a < sizeMod) : subSize a b = a - b := by
  unfold sizeMod at small
  simp only [subSize,sizeMod]
  omega

theorem mulSize_exact (small : a * b < sizeMod) : mulSize a b = a * b := Nat.mod_eq_of_lt small

theorem intMax_lt_sizeMod (small : x ≤ intMax) : x < sizeMod := by
  simp only [intMax,sizeMod] at *
  omega

-- An int counter that is advanced by a size_t amount holds the exact sum while
-- that sum is still an int.
theorem toInt_addSize (small : a + b ≤ intMax) : toInt (addSize (toSize (a : Int)) b) = ((a + b : Nat) : Int) := by
  have whole := intMax_lt_sizeMod small
  rw [toSize_exact (by omega),addSize_exact whole,toInt_exact small]

theorem addSize_toSize (x y : Int) : addSize (toSize x) (toSize y) = toSize (x + y) := by
  simp only [addSize,toSize,sizeMod]
  omega

theorem subSize_toSize (x y : Int) : subSize (toSize x) (toSize y) = toSize (x - y) := by
  simp only [subSize,toSize,sizeMod]
  omega

-- A sum that an int could hold, of either sign, is not mistaken for another one.
theorem toSize_eq {x : Int} {n : Nat} (low : -(intMax : Int) ≤ x) (high : x ≤ (intMax : Int)) (small : n ≤ intMax) :
    toSize x = n ↔ x = n := by
  unfold intMax at low high small
  simp only [toSize,sizeMod]
  omega

theorem mulInt_exact {x y : Int} (int : IsInt (x * y)) : mulInt x y = x * y := by
  unfold IsInt intMax at int
  unfold mulInt
  rw [Int.bmod_def]
  omega

theorem mulInt_isInt (x y : Int) : IsInt (mulInt x y) := by
  unfold IsInt intMax mulInt
  rw [Int.bmod_def]
  omega

-- Only the low 32 bits of an operand count.
theorem addInt_toInt (x y : Nat) : addInt (toInt x) y = toInt (x + y) := by
  unfold addInt toInt
  rw [Int.natCast_add]
  exact Int.bmod_add_bmod

theorem mulInt_mulInt (x y z : Int) : mulInt (mulInt x y) z = mulInt x (y * z) := by
  unfold mulInt
  rw [← Int.mul_assoc]
  exact Int.bmod_mul_bmod

theorem mulInt_multiple (x y : Int) : mulInt x (y * 4294967296) = 0 := by
  unfold mulInt
  rw [← Int.mul_assoc]
  exact Int.mul_bmod_left _ _

theorem toSize_zero (x : Int) : toSize x = 0 ↔ (sizeMod : Int) ∣ x := by
  simp only [toSize,sizeMod]
  omega

end CInteger
