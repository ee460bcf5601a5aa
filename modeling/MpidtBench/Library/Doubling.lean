import Mathlib.Algebra.Ring.Int.Defs
import MpidtBench.Library.CInteger

namespace Doubling
open CInteger

-- Doubling, and from 0 on to 1: exactly, and as an int in two's complement does it.
def double (c : Nat) : Nat := if c ≠ 0 then c*2 else 1
def doubleInt (c : Int) : Int := if c ≠ 0 then mulInt c 2 else 1

-- What is reached from c below a bound, with fuel for so many.
def upTo (bound : Nat) : Nat → Nat → List Nat
  | 0,_ => []
  | fuel+1,c => if c ≤ bound then c :: upTo bound fuel (double c) else []

-- After at most so many doublings the int is above the bound.
def Leaves (bound : Nat) : Nat → Int → Prop
  | 0,c => (bound : Int) < c
  | n+1,c => (bound : Int) < c ∨ Leaves bound n (doubleInt c)

section
variable {bound fuel n m c v : Nat} {x : Int}

theorem double_above (c : Nat) : c < double c := by
  unfold double
  split <;> omega

theorem upTo_above (member : v ∈ upTo bound fuel c) : c ≤ v := by
  induction fuel generalizing c with
  | zero => cases member
  | succ fuel ih =>
      rw [upTo] at member
      split at member
      · rcases List.mem_cons.mp member with rfl | later
        · exact Nat.le_refl v
        · exact Nat.le_trans (Nat.le_of_lt (double_above c)) (ih later)
      · cases member

theorem upTo_sorted (bound fuel c : Nat) : (upTo bound fuel c).Pairwise (· < ·) := by
  induction fuel generalizing c with
  | zero => exact .nil
  | succ fuel ih =>
      rw [upTo]
      split
      · exact .cons (fun v later => Nat.lt_of_lt_of_le (double_above c) (upTo_above later)) (ih _)
      · exact .nil

theorem none_doubled (beyond : bound < c) : ¬ (v ≤ bound ∧ ∃ k, v = c * 2 ^ k) := by
  rintro ⟨small,k,rfl⟩
  have above : c ≤ c * 2 ^ k := Nat.le_mul_of_pos_right c (Nat.two_pow_pos k)
  omega

-- A power of two is passed either by c itself or by one of its doublings.
theorem doubled_succ (more : c ≤ bound) :
    v ≤ bound ∧ (∃ k, v = c * 2 ^ k) ↔ v = c ∨ v ≤ bound ∧ ∃ k, v = c*2 * 2 ^ k := by
  constructor
  · rintro ⟨small,k,rfl⟩
    cases k with
    | zero => exact .inl (by rw [pow_zero,Nat.mul_one])
    | succ k => exact .inr ⟨small,k,by rw [pow_succ',Nat.mul_assoc]⟩
  · rintro (rfl | ⟨small,k,rfl⟩)
    · exact ⟨more,0,by rw [pow_zero,Nat.mul_one]⟩
    · exact ⟨small,k+1,by rw [pow_succ',Nat.mul_assoc]⟩

theorem mem_upTo (positive : 0 < c) (enough : bound < c * 2 ^ fuel) :
    v ∈ upTo bound fuel c ↔ v ≤ bound ∧ ∃ k, v = c * 2 ^ k := by
  induction fuel generalizing c with
  | zero =>
      rw [pow_zero,Nat.mul_one] at enough
      exact iff_of_false List.not_mem_nil (none_doubled enough)
  | succ fuel ih =>
      by_cases more : c ≤ bound
      · have rest := @ih (c*2) (by omega) (by rw [Nat.mul_assoc,← pow_succ']; exact enough)
        rw [upTo,if_pos more,double,if_pos (Nat.ne_of_gt positive),List.mem_cons,rest,doubled_succ more]
      · rw [upTo,if_neg more]
        exact iff_of_false List.not_mem_nil (none_doubled (Nat.not_le.mp more))

theorem mem_upTo_zero (enough : bound < 2 ^ fuel) :
    v ∈ upTo bound (fuel+1) 0 ↔ v = 0 ∨ v ≤ bound ∧ ∃ k, v = 1 * 2 ^ k := by
  have first : upTo bound (fuel+1) 0 = 0 :: upTo bound fuel 1 := by
    rw [upTo,if_pos (Nat.zero_le bound)]
    rfl
  rw [first,List.mem_cons,mem_upTo (by decide) (by rwa [Nat.one_mul])]

-- While an int has room for it, it holds the exact value.
theorem doubleInt_exact (small : c ≤ bound) (room : bound * 2 ≤ intMax) : doubleInt c = double c := by
  by_cases zero : c = 0
  · subst zero; rfl
  · unfold intMax at room
    rw [doubleInt,if_pos (by omega),double,if_pos zero,mulInt_exact (by unfold IsInt intMax; omega)]
    omega

theorem leaves_positive (room : bound * 2 ≤ intMax) (positive : 0 < c) (enough : bound < c * 2 ^ n) : Leaves bound n c := by
  induction n generalizing c with
  | zero =>
      rw [pow_zero,Nat.mul_one] at enough
      exact Int.ofNat_lt.mpr enough
  | succ n ih =>
      by_cases beyond : bound < c
      · exact .inl (Int.ofNat_lt.mpr beyond)
      · refine .inr ?_
        rw [doubleInt_exact (Nat.not_lt.mp beyond) room,double,if_pos (Nat.ne_of_gt positive)]
        exact ih (by omega) (by rw [Nat.mul_assoc,← pow_succ']; exact enough)

theorem leaves_natural (room : bound * 2 ≤ intMax) (enough : bound < 2 ^ n) (c : Nat) : Leaves bound (n+1) c := by
  rcases Nat.eq_zero_or_pos c with rfl | positive
  · exact .inr (leaves_positive room (c := 1) (by decide) (by rwa [Nat.one_mul]))
  · refine leaves_positive room positive (Nat.lt_of_lt_of_le enough ?_)
    calc 2 ^ n ≤ 2 ^ (n+1) := Nat.pow_le_pow_right (by decide) (Nat.le_succ n)
      _ ≤ c * 2 ^ (n+1) := Nat.le_mul_of_pos_left _ positive

-- Doubling shifts a negative int out, if it does not turn positive before.
theorem leaves_shifted (room : bound * 2 ≤ intMax) (enough : bound < 2 ^ m) (int : IsInt x) (shifted : mulInt x (2 ^ n) = 0) :
    Leaves bound (n+m+1) x := by
  induction n generalizing x with
  | zero =>
      rw [pow_zero,mulInt_exact (by rwa [Int.mul_one]),Int.mul_one] at shifted
      subst shifted
      rw [Nat.zero_add]
      exact leaves_natural room enough 0
  | succ n ih =>
      by_cases negative : x < 0
      · have again : mulInt (mulInt x 2) (2 ^ n) = 0 := by rw [mulInt_mulInt,← pow_succ']; exact shifted
        have step : doubleInt x = mulInt x 2 := if_pos (Int.ne_of_lt negative)
        rw [Nat.add_right_comm n 1 m]
        exact .inr (by rw [step]; exact ih (mulInt_isInt x 2) again)
      · obtain ⟨c,rfl⟩ := Int.eq_ofNat_of_zero_le (Int.not_lt.mp negative)
        refine leaves_natural room (Nat.lt_of_lt_of_le enough ?_) c
        exact Nat.pow_le_pow_right (by decide) (Nat.le_add_left m (n+1))

theorem leaves (room : bound * 2 ≤ intMax) (enough : bound < 2 ^ m) (int : IsInt x) : Leaves bound (32+m+1) x := by
  refine leaves_shifted room enough int ?_
  rw [show (2 : Int) ^ 32 = 1 * 4294967296 by decide]
  exact mulInt_multiple x 1

end
end Doubling
