import MpidtBench.Proofs.SweepTrace

namespace MpidtBench.SweepArithmetic
open Traced CInteger ScatterGather MpidtBench SweepShape SweepTrace

def Admitted (bufsize minBs maxBs : Nat) : Prop := 0 < bufsize ∧ minBs ≤ maxBs ∧ maxBs ≤ bufsize ∧ 0 < maxBs ∧ 0 < minBs

-- The sweep over the sizes minBs * 2^k, on whatever main's calls do.
structure SweepExact (role : Role) (iters full : Nat) (machine : Machine) (bufsize minBs maxBs : Nat) : Prop where
  buffer : 1 ≤ bufsize ∧ bufsize ≤ intMax
  counts : ∀ k, minBs * 2 ^ k ≤ maxBs → 1 ≤ bufsize / (minBs * 2 ^ k) ∧ bufsize / (minBs * 2 ^ k) ≤ intMax
  shifts : ∀ k, minBs * 2 ^ k ≤ maxBs → mulSize (minBs * 2 ^ k) 2 = minBs * 2 ^ (k+1)
  heads : ∀ n acts s, Visits (sweepBody role iters full machine bufsize maxBs) n (0,minBs) acts s →
    s = (n,minBs * 2 ^ n) ∧ 0 < s.2 ∧ ∀ k < n, minBs * 2 ^ k ≤ maxBs
  stops : ∃ bound, ∀ n acts s, Visits (sweepBody role iters full machine bufsize maxBs) n (0,minBs) acts s → n ≤ bound
  complete : (∀ k, minBs * 2 ^ k ≤ maxBs → ∀ bench, (called role iters full bufsize machine (k,minBs * 2 ^ k) bench).out = .ok ()) →
    (mainProgram role iters full machine bufsize minBs maxBs).out = .ok () ∧ ∀ k, minBs * 2 ^ k ≤ maxBs →
      ∃ acts, Visits (sweepBody role iters full machine bufsize maxBs) k (0,minBs) acts (k,minBs * 2 ^ k)

section
variable {role : Role} {iters full bufsize minBs maxBs : Nat} {machine : Machine}

theorem refused {bufsize minBs maxBs : Int} (outside : ¬ Admitted (toSize bufsize) (toSize minBs) (toSize maxBs)) :
    mainOfArgs role iters full machine bufsize minBs maxBs = Run.fail .assertion := by
  unfold mainOfArgs mainProgram
  unfold Admitted at outside
  by_cases some_bytes : 0 < toSize bufsize
  · have checked : (toSize minBs ≤ toSize maxBs && toSize maxBs ≤ toSize bufsize && 0 < toSize maxBs && 0 < toSize minBs) = false := by
      simp only [Bool.and_eq_false_iff,decide_eq_false_iff_not]
      omega
    rw [assert,if_pos (decide_eq_true some_bytes),Run.pure_chain,checked]
    rfl
  · rw [assert,if_neg (by simpa using some_bytes)]
    rfl

theorem doubled_le (below : minBs * 2 ^ (k+1) ≤ maxBs) : minBs * 2 ^ k ≤ maxBs :=
  Nat.le_trans (Nat.mul_le_mul_left _ (Nat.pow_le_pow_right (by decide) (Nat.le_succ k))) below

theorem shift_doubles (small : maxBs ≤ intMax) (below : minBs * 2 ^ k ≤ maxBs) : mulSize (minBs * 2 ^ k) 2 = minBs * 2 ^ (k+1) := by
  rw [shift_exact small below,Nat.mul_assoc,← Nat.pow_succ]

theorem sweep_heads (small : maxBs ≤ intMax) (visit : Visits (sweepBody role iters full machine bufsize maxBs) n (0,minBs) acts s) :
    s = (n,minBs * 2 ^ n) ∧ ∀ k < n, minBs * 2 ^ k ≤ maxBs := by
  generalize start : (0,minBs) = first at visit
  induction visit with
  | enter => subst start; exact ⟨by simp,fun k before => absurd before (Nat.not_lt_zero k)⟩
  | @pass n _ _ t _ _ _ stepped ih =>
      obtain ⟨rfl,earlier⟩ := ih start
      obtain ⟨more,_,rfl,_⟩ := sweepBody_parts (congrArg Run.out stepped)
      refine ⟨by rw [shift_doubles small more],fun k before => ?_⟩
      by_cases last : k = n
      · exact last ▸ more
      · exact earlier k (by omega)

theorem sweep_visits (small : maxBs ≤ intMax) (nonzero : 0 < minBs) (below : minBs * 2 ^ k ≤ maxBs)
    (each : ∀ k, minBs * 2 ^ k ≤ maxBs → ∀ bench, (called role iters full bufsize machine (k,minBs * 2 ^ k) bench).out = .ok ()) :
    ∃ acts, Visits (sweepBody role iters full machine bufsize maxBs) k (0,minBs) acts (k,minBs * 2 ^ k) := by
  induction k with
  | zero => exact ⟨[],by simpa using Visits.enter⟩
  | succ k ih =>
      have before := doubled_le below
      obtain ⟨acts,visit⟩ := ih before
      have bytes : 0 < minBs * 2 ^ k := Nat.mul_pos nonzero (Nat.two_pow_pos k)
      have stepped := @sweep_step role iters full bufsize maxBs machine (k,minBs * 2 ^ k) before bytes (each k before)
      rw [shift_doubles small before] at stepped
      exact ⟨_,visit.next stepped⟩

theorem sweep_exact (admitted : Admitted bufsize minBs maxBs) (small : bufsize ≤ intMax) :
    SweepExact role iters full machine bufsize minBs maxBs := by
  obtain ⟨some_bytes,ordered,inside,_,nonzero⟩ := admitted
  have ints : maxBs ≤ intMax := Nat.le_trans inside small
  refine ⟨⟨some_bytes,small⟩,?_,fun k below => shift_doubles ints below,?_,⟨32,?_⟩,?_⟩
  · intro k below
    have bytes : 0 < minBs * 2 ^ k := Nat.mul_pos nonzero (Nat.two_pow_pos k)
    exact ⟨Nat.div_pos (Nat.le_trans below inside) bytes,Nat.le_trans (Nat.div_le_self _ _) small⟩
  · intro n acts s visit
    obtain ⟨rfl,earlier⟩ := sweep_heads ints visit
    exact ⟨rfl,Nat.mul_pos nonzero (Nat.two_pow_pos n),earlier⟩
  · intro n acts s visit
    obtain ⟨_,earlier⟩ := sweep_heads ints visit
    apply Nat.le_of_not_lt
    intro beyond
    have bound := earlier 32 beyond
    simp only [intMax] at ints
    omega
  · intro each
    exact ⟨main_ends some_bytes nonzero ordered inside small each,fun k below => sweep_visits ints nonzero below each⟩

end

theorem toSize_negative {x : Int} (int : IsInt x) (negative : x < 0) : intMax < toSize x := by
  unfold IsInt at int
  simp only [toSize,sizeMod,intMax] at *
  omega

theorem toSize_positive {x : Int} (int : IsInt x) (positive : 0 < x) : toSize x ≤ intMax := by
  unfold IsInt at int
  simp only [toSize,sizeMod,intMax] at *
  omega

theorem standalone_divides {blocksize : Int} (int : IsInt blocksize) (bufsize : Int) :
    (standaloneSizes blocksize bufsize).out ≠ .error .divideByZero ↔ blocksize ≠ 0 := by
  have zero : toSize blocksize = 0 ↔ blocksize = 0 := by
    unfold IsInt at int
    simp only [toSize,sizeMod,intMax] at *
    omega
  constructor
  · rintro divides rfl
    exact divides rfl
  · intro nonzero trapped
    have bytes : 0 < toSize blocksize := Nat.pos_of_ne_zero fun none => nonzero (zero.mp none)
    rw [standaloneSizes,divide_some bytes,Run.pure_chain,assert,if_pos (decide_eq_true bytes),Run.pure_chain,assert] at trapped
    split at trapped <;> cases trapped

-- The three arguments of main, and the two of each standalone program.
theorem sweep_arithmetic (role : Role) (iters full : Nat) (machine : Machine) {bufsize minBs maxBs : Int} (int : IsInt bufsize)
    (admitted : Admitted (toSize bufsize) (toSize minBs) (toSize maxBs)) :
    (SweepExact role iters full machine (toSize bufsize) (toSize minBs) (toSize maxBs) ↔ 0 < bufsize) ∧
    ∀ blocksize size, IsInt blocksize → IsInt size →
      ((standaloneSizes blocksize size).out ≠ .error .divideByZero ↔ blocksize ≠ 0) := by
  refine ⟨⟨fun exact => ?_,fun positive => sweep_exact admitted (toSize_positive int positive)⟩,
    fun blocksize size blockInt _ => standalone_divides blockInt size⟩
  have small := exact.buffer.2
  have some_bytes := admitted.1
  apply Int.not_le.mp
  intro none
  rcases Int.lt_or_eq_of_le none with negative | rfl
  · exact absurd small (Nat.not_le_of_lt (toSize_negative int negative))
  · exact absurd some_bytes (by decide)

def silentMachine : Machine :=
  ⟨1048576,4096,1024,fun _ => 16777216,fun _ _ _ _ => 0,fun _ _ => [],fun _ _ => ⟨-1,fun _ => 0,fun _ _ _ _ => none⟩,fun _ _ => 0⟩

theorem sweep_arithmetic_doubling : SweepExact .sender 110 65536 silentMachine (toSize 1048576) (toSize 3) (toSize 65536) ∧
    (standaloneSizes 4 1048576).out ≠ .error .divideByZero := by
  have exact := sweep_arithmetic .sender 110 65536 silentMachine (⟨by decide,by decide⟩ : IsInt 1048576)
    (⟨by decide,by decide,by decide,by decide,by decide⟩ : Admitted (toSize 1048576) (toSize 3) (toSize 65536))
  exact ⟨exact.1.mpr (by decide),(exact.2 4 1048576 ⟨by decide,by decide⟩ ⟨by decide,by decide⟩).mpr (by decide)⟩

-- The arguments -1, 1 and -1 pass the asserts, which read them as size_t: bufsize is then 2^64-1.
-- The stand-alone programs divide by an argument 0 in front of the assert that refuses it.
theorem sweep_shifts_out : Admitted (toSize (-1)) (toSize 1) (toSize (-1)) ∧
    (∀ role iters full machine, ¬ SweepExact role iters full machine (toSize (-1)) (toSize 1) (toSize (-1))) ∧
    standaloneSizes 0 1 = Run.fail .divideByZero :=
  ⟨⟨by decide,by decide,by decide,by decide,by decide⟩,fun _ _ _ _ exact => absurd exact.buffer.2 (by decide),rfl⟩

end MpidtBench.SweepArithmetic
