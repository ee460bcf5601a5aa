import MpidtBench.Library.Pages
import MpidtBench.Proofs.CmaBatches

namespace MpidtBench.CmaLoops
open Traced CInteger ScatterGather Tiling Pages MpidtBench CmaBatches

section
variable {more other : Int → Bool} {size : Int} {readv : Int → Int → Nat} {liov riov : List IoVec} {s t : CmaState}

theorem cmaStep_inl {acts : List Act} (stepped : cmaStep more size readv liov riov s = ⟨acts,.ok (.inl t)⟩) :
    0 < s.remaining ∧ more s.iovOff = true ∧ t.iovOff = s.iovOff + size := by
  unfold cmaStep at stepped
  split at stepped
  · rename_i going
    cases stepped
    exact ⟨going.1,going.2,rfl⟩
  · cases stepped

theorem cmaStep_congr (same : more s.iovOff = other s.iovOff) :
    cmaStep more size readv liov riov s = cmaStep other size readv liov riov s := by
  unfold cmaStep
  rw [same]

end
section
variable {more : Int → Bool} {nblocks size passes blocksize : Nat} {readv : Int → Int → Nat} {liov riov : List IoVec} {s t : CmaState}

def batchCount (nblocks size : Nat) : Nat := (nblocks + (size - 1)) / size

theorem batchCount_more (some_blocks : 0 < size) (i : Nat) : i * size < nblocks ↔ i < batchCount nblocks size := by
  have bound := @Nat.le_div_iff_mul_le size (i+1) (nblocks + (size - 1)) some_blocks
  rw [Nat.succ_mul] at bound
  constructor
  · exact fun low => bound.mpr (by omega)
  · intro low
    have reach := bound.mp low
    omega

-- Wherever the loop is, it is as many batches in as it made passes.
theorem heads (test : ∀ i ≤ passes, more ((i * size : Nat) : Int) = decide (i < passes))
    (visit : Visits (cmaStep more size readv liov riov) k (CmaState.start bufsize) acts t) :
    k ≤ passes ∧ t.iovOff = ((k * size : Nat) : Int) := by
  generalize entered : CmaState.start bufsize = s at visit
  induction visit with
  | enter => subst entered; exact ⟨Nat.zero_le _,by simp [CmaState.start]⟩
  | pass _ stepped ih =>
      obtain ⟨below,here⟩ := ih entered
      obtain ⟨_,going,next⟩ := cmaStep_inl stepped
      rw [here,test _ below] at going
      refine ⟨of_decide_eq_true going,?_⟩
      rw [next,here,Nat.succ_mul]
      rfl

theorem ends_from (test : ∀ i ≤ passes, more ((i * size : Nat) : Int) = decide (i < passes)) (left : i + count = passes)
    (here : s.iovOff = ((i * size : Nat) : Int)) : ∃ acts t, Ends (cmaStep more size readv liov riov) s acts t := by
  induction count generalizing i s with
  | zero =>
      have past : more s.iovOff = false := by
        rw [here,test i (by omega)]
        simp only [decide_eq_false_iff_not]; omega
      exact ⟨_,_,0,[],s,[],.enter,cmaStep_stop liov riov (.inr past),rfl⟩
  | succ count ih =>
      by_cases going : 0 < s.remaining
      · have again : more s.iovOff = true := by
          rw [here,test i (by omega)]
          simp only [decide_eq_true_eq]; omega
        have next : s.iovOff + size = (((i+1) * size : Nat) : Int) := by rw [here,Nat.succ_mul]; rfl
        obtain ⟨acts,t,ended⟩ := ih (s := ⟨s.iovOff + size,_,_⟩) (show i + 1 + count = passes by omega) next
        exact ⟨_,t,ended.after (cmaStep_more liov riov again going)⟩
      · exact ⟨_,_,0,[],s,[],.enter,cmaStep_stop liov riov (.inl (by omega)),rfl⟩

-- A kernel that transfers nothing lets the loop go on to the end.
theorem idle_visits (liov riov : List IoVec) (test : ∀ i ≤ passes, more ((i * size : Nat) : Int) = decide (i < passes))
    (some_bytes : 0 < bufsize) (sized : bufsize < sizeMod) (below : i ≤ passes) :
    ∃ acts, Visits (cmaStep more size (fun _ _ => 0) liov riov) i (CmaState.start bufsize) acts ⟨((i * size : Nat) : Int),bufsize,0⟩ := by
  induction i with
  | zero => exact ⟨[],by simpa [CmaState.start] using Visits.enter⟩
  | succ i ih =>
      obtain ⟨acts,visit⟩ := ih (by omega)
      have again : more ((i * size : Nat) : Int) = true := by
        rw [test i (by omega)]
        simp only [decide_eq_true_eq]; omega
      have stepped : cmaStep more size (fun _ _ => 0) liov riov ⟨((i * size : Nat) : Int),bufsize,0⟩ =
          ⟨[.processVmReadv liov riov ((i * size : Nat) : Int) size 0],.ok (.inl ⟨(((i+1) * size : Nat) : Int),bufsize,0⟩)⟩ := by
        rw [cmaStep_more liov riov again some_bytes,subSize_exact (Nat.zero_le _) sized,Nat.succ_mul]
        rfl
      exact ⟨_,visit.pass stepped⟩

end

-- The two copies of the loop on one list and one sequence of results: every sum
-- `iov_off + curr_blks` is an int, both end, with the same batches and the same verdict.
structure Agree (limit : Int) (nblocks blocksize : Nat) (readv : Int → Int → Nat) (liov riov : List IoVec) : Prop where
  benchInts : ∀ k acts t, Visits (benchStep limit nblocks readv liov riov) k (CmaState.start (nblocks * blocksize)) acts t →
    IsInt t.iovOff
  dtInts : ∀ k acts t, Visits (cmaDtStep limit nblocks readv liov riov) k (CmaState.start (nblocks * blocksize)) acts t →
    IsInt t.iovOff
  ends : ∃ benchActs dtActs s t, Ends (benchStep limit nblocks readv liov riov) (CmaState.start (nblocks * blocksize)) benchActs s ∧
    Ends (cmaDtStep limit nblocks readv liov riov) (CmaState.start (nblocks * blocksize)) dtActs t ∧
    batches benchActs = batches dtActs ∧ (s.totalCopied = nblocks * blocksize ↔ t.totalCopied = nblocks * blocksize)

section
variable {limit nblocks blocksize : Nat}

theorem min_size (nblocks limit : Nat) : (if nblocks < limit then nblocks else limit) = min nblocks limit := by
  split <;> omega

theorem bench_test (some_size : 0 < size) : ∀ i ≤ batchCount nblocks size,
    decide (((i * size : Nat) : Int) < (nblocks : Int)) = decide (i < batchCount nblocks size) := by
  intro i _
  rw [decide_eq_decide,← batchCount_more some_size]
  omega

theorem dt_test (some_size : 0 < size) (most : size ≤ nblocks) (int_blocks : nblocks ≤ intMax) : ∀ i ≤ batchCount nblocks size,
    decide (toSize ((i * size : Nat) : Int) < nblocks) = decide (i < batchCount nblocks size) := by
  intro i below
  have reach : i * size ≤ batchCount nblocks size * size := Nat.mul_le_mul_right _ below
  have rounded : batchCount nblocks size * size ≤ nblocks + (size - 1) := Nat.div_mul_le_self _ _
  rw [toSize_exact (by simp only [sizeMod,intMax] at *; omega),decide_eq_decide,← batchCount_more some_size]

theorem agree_positive (positive : 1 ≤ limit) (long : limit < 9223372036854775808) (some_blocks : 1 ≤ nblocks)
    (int_blocks : nblocks ≤ intMax) (rounded : covered (min nblocks limit) nblocks ≤ intMax) (readv : Int → Int → Nat)
    (liov riov : List IoVec) : Agree limit nblocks blocksize readv liov riov := by
  have bench := bench_size limit int_blocks
  have standalone := dt_size limit long int_blocks
  rw [min_size] at bench standalone
  have some_size : 0 < min nblocks limit := by omega
  have most : min nblocks limit ≤ nblocks := Nat.min_le_left _ _
  generalize min nblocks limit = size at bench standalone some_size most rounded
  have signed := @bench_test nblocks size some_size
  have unsigned := dt_test some_size most int_blocks
  have ints : ∀ k ≤ batchCount nblocks size, IsInt ((k * size : Nat) : Int) := by
    intro k below
    have reach : k * size ≤ covered size nblocks := Nat.mul_le_mul_right _ below
    simp only [IsInt]
    omega
  have benchLoop : benchStep limit nblocks readv liov riov =
      cmaStep (fun iovOff => decide (iovOff < (nblocks : Int))) size readv liov riov := by rw [benchStep,bench]
  have dtLoop : cmaDtStep limit nblocks readv liov riov =
      cmaStep (fun iovOff => decide (toSize iovOff < nblocks)) size readv liov riov := by rw [cmaDtStep,standalone]
  constructor
  · intro k acts t visit
    rw [benchLoop] at visit
    obtain ⟨below,here⟩ := heads signed visit
    exact here ▸ ints k below
  · intro k acts t visit
    rw [dtLoop] at visit
    obtain ⟨below,here⟩ := heads unsigned visit
    exact here ▸ ints k below
  · rw [benchLoop,dtLoop]
    obtain ⟨acts,s,ended⟩ := @ends_from (fun iovOff => decide (iovOff < (nblocks : Int))) size (batchCount nblocks size) readv
      liov riov (CmaState.start (nblocks * blocksize)) 0 _ signed (Nat.zero_add _) (by simp [CmaState.start])
    refine ⟨acts,acts,s,s,ended,ended.same fun k _ t visit => ?_,rfl,Iff.rfl⟩
    obtain ⟨below,here⟩ := heads signed visit
    apply cmaStep_congr
    rw [here,signed k below,unsigned k below]

-- Rounding up past INT_MAX, the int sum overflows once the kernel transfers too little.
theorem disagree_overflow (positive : 1 ≤ limit) (some_blocks : 1 ≤ nblocks) (int_blocks : nblocks ≤ intMax)
    (bytes : 0 < blocksize) (small : nblocks * blocksize ≤ intMax) (rounded : intMax < covered (min nblocks limit) nblocks)
    (liov riov : List IoVec) : ¬ Agree limit nblocks blocksize (fun _ _ => 0) liov riov := by
  have bench := bench_size limit int_blocks
  rw [min_size] at bench
  have some_size : 0 < min nblocks limit := by omega
  generalize min nblocks limit = size at bench some_size rounded
  intro agree
  obtain ⟨acts,visit⟩ := @idle_visits (fun iovOff => decide (iovOff < (nblocks : Int))) size (batchCount nblocks size) _ _ liov riov
    (@bench_test nblocks size some_size) (Nat.mul_pos some_blocks bytes) (intMax_lt_sizeMod small) (Nat.le_refl _)
  have ints := agree.benchInts _ _ _ (by rw [benchStep,bench]; exact visit)
  have bound : ((covered size nblocks : Nat) : Int) ≤ intMax := ints.2
  omega

-- Without a definite limit benchmark_cma asks for -1 entries, cma_dt.c for all.
theorem disagree_indefinite (some_blocks : 1 ≤ nblocks) (int_blocks : nblocks ≤ intMax) (bytes : 0 < blocksize)
    (readv : Int → Int → Nat) (liov riov : List IoVec) : ¬ Agree (-1) nblocks blocksize readv liov riov := by
  intro agree
  obtain ⟨_,_,_,_,bench,standalone,same,_⟩ := agree.ends
  have left : 0 < (CmaState.start (nblocks * blocksize)).remaining := Nat.mul_pos some_blocks bytes
  have large := intMax_lt_sizeMod int_blocks
  have signed : (if (nblocks : Int) < -1 then (nblocks : Int) else longToInt (-1)) = -1 := by
    rw [if_neg (by omega)]
    rfl
  have unsigned : (if nblocks < toSize (-1) then toInt nblocks else longToInt (-1)) = nblocks := by
    have whole : toSize (-1) = sizeMod - 1 := rfl
    rw [whole,if_pos (by simp only [sizeMod,intMax] at *; omega),toInt_exact int_blocks]
  rw [benchStep,signed] at bench
  rw [cmaDtStep,unsigned] at standalone
  have benchFirst : decide ((0 : Int) < (nblocks : Int)) = true := by simp only [decide_eq_true_eq]; omega
  have dtFirst : decide (toSize 0 < nblocks) = true := decide_eq_true some_blocks
  obtain ⟨_,rfl⟩ := bench.front (cmaStep_more liov riov benchFirst left)
  obtain ⟨_,rfl⟩ := standalone.front (cmaStep_more liov riov dtFirst left)
  have first := congrArg List.head? same
  simp [batches] at first

end

-- Both values sysconf(_SC_IOV_MAX) can have: -1, or a positive limit that a long holds.
theorem cma_loops_agree (limit : Int) (posix : limit = -1 ∨ 1 ≤ limit) (long : limit < 9223372036854775808) (nblocks blocksize : Nat)
    (some_blocks : 1 ≤ nblocks) (bytes : 0 < blocksize) (small : nblocks * blocksize ≤ intMax) (liov riov : List IoVec) :
    (∀ readv, Agree limit nblocks blocksize readv liov riov) ↔
      1 ≤ limit ∧ covered (min nblocks limit.toNat) nblocks ≤ intMax := by
  have int_blocks : nblocks ≤ intMax := Nat.le_trans (Nat.le_mul_of_pos_right _ bytes) small
  rcases posix with rfl | positive
  · constructor
    · exact fun agree => absurd (agree fun _ _ => 0) (disagree_indefinite some_blocks int_blocks bytes _ liov riov)
    · intro given
      omega
  · obtain ⟨count,rfl⟩ : ∃ count : Nat, limit = count := ⟨limit.toNat,by omega⟩
    rw [Int.toNat_natCast]
    constructor
    · intro agree
      refine ⟨positive,Nat.le_of_not_lt fun rounded => ?_⟩
      exact disagree_overflow (by omega) some_blocks int_blocks bytes small rounded liov riov (agree fun _ _ => 0)
    · intro given readv
      exact agree_positive (by omega) (by omega) some_blocks int_blocks given.2 readv liov riov

-- The kernel refuses the second of three batches.
theorem cma_loops_agree_three_batches : Agree 1024 2500 4 (fun iovOff currBlks => if iovOff = 1024 then sizeMod - 1 else 4 * currBlks.toNat)
    (initIov 65536 2500 4) (initIov 4096 2500 4) :=
  (cma_loops_agree 1024 (.inr (by decide)) (by decide) 2500 4 (by decide) (by decide) (by decide) (initIov 65536 2500 4)
    (initIov 4096 2500 4)).mpr ⟨by decide,by decide⟩ _

-- A kernel that refuses the batch of -1 entries and serves the one of 4.
theorem cma_loops_disagree : ¬ Agree (-1) 4 1024 (fun _ currBlks => if currBlks = 4 then 4096 else sizeMod - 1) (initIov 65536 4 1024)
    (initIov 4096 4 1024) :=
  disagree_indefinite (by decide) (by decide) (by decide) _ _ _

end MpidtBench.CmaLoops
