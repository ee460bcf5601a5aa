import MpidtBench.Proofs.Delivery

namespace MpidtBench.CmaOutcomes
open Traced CInteger ScatterGather ByteMemory MpidtBench CmaBatches Delivery

-- The ssize_t that process_vm_readv returns, as the size_t bytes_copied keeps it.
def stored (result : Int → Int → Int) (iovOff currBlks : Int) : Nat := toSize (result iovOff currBlks)

-- For a batch inside the list: -1, with nothing transferred, or at most all of its bytes.
def Outcomes (nblocks blocksize : Nat) (result : Int → Int → Int) : Prop :=
  ∀ first count : Nat, first + count ≤ nblocks → -1 ≤ result first count ∧ result first count ≤ ((count * blocksize : Nat) : Int)

def FullBatches (blocksize : Nat) (acts : List Act) : Prop := ∀ liov riov iovOff currBlks bytes,
  .processVmReadv liov riov iovOff currBlks bytes ∈ acts → bytes = currBlks.toNat * blocksize

-- The results of the first batches, added up without wrapping.
def summed (size : Nat) (result : Int → Int → Int) : Nat → Int
  | 0 => 0
  | passes+1 => summed size result passes + result ((passes * size : Nat) : Int) size

def outcomeActs (liov riov : List IoVec) (size : Nat) (result : Int → Int → Int) (passes : Nat) : List Act :=
  (List.range passes).map fun i => .processVmReadv liov riov ((i * size : Nat) : Int) size (stored result ((i * size : Nat) : Int) size)

def afterPasses (bufsize size : Nat) (result : Int → Int → Int) (passes : Nat) : CmaState :=
  ⟨((passes * size : Nat) : Int),toSize (bufsize - summed size result passes),toSize (summed size result passes)⟩

section
variable {nblocks blocksize size passes : Nat} {result : Int → Int → Int}

theorem batch_inside (tiles : passes * size = nblocks) (below : i < passes) : i * size + size ≤ nblocks := by
  rw [← tiles,← Nat.succ_mul]
  exact Nat.mul_le_mul_right _ below

theorem summed_bounds (outcomes : Outcomes nblocks blocksize result) (tiles : passes * size = nblocks) (below : i ≤ passes) :
    -(i : Int) ≤ summed size result i ∧ summed size result i ≤ ((i * (size * blocksize) : Nat) : Int) := by
  induction i with
  | zero => simp [summed]
  | succ i ih =>
      obtain ⟨low,high⟩ := ih (by omega)
      obtain ⟨least,most⟩ := outcomes (i * size) size (batch_inside tiles (by omega))
      simp only [summed]
      rw [Nat.succ_mul]
      omega

-- No shortfall of one batch is made up for by another.
theorem summed_full (outcomes : Outcomes nblocks blocksize result) (tiles : passes * size = nblocks) (below : i ≤ passes) :
    summed size result i = ((i * (size * blocksize) : Nat) : Int) ↔
      ∀ k < i, result ((k * size : Nat) : Int) size = ((size * blocksize : Nat) : Int) := by
  induction i with
  | zero => simp [summed]
  | succ i ih =>
      obtain ⟨_,high⟩ := summed_bounds outcomes tiles (show i ≤ passes by omega)
      obtain ⟨_,most⟩ := outcomes (i * size) size (batch_inside tiles (by omega))
      simp only [summed]
      rw [Nat.succ_mul]
      constructor
      · intro whole k low
        have front : summed size result i = ((i * (size * blocksize) : Nat) : Int) := by omega
        by_cases last : k = i
        · subst last
          omega
        · exact (ih (by omega)).mp front k (by omega)
      · intro full
        have front := (ih (by omega)).mpr fun k low => full k (by omega)
        have last := full i (Nat.lt_succ_self i)
        omega

theorem batch_bytes (tiles : passes * size = nblocks) (blocksize : Nat) : passes * (size * blocksize) = nblocks * blocksize := by
  rw [← Nat.mul_assoc,tiles]

-- Even an error in every batch stays far from the wrap point of a size_t.
theorem passes_small (bytes : 0 < blocksize) (small : nblocks * blocksize ≤ intMax) (tiles : passes * size = nblocks)
    (some_blocks : 0 < passes → 0 < size) : passes ≤ intMax := by
  rcases Nat.eq_zero_or_pos passes with rfl | some_pass
  · exact Nat.zero_le _
  · have blocks := Nat.le_mul_of_pos_right passes (some_blocks some_pass)
    have count := Nat.le_mul_of_pos_right nblocks bytes
    omega

theorem remaining_left (bytes : 0 < blocksize) (small : nblocks * blocksize ≤ intMax) (some_blocks : 0 < passes → 0 < size)
    (tiles : passes * size = nblocks) (outcomes : Outcomes nblocks blocksize result) (below : i < passes) :
    0 < (afterPasses (nblocks * blocksize) size result i).remaining := by
  have most := passes_small bytes small tiles some_blocks
  have whole := batch_bytes tiles blocksize
  obtain ⟨low,high⟩ := summed_bounds outcomes tiles (Nat.le_of_lt below)
  have batch : i * (size * blocksize) + size * blocksize ≤ nblocks * blocksize := by
    rw [← whole,← Nat.succ_mul]
    exact Nat.mul_le_mul_right _ below
  have some_bytes := Nat.mul_pos (some_blocks (by omega)) bytes
  apply Nat.pos_of_ne_zero
  intro none_left
  rw [afterPasses,toSize_zero] at none_left
  have near := Int.le_of_dvd (by omega) none_left
  simp only [sizeMod,intMax] at *
  omega

theorem outcome_step {more : Int → Bool} (liov riov : List IoVec) (bytes : 0 < blocksize) (small : nblocks * blocksize ≤ intMax)
    (some_blocks : 0 < passes → 0 < size) (tiles : passes * size = nblocks) (test : ∀ i : Nat, i ≤ nblocks → more i = decide (i < nblocks))
    (outcomes : Outcomes nblocks blocksize result) (below : i < passes) :
    cmaStep more size (stored result) liov riov (afterPasses (nblocks * blocksize) size result i) =
      ⟨[.processVmReadv liov riov ((i * size : Nat) : Int) size (stored result ((i * size : Nat) : Int) size)],
        .ok (.inl (afterPasses (nblocks * blocksize) size result (i+1)))⟩ := by
  have inside := batch_inside tiles below
  have going : more ((i * size : Nat) : Int) = true := by rw [test _ (by omega)]; simp; omega
  rw [cmaStep_more liov riov (show more (afterPasses (nblocks * blocksize) size result i).iovOff = true from going)
    (remaining_left bytes small some_blocks tiles outcomes below)]
  simp only [afterPasses,stored,summed,subSize_toSize,addSize_toSize,Nat.succ_mul]
  rw [Int.sub_sub]
  rfl

theorem outcome_visits {more : Int → Bool} (liov riov : List IoVec) (bytes : 0 < blocksize) (small : nblocks * blocksize ≤ intMax)
    (some_blocks : 0 < passes → 0 < size) (tiles : passes * size = nblocks) (test : ∀ i : Nat, i ≤ nblocks → more i = decide (i < nblocks))
    (outcomes : Outcomes nblocks blocksize result) (below : i ≤ passes) :
    Visits (cmaStep more size (stored result) liov riov) i (CmaState.start (nblocks * blocksize)) (outcomeActs liov riov size result i)
      (afterPasses (nblocks * blocksize) size result i) := by
  induction i with
  | zero =>
      have large := intMax_lt_sizeMod small
      have start : afterPasses (nblocks * blocksize) size result 0 = CmaState.start (nblocks * blocksize) := by
        simp only [afterPasses,summed,CmaState.start,Int.sub_zero,toSize_exact large,Nat.zero_mul]
        rfl
      rw [start]
      exact .enter
  | succ i ih =>
      have visit := (ih (by omega)).pass (outcome_step liov riov bytes small some_blocks tiles test outcomes below)
      simpa [outcomeActs,List.range_succ] using visit

theorem outcome_stop {more : Int → Bool} (liov riov : List IoVec) (tiles : passes * size = nblocks)
    (test : ∀ i : Nat, i ≤ nblocks → more i = decide (i < nblocks)) (bufsize : Nat) :
    cmaStep more size (stored result) liov riov (afterPasses bufsize size result passes) =
      ⟨[],.ok (.inr (afterPasses bufsize size result passes))⟩ := by
  apply cmaStep_stop
  right
  change more ((passes * size : Nat) : Int) = false
  rw [tiles,test _ (Nat.le_refl _)]
  simp

theorem full_iff (liov riov : List IoVec) (small : nblocks * blocksize ≤ intMax) (tiles : passes * size = nblocks)
    (outcomes : Outcomes nblocks blocksize result) : FullBatches blocksize (outcomeActs liov riov size result passes) ↔
      ∀ k < passes, result ((k * size : Nat) : Int) size = ((size * blocksize : Nat) : Int) := by
  constructor
  · intro full k below
    have inside := batch_inside tiles below
    obtain ⟨low,high⟩ := outcomes (k * size) size inside
    have part : size * blocksize ≤ nblocks * blocksize := Nat.mul_le_mul_right _ (by omega)
    have some_int : 1 ≤ intMax := by decide
    have kept : toSize (result ((k * size : Nat) : Int) size) = size * blocksize :=
      full _ _ _ _ _ (List.mem_map.mpr ⟨k,List.mem_range.mpr below,rfl⟩)
    exact (toSize_eq (by omega) (by omega) (by omega)).mp kept
  · intro full liov riov iovOff currBlks bytes member
    obtain ⟨k,listed,same⟩ := List.mem_map.mp member
    have below := List.mem_range.mp listed
    have inside := batch_inside tiles below
    have part : size * blocksize ≤ nblocks * blocksize := Nat.mul_le_mul_right _ (by omega)
    injection same with _ _ _ count kept
    rw [← kept,← count,stored,full k below,toSize_exact (by have large := intMax_lt_sizeMod small; omega)]
    rfl

theorem outcomes_full (liov riov : List IoVec) (small : size * blocksize < sizeMod)
    (full : ∀ k < passes, result ((k * size : Nat) : Int) size = ((size * blocksize : Nat) : Int)) :
    outcomeActs liov riov size result passes = batchActs liov riov size blocksize passes := by
  apply List.map_congr_left
  intro k listed
  rw [stored,full k (List.mem_range.mp listed),toSize_exact small]

end

-- What the loop of a receiver does, whatever the kernel answers.
structure CheckSound (nblocks blocksize lbuf source : Nat) (step : CmaState → Run Fault Act (CmaState ⊕ CmaState)) : Prop where
  ends : ∃ acts s, Ends step (CmaState.start (nblocks * blocksize)) acts s ∧
    (s.totalCopied = nblocks * blocksize ↔ FullBatches blocksize acts) ∧
    (FullBatches blocksize acts → ∀ (peer m : Memory) (k : Nat), k < nblocks * blocksize →
      effects peer acts m (lbuf+k) = peer (source+k))
  heads : ∀ k acts t, Visits step k (CmaState.start (nblocks * blocksize)) acts t →
    (t.totalCopied + t.remaining) % sizeMod = nblocks * blocksize % sizeMod ∧ (t.remaining = 0 → (nblocks : Int) ≤ t.iovOff)

section
variable {nblocks blocksize size passes : Nat} {result : Int → Int → Int} {more : Int → Bool}

theorem check_sound (bytes : 0 < blocksize) (small : nblocks * blocksize ≤ intMax) (some_blocks : 0 < passes → 0 < size)
    (tiles : passes * size = nblocks) (test : ∀ i : Nat, i ≤ nblocks → more i = decide (i < nblocks))
    (outcomes : Outcomes nblocks blocksize result) (lbuf source : Nat) :
    CheckSound nblocks blocksize lbuf source
      (cmaStep more size (stored result) (initIov lbuf nblocks blocksize) (initIov source nblocks blocksize)) := by
  have visits := fun i (below : i ≤ passes) => outcome_visits (initIov lbuf nblocks blocksize) (initIov source nblocks blocksize)
    bytes small some_blocks tiles test outcomes below
  have stop := @outcome_stop nblocks size passes result more (initIov lbuf nblocks blocksize) (initIov source nblocks blocksize) tiles
    test (nblocks * blocksize)
  have whole := batch_bytes tiles blocksize
  have full := full_iff (initIov lbuf nblocks blocksize) (initIov source nblocks blocksize) small tiles outcomes
  constructor
  · refine ⟨_,_,⟨_,_,_,_,visits passes (Nat.le_refl _),stop,rfl⟩,?_,?_⟩
    · obtain ⟨low,high⟩ := summed_bounds outcomes tiles (Nat.le_refl _)
      have most := passes_small bytes small tiles some_blocks
      have exact_sum := summed_full outcomes tiles (Nat.le_refl passes)
      rw [whole] at high exact_sum
      rw [List.append_nil,full,← exact_sum]
      exact toSize_eq (by omega) (by omega) small
    · intro complete peer m k inside
      rw [List.append_nil] at complete ⊢
      have nonempty : 0 < nblocks := Nat.pos_of_mul_pos_right (Nat.lt_of_le_of_lt (Nat.zero_le k) inside)
      have some_pass : 0 < passes := Nat.pos_of_mul_pos_right (tiles ▸ nonempty)
      have part : size * blocksize ≤ nblocks * blocksize := by
        rw [← whole]
        exact Nat.le_mul_of_pos_left _ some_pass
      rw [outcomes_full _ _ (intMax_lt_sizeMod (Nat.le_trans part small)) (full.mp complete)]
      exact batches_fetch bytes small (some_blocks some_pass) tiles lbuf source inside peer m
  · intro k acts t visit
    have below := (visits passes (Nat.le_refl _)).bounded (by simp [stop]) visit
    obtain ⟨_,rfl⟩ := visit.unique (visits k below)
    constructor
    · change addSize (toSize _) (toSize _) = _
      rw [addSize_toSize,Int.add_comm,Int.sub_add_cancel]
      rfl
    · intro finished
      rcases Nat.lt_or_eq_of_le below with earlier | rfl
      · exact absurd finished (Nat.ne_of_gt (remaining_left bytes small some_blocks tiles outcomes earlier))
      · exact Int.ofNat_le.mpr (Nat.le_of_eq tiles.symm)

theorem some_passes {limit : Nat} (positive : 1 ≤ limit) (batched : nblocks ≤ limit ∨ limit ∣ nblocks) :
    ∃ passes, passes * (if nblocks < limit then nblocks else limit) = nblocks ∧
      (0 < passes → 0 < if nblocks < limit then nblocks else limit) := by
  rcases Nat.eq_zero_or_pos nblocks with rfl | some_blocks
  · exact ⟨0,Nat.zero_mul _,nofun⟩
  · obtain ⟨passes,tiles⟩ := (batch_size_dvd limit nblocks positive).mpr batched
    refine ⟨passes,by rw [Nat.mul_comm]; exact tiles.symm,fun _ => ?_⟩
    split <;> omega

-- The loop inside benchmark_cma never runs out of the fuel the model gives it.
theorem iteration_run (liov riov : List IoVec) {limit : Int} (picked : (if (nblocks : Int) < limit then (nblocks : Int) else
      longToInt limit) = size) (bytes : 0 < blocksize) (small : nblocks * blocksize ≤ intMax) (some_blocks : 0 < passes → 0 < size)
    (tiles : passes * size = nblocks) (outcomes : Outcomes nblocks blocksize result) :
    cmaIteration .receiver limit (stored result) liov riov nblocks (nblocks * blocksize) =
      if toSize (summed size result passes) = nblocks * blocksize then
        ⟨.bcast .iov (iovecBytes nblocks) :: (outcomeActs liov riov size result passes ++ [.gather]),.ok ()⟩
      else ⟨.bcast .iov (iovecBytes nblocks) :: outcomeActs liov riov size result passes,.error .assertion⟩ := by
  have test : ∀ i : Nat, i ≤ nblocks → decide ((i : Int) < (nblocks : Int)) = decide (i < nblocks) := fun i _ => by simp
  have visit := @outcome_visits nblocks blocksize size passes result passes (fun iovOff => iovOff < (nblocks : Int)) liov riov bytes small
    some_blocks tiles test outcomes (Nat.le_refl _)
  have stop := @outcome_stop nblocks size passes result (fun iovOff => iovOff < (nblocks : Int)) liov riov tiles test (nblocks * blocksize)
  have fuelled : passes < cmaFuel nblocks := by
    simp only [cmaFuel,Int.toNat_natCast]
    rcases Nat.eq_zero_or_pos passes with rfl | some_pass
    · omega
    · have most := Nat.le_mul_of_pos_right passes (some_blocks some_pass)
      omega
  have ran := loop_ends visit stop fuelled Fault.unfinished
  rw [List.append_nil] at ran
  simp only [cmaIteration,if_true,benchStep,picked,ran]
  rw [Run.emit_chain,Run.ok_chain]
  by_cases complete : toSize (summed size result passes) = nblocks * blocksize
  · have checked : ((afterPasses (nblocks * blocksize) size result passes).totalCopied == nblocks * blocksize) = true :=
      beq_iff_eq.mpr complete
    rw [if_pos complete,checked]
    rfl
  · have checked : ((afterPasses (nblocks * blocksize) size result passes).totalCopied == nblocks * blocksize) = false :=
      beq_eq_false_iff_ne.mpr complete
    rw [if_neg complete,checked]
    change (⟨_ :: (_ ++ []),_⟩ : Run Fault Act Unit) = _
    rw [List.append_nil]
    rfl

theorem full_around {count : Int} {acts tail : List Act} (closing : ∀ act ∈ tail, act = .gather) :
    FullBatches blocksize (.bcast .iov count :: (acts ++ tail)) ↔ FullBatches blocksize acts := by
  constructor
  · exact fun full liov riov iovOff currBlks bytes member =>
      full liov riov iovOff currBlks bytes (List.mem_cons_of_mem _ (List.mem_append_left _ member))
  · intro full liov riov iovOff currBlks bytes member
    rcases List.mem_cons.mp member with first | later
    · cases first
    · rcases List.mem_append.mp later with batch | last
      · exact full liov riov iovOff currBlks bytes batch
      · cases closing _ last

end

-- benchmark_cma and cma_dt.c, and the assert behind the loop in an iteration of the former.
theorem cma_check_sound (limit nblocks blocksize : Nat) (positive : 1 ≤ limit) (long : limit < 9223372036854775808)
    (batched : nblocks ≤ limit ∨ limit ∣ nblocks) (bytes : 0 < blocksize) (small : nblocks * blocksize ≤ intMax)
    (result : Int → Int → Int) (outcomes : Outcomes nblocks blocksize result) (lbuf source : Nat) :
    CheckSound nblocks blocksize lbuf source
      (benchStep limit nblocks (stored result) (initIov lbuf nblocks blocksize) (initIov source nblocks blocksize)) ∧
    CheckSound nblocks blocksize lbuf source
      (cmaDtStep limit nblocks (stored result) (initIov lbuf nblocks blocksize) (initIov source nblocks blocksize)) ∧
    ∃ acts out, cmaIteration .receiver limit (stored result) (initIov lbuf nblocks blocksize) (initIov source nblocks blocksize)
        nblocks (nblocks * blocksize) = ⟨acts,out⟩ ∧
      (out = .ok () ∧ FullBatches blocksize acts ∨ out = .error .assertion ∧ ¬ FullBatches blocksize acts) := by
  have int_blocks : nblocks ≤ intMax := Nat.le_trans (Nat.le_mul_of_pos_right _ bytes) small
  have bench := bench_size limit int_blocks
  have standalone := dt_size limit long int_blocks
  obtain ⟨passes,tiles,some_blocks⟩ := some_passes positive batched
  generalize (if nblocks < limit then nblocks else limit) = size at bench standalone tiles some_blocks
  refine ⟨?_,?_,?_⟩
  · rw [benchStep,bench]
    exact check_sound bytes small some_blocks tiles (fun i _ => by simp) outcomes lbuf source
  · rw [cmaDtStep,standalone]
    refine check_sound bytes small some_blocks tiles (fun i low => ?_) outcomes lbuf source
    have large := intMax_lt_sizeMod int_blocks
    rw [toSize_exact (by omega)]
  · obtain ⟨low,high⟩ := summed_bounds outcomes tiles (Nat.le_refl _)
    have most := passes_small bytes small tiles some_blocks
    have exact_sum := summed_full outcomes tiles (Nat.le_refl passes)
    rw [batch_bytes tiles blocksize] at high exact_sum
    have complete := (toSize_eq (by omega) (by omega) small).trans exact_sum
    rw [← full_iff (initIov lbuf nblocks blocksize) (initIov source nblocks blocksize) small tiles outcomes] at complete
    rw [iteration_run _ _ bench bytes small some_blocks tiles outcomes]
    by_cases full : toSize (summed size result passes) = nblocks * blocksize
    · rw [if_pos full]
      refine ⟨_,_,rfl,.inl ⟨rfl,(full_around fun act last => ?_).mpr (complete.mp full)⟩⟩
      exact List.mem_singleton.mp last
    · rw [if_neg full]
      refine ⟨_,_,rfl,.inr ⟨rfl,fun whole => full (complete.mpr ?_)⟩⟩
      rw [← List.append_nil (outcomeActs _ _ _ _ _)] at whole
      exact (full_around fun _ member => absurd member List.not_mem_nil).mp whole

-- Four batches of 1024 blocks: the second call fails, the third moves half of its bytes.
theorem cma_check_sound_mixed : CheckSound 4096 4 65536 4096
    (benchStep 1024 4096 (stored fun iovOff currBlks => if iovOff = 1024 then -1 else if iovOff = 2048 then currBlks * 2 else
      currBlks * 4) (initIov 65536 4096 4) (initIov 4096 4096 4)) :=
  (cma_check_sound 1024 4096 4 (by decide) (by decide) (.inr (by decide)) (by decide) (by decide)
    (fun iovOff currBlks => if iovOff = 1024 then -1 else if iovOff = 2048 then currBlks * 2 else currBlks * 4) (by
    intro first count _
    dsimp only
    split
    · omega
    · split <;> omega) 65536 4096).1

end MpidtBench.CmaOutcomes
