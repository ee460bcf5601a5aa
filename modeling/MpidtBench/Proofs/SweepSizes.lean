import MpidtBench.Proofs.SweepArithmetic
import MpidtBench.Proofs.Delivery

namespace MpidtBench.SweepSizes
open Traced CInteger ScatterGather MpidtBench PlainCopy XpmemBounds SweepTrace SweepArithmetic Delivery

-- With the list main builds for a block size, the plain path moves the buffer: the byte counts
-- returned, the blocks, and the calls of benchmark_shmem with their asserts.
structure Transfers (lbuf shmemPtr bufsize blocksize : Nat) : Prop where
  sent : (copyToShmem shmemPtr (initIov lbuf (bufsize / blocksize) blocksize) blocksize bufsize).out = .ok (bufsize : Int)
  received : (copyFromShmem shmemPtr (initIov lbuf (bufsize / blocksize) blocksize) blocksize bufsize).out = .ok (bufsize : Int)
  blocks : ∀ k < bufsize, ∃! i : Nat, ∃ v : IoVec, (initIov lbuf (bufsize / blocksize) blocksize)[i]? = some v ∧ v.iovBase ≤ lbuf + k ∧
    lbuf + k < v.iovBase + v.iovLen
  asserts : ∀ role iters, (benchmarkShmem role iters shmemPtr lbuf (initIov lbuf (bufsize / blocksize) blocksize) bufsize
    blocksize).out = .ok ()

section
variable {lbuf shmemPtr bufsize blocksize minBs maxBs : Nat}

theorem shmem_ends {liov : List IoVec} (passes : ∀ role, (shmemIteration role shmemPtr liov bufsize blocksize).out = .ok ())
    (role : Role) (iters : Nat) : (benchmarkShmem role iters shmemPtr lbuf liov bufsize blocksize).out = .ok () := by
  obtain ⟨_,ended,_⟩ := @forRange_invariant Stamped Unit Fault iters () (fun _ _ _ => True)
    (fun i _ => (shmemIteration role shmemPtr liov bufsize blocksize).label (Prod.mk (some i)))
    (fun _ _ _ _ _ => ⟨(),passes role,trivial⟩) trivial
  rw [benchmarkShmem,initBuffer_run]
  change (Run.emit _ >>= fun _ => forRange _ _ _ >>= fun _ => Run.emit _).out = _
  rw [Run.emit_chain,Run.chain_ok ended]
  rfl

-- Byte `k` lies in block `k / blocksize` and in no other.
theorem byte_block (bytes : 0 < blocksize) (small : nblocks * blocksize < sizeMod) (inside : k < nblocks * blocksize) :
    ∃! i : Nat, ∃ v : IoVec, (initIov lbuf nblocks blocksize)[i]? = some v ∧ v.iovBase ≤ lbuf + k ∧ lbuf + k < v.iovBase + v.iovLen := by
  have place : ∀ i < nblocks, mulSize i blocksize = i * blocksize := fun i below =>
    mulSize_exact (Nat.lt_of_le_of_lt (Nat.mul_le_mul_right _ (Nat.le_of_lt below)) small)
  have index : k / blocksize < nblocks := (Nat.div_lt_iff_lt_mul bytes).mpr inside
  have parts := Nat.div_add_mod k blocksize
  have rest := Nat.mod_lt k bytes
  rw [Nat.mul_comm] at parts
  refine ⟨k / blocksize,⟨_,initIov_at index,?_,?_⟩,?_⟩
  · rw [place _ index]
    dsimp only
    omega
  · rw [place _ index]
    dsimp only
    omega
  · rintro i ⟨v,known,low,high⟩
    have below : i < nblocks := by
      have bound := (List.getElem?_eq_some_iff.mp known).1
      rwa [initIov_length] at bound
    rw [initIov_at below,place i below] at known
    cases known
    dsimp only at low high
    symm
    apply Nat.div_eq_of_lt_le
    · omega
    · rw [Nat.succ_mul]; omega

theorem transfers_iff (some_bytes : 0 < blocksize) (small : bufsize ≤ intMax) :
    Transfers lbuf shmemPtr bufsize blocksize ↔ blocksize ∣ bufsize := by
  have listed : (initIov lbuf (bufsize / blocksize) blocksize).length = bufsize / blocksize := initIov_length
  have size := initIov_total lbuf (bufsize / blocksize) blocksize
  have fits : total (initIov lbuf (bufsize / blocksize) blocksize) ≤ bufsize := by
    rw [size]
    exact Nat.div_mul_le_self _ _
  have ran := fun role => @copyShmem_run role shmemPtr _ blocksize bufsize listed fits small
  constructor
  · intro transfers
    have sent := transfers.sent
    have same := (congrArg Run.out (ran .sender)).symm.trans sent
    rw [size] at same
    injection same with same
    exact (Nat.dvd_iff_div_mul_eq _ _).mpr (Int.ofNat_inj.mp same)
  · intro divides
    have whole : total (initIov lbuf (bufsize / blocksize) blocksize) = bufsize := by rw [size,Nat.div_mul_cancel divides]
    have moved := fun role => congrArg Run.out (ran role)
    simp only [whole] at moved
    refine ⟨moved .sender,moved .receiver,?_,?_⟩
    · intro k inside
      have filled := Nat.div_mul_cancel divides
      exact byte_block some_bytes (by rw [filled]; exact intMax_lt_sizeMod small) (by rw [filled]; exact inside)
    · intro role iters
      exact shmem_ends (fun role => congrArg Run.out (shmemIteration_run role shmemPtr whole listed small)) role iters

-- The largest size the sweep reaches.
def largest (minBs maxBs : Nat) : Nat := minBs * 2 ^ Nat.log2 (maxBs / minBs)

theorem visited_le (nonzero : 0 < minBs) (ordered : minBs ≤ maxBs) : minBs * 2 ^ k ≤ maxBs ↔ k ≤ Nat.log2 (maxBs / minBs) := by
  have ratio : maxBs / minBs ≠ 0 := Nat.ne_of_gt (Nat.div_pos ordered nonzero)
  rw [Nat.le_log2 ratio,Nat.le_div_iff_mul_le nonzero,Nat.mul_comm]

-- A size that divides the buffer keeps doing so while it halves.
theorem divides_largest (nonzero : 0 < minBs) (ordered : minBs ≤ maxBs) :
    (∀ k, minBs * 2 ^ k ≤ maxBs → minBs * 2 ^ k ∣ bufsize) ↔ largest minBs maxBs ∣ bufsize := by
  constructor
  · exact fun divides => divides _ ((visited_le nonzero ordered).mpr (Nat.le_refl _))
  · intro whole k below
    have order := (visited_le nonzero ordered).mp below
    exact Nat.dvd_trans (Nat.mul_dvd_mul_left _ (Nat.pow_dvd_pow 2 order)) whole

end

theorem admitted_sizes {bufsize minBs maxBs : Nat} (admitted : Admitted bufsize minBs maxBs) (small : bufsize ≤ intMax) (lbuf shmemPtr : Nat) :
    (∀ step ∈ visited maxBs sweepFuel (0,minBs), Transfers lbuf shmemPtr bufsize step.2) ↔ largest minBs maxBs ∣ bufsize := by
  obtain ⟨_,ordered,inside,_,nonzero⟩ := admitted
  have ints : maxBs ≤ intMax := Nat.le_trans inside small
  rw [← divides_largest nonzero ordered]
  constructor
  · intro transfers k below
    have visit := (visited_iff ints nonzero (k,minBs * 2 ^ k)).mpr ⟨k,rfl,below⟩
    exact (transfers_iff (Nat.mul_pos nonzero (Nat.two_pow_pos k)) small).mp (transfers _ visit)
  · intro divides step member
    obtain ⟨k,rfl,below⟩ := (visited_iff ints nonzero step).mp member
    exact (transfers_iff (Nat.mul_pos nonzero (Nat.two_pow_pos k)) small).mpr (divides k below)

theorem admitted_sizes_megabyte : Transfers 4096 8388608 1048576 65536 :=
  (admitted_sizes (⟨by decide,by decide,by decide,by decide,by decide⟩ : Admitted 1048576 4 65536) (by decide) 4096 8388608).mpr (by decide)
    (14,65536) (by decide)

-- A buffer of 10 bytes in blocks of 4: the plain path moves 8.
theorem admitted_sizes_leave_tail : Admitted 10 4 4 ∧ ¬ ∀ step ∈ visited 4 sweepFuel (0,4), Transfers 64 128 10 step.2 := by
  refine ⟨⟨by decide,by decide,by decide,by decide,by decide⟩,fun transfers => ?_⟩
  have sent := (transfers (0,4) (by decide)).sent
  revert sent
  decide

end MpidtBench.SweepSizes
