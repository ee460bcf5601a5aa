import MpidtBench.Proofs.PipelineDomain

namespace MpidtBench.PipelineBounds
open Traced CInteger ScatterGather ByteMemory MpidtBench PipelineLoops PipelineDomain

def passLen (v : IoVec) (s : PipState) : Nat :=
  if subSize v.iovLen (toSize s.iovOff) ≤ s.capacity then subSize v.iovLen (toSize s.iovOff) else s.capacity

-- What makes one pass safe: the entry read exists, neither subtraction wraps, and the
-- bytes copied lie in that entry's block and in the first `bufsize` bytes of the region.
structure PassSafe (bufsize : Nat) (liov : List IoVec) (niov : Int) (s : PipState) : Prop where
  index : 0 ≤ s.iovcnt ∧ s.iovcnt < niov
  block : ∃ v, liov[s.iovcnt.toNat]? = some v ∧ 0 ≤ s.iovOff ∧ s.iovOff ≤ v.iovLen ∧
    passLen v s ≤ s.capacity ∧ s.iovOff + passLen v s ≤ v.iovLen
  region : ∃ v, liov[s.iovcnt.toNat]? = some v ∧ 0 ≤ s.shmOff ∧ s.shmOff + passLen v s ≤ bufsize

-- A loop of benchmark_shmem_pip is safe from start to end, and both asserts hold there.
def LoopSafe (bufsize full : Nat) (liov : List IoVec) (niov : Int)
    (step : PipState → Run Fault Act (PipState ⊕ PipState)) : Prop :=
  (∀ k acts s, Visits step k (PipState.start full) acts s → s.head = .inner → 0 < s.capacity →
    PassSafe bufsize liov niov s) ∧
  ∃ acts s, Ends step (PipState.start full) acts s ∧ s.iovcnt = niov ∧ s.nread = bufsize

-- At the outer head whole chunks are done; inside, what is left of the chunk is there.
structure Aligned (full : Nat) (liov : List IoVec) (s : PipState) : Prop where
  tracks : ∃ blocks moved, Tracks liov s blocks moved ∧ match s.head with
    | .outer => full ∣ moved
    | .inner => full ∣ moved + s.capacity ∧ s.capacity ≤ total blocks
  room : s.capacity < sizeMod

section
variable {role : Role} {ptr full : Nat} {liov : List IoVec} {s t : PipState}

theorem pass_tracks (positive : Positive liov) (small : total liov ≤ intMax) (sized : s.capacity < sizeMod)
    (tracks : Tracks liov s (w :: rest) moved) (passed : pipPass (chunkCopy role ptr) liov s = ⟨acts,.ok t⟩) :
    ∃ blocks len, acts = (copies role ptr moved [⟨w.iovBase,len⟩]).map ofCopy ∧ Tracks liov t blocks (moved + len) ∧
      t.capacity + len = s.capacity ∧ len + total blocks = total (w :: rest) ∧ t.head = s.head := by
  by_cases fits : w.iovLen ≤ s.capacity
  · obtain ⟨u,same,next,left,head⟩ := @pass_whole role ptr _ _ _ _ _ positive small sized tracks fits
    rw [same] at passed
    cases passed
    exact ⟨rest,w.iovLen,rfl,next,by omega,by rw [total_cons],head⟩
  · obtain ⟨u,same,next,left,head⟩ := @pass_part role ptr _ _ _ _ _ small tracks (by omega)
    rw [same] at passed
    cases passed
    exact ⟨_,s.capacity,rfl,next,by omega,by simp only [total_cons]; omega,head⟩

theorem pass_aligned (positive : Positive liov) (small : total liov ≤ intMax) (aligned : Aligned full liov s)
    (inner : s.head = .inner) (room : 0 < s.capacity)
    (passed : pipPass (chunkCopy role ptr) liov s = ⟨acts,.ok t⟩) : Aligned full liov t := by
  obtain ⟨⟨blocks,moved,tracks,chunk⟩,sized⟩ := aligned
  rw [inner] at chunk
  obtain ⟨divides,enough⟩ := chunk
  cases blocks with
  | nil => simp only [total_nil] at enough; omega
  | cons w rest =>
      obtain ⟨left,len,_,next,capacity,sum,head⟩ := pass_tracks positive small sized tracks passed
      refine ⟨⟨left,_,next,?_⟩,by omega⟩
      rw [head,inner]
      exact ⟨by rwa [show moved + len + t.capacity = moved + s.capacity by omega],by omega⟩

theorem step_aligned (positive : Positive liov) (small : total liov ≤ intMax) (sized : full < sizeMod)
    (divides : full ∣ total liov) (aligned : Aligned full liov s)
    (stepped : pipStep role (chunkCopy role ptr) full liov liov.length s = ⟨acts,.ok (.inl t)⟩) :
    Aligned full liov t := by
  rcases step_cases stepped with ⟨outer,more,_,rfl⟩ | ⟨inner,filled,_,rfl⟩ | ⟨inner,room,passed⟩
  · obtain ⟨⟨blocks,moved,tracks,whole⟩,_⟩ := aligned
    rw [outer] at whole
    have left : blocks ≠ [] := (tracks_more tracks).mp more
    have rest : full ∣ total blocks := by
      have sum := tracks.sum
      rwa [← sum,Nat.dvd_add_right whole] at divides
    have some_left : 0 < total blocks := by
      cases blocks with
      | nil => exact absurd rfl left
      | cons w others =>
          obtain ⟨_,_,_,i,off,_,_,choice⟩ := tracks
          rcases choice with ⟨empty,_,_⟩ | ⟨v,_,inside,equal⟩
          · cases empty
          · injection equal with front _
            simp only [total_cons,front]; omega
    exact ⟨⟨blocks,moved,tracks_frame tracks _ _,(Nat.dvd_add_left (Nat.dvd_refl _)).mpr whole,
      Nat.le_of_dvd some_left rest⟩,sized⟩
  · obtain ⟨⟨blocks,moved,tracks,chunk⟩,room⟩ := aligned
    rw [inner] at chunk
    refine ⟨⟨blocks,moved,tracks_frame tracks s.capacity .outer,?_⟩,room⟩
    simpa [filled] using chunk.1
  · exact pass_aligned positive small aligned inner room passed

theorem start_aligned (positive : Positive liov) (sized : full < sizeMod) : Aligned full liov (PipState.start full) :=
  ⟨⟨liov,0,start_tracks positive,Nat.dvd_zero _⟩,sized⟩

theorem aligned_safe (small : total liov ≤ intMax) (aligned : Aligned full liov s)
    (inner : s.head = .inner) (room : 0 < s.capacity) : PassSafe (total liov) liov liov.length s := by
  obtain ⟨⟨blocks,moved,⟨shm,_,sum,i,off,count,offset,choice⟩,chunk⟩,_⟩ := aligned
  rw [inner] at chunk
  obtain ⟨_,enough⟩ := chunk
  rcases choice with ⟨rfl,_,_⟩ | ⟨v,known,inside,rfl⟩
  · simp only [total_nil] at enough; omega
  have bound : i < liov.length := (List.getElem?_eq_some_iff.mp known).1
  have lens := member_le_total (List.mem_of_getElem? known)
  have large := intMax_lt_sizeMod small
  simp only [total_cons] at sum
  have length : subSize v.iovLen (toSize s.iovOff) = v.iovLen - off := by
    rw [offset,toSize_exact (by omega),subSize_exact (by omega) (by omega)]
  have len : passLen v s ≤ s.capacity ∧ passLen v s ≤ v.iovLen - off := by
    rw [passLen,length]; split <;> omega
  have entry : liov[s.iovcnt.toNat]? = some v := by rw [count]; exact known
  exact ⟨by omega,⟨v,entry,by omega,by omega,len.1,by omega⟩,⟨v,entry,by omega,by omega⟩⟩

theorem loop_safe (positive : Positive liov) (small : total liov ≤ intMax) (nonzero : 0 < full) (sized : full < sizeMod) :
    LoopSafe (total liov) full liov liov.length (pipStep role (chunkCopy role ptr) full liov liov.length) ↔
      full ∣ total liov := by
  constructor
  · intro given
    obtain ⟨safe,_⟩ := given
    apply Classical.byContradiction
    intro indivisible
    obtain ⟨k,t,visit,_,_,inner,count,_,_,room⟩ := @loops_break role ptr full liov positive small sized nonzero indivisible
    have index := (safe k _ t visit inner room).index
    omega
  · intro divides
    refine ⟨fun k acts s visit inner room => ?_,?_⟩
    · exact aligned_safe small (visit.invariant (fun _ s => Aligned full liov s)
        (fun _ _ _ _ holds stepped => step_aligned positive small sized divides holds stepped)
        (start_aligned positive sized)) inner room
    · obtain ⟨s,ended,done⟩ := complete_run positive small nonzero sized divides role ptr
      exact ⟨_,s,ended,done.cursor,done.nread⟩

end

-- The loops as bench.c's main enters them: the uniform list it builds, the depth of util.h.
theorem pipelined_loops_in_bounds (bufsize blocksize : Nat) (nonzero : 0 < blocksize) (small : bufsize ≤ intMax)
    (divides : blocksize ∣ bufsize) (sendBuf recvBuf sendPtr recvPtr : Nat) :
    let niov := toInt (bufsize / blocksize)
    let sent := initIov sendBuf (bufsize / blocksize) blocksize
    let received := initIov recvBuf (bufsize / blocksize) blocksize
    (LoopSafe bufsize shmemPipelineDepth sent niov (senderStep sendPtr shmemPipelineDepth sent niov) ∧
      LoopSafe bufsize shmemPipelineDepth received niov (receiverStep recvPtr shmemPipelineDepth received niov)) ↔
    shmemPipelineDepth ∣ bufsize := by
  intro niov sent received
  have count : ∀ buf, ((initIov buf (bufsize / blocksize) blocksize).length : Int) = niov := fun buf => by
    rw [initIov_length]; exact (nblocks_exact bufsize blocksize small).symm
  have whole : ∀ buf, total (initIov buf (bufsize / blocksize) blocksize) = bufsize := fun buf => by
    rw [initIov_total,Nat.div_mul_cancel divides]
  have left := @loop_safe .sender sendPtr shmemPipelineDepth sent (initIov_positive nonzero)
    (by rw [whole]; exact small) (by decide) (by decide)
  have right := @loop_safe .receiver recvPtr shmemPipelineDepth received (initIov_positive nonzero)
    (by rw [whole]; exact small) (by decide) (by decide)
  rw [whole,count] at left right
  exact ⟨fun safe => left.mp safe.1,fun divisible => ⟨left.mpr divisible,right.mpr divisible⟩⟩

theorem pipelined_loops_in_bounds_one_chunk :
    LoopSafe 65536 shmemPipelineDepth (initIov 4096 16384 4) 16384
        (senderStep 1048576 shmemPipelineDepth (initIov 4096 16384 4) 16384) ∧
      LoopSafe 65536 shmemPipelineDepth (initIov 8192 16384 4) 16384
        (receiverStep 2097152 shmemPipelineDepth (initIov 8192 16384 4) 16384) :=
  (pipelined_loops_in_bounds 65536 4 (by decide) (by decide) (by decide) 4096 8192 1048576 2097152).mpr (by decide)

-- A buffer of 4096 bytes, less than one chunk, in blocks of 4.
theorem pipelined_loops_out_of_bounds :
    ¬ (LoopSafe 4096 shmemPipelineDepth (initIov 4096 1024 4) 1024
        (senderStep 1048576 shmemPipelineDepth (initIov 4096 1024 4) 1024) ∧
      LoopSafe 4096 shmemPipelineDepth (initIov 8192 1024 4) 1024
        (receiverStep 2097152 shmemPipelineDepth (initIov 8192 1024 4) 1024)) := by
  intro given
  obtain ⟨safe,_⟩ := given
  have whole : total (initIov 4096 1024 4) = 4096 := initIov_total 4096 1024 4
  have count : ((initIov 4096 1024 4).length : Int) = 1024 := by rw [initIov_length]; rfl
  have exact_domain := @loop_safe .sender 1048576 shmemPipelineDepth (initIov 4096 1024 4) (initIov_positive (by decide))
    (by rw [whole]; decide) (by decide) (by decide)
  rw [whole,count] at exact_domain
  exact absurd (exact_domain.mp safe) (by decide)

end MpidtBench.PipelineBounds
