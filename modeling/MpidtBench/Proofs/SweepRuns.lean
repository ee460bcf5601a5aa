import MpidtBench.Model.Main
import MpidtBench.Proofs.Delivery
import MpidtBench.Proofs.XpmemLive

namespace MpidtBench.SweepRuns
open Traced CInteger ScatterGather ByteMemory MpidtBench PipelineDomain PipelineProtocol CmaBatches XpmemLoops XpmemMapped XpmemBounds
  XpmemLive Delivery

def stampBlocks (iters : Nat) (blocks : Nat → List Act) : List Stamped :=
  (List.range iters).flatMap fun j => (blocks j).map (Prod.mk (some j))

-- What stands around the loop: the memset and calls that move no data.
structure Framed (place : Place) (opening closing : List Stamped) : Prop where
  outside : ∀ event ∈ opening ++ closing, event.1 = none ∧ InBounds place event.2 ∧ isCopy event.2 = false
  fills : ∀ peer m, effects peer ((opening ++ closing).map Prod.snd) m = fill m place.lbuf (initByte place.role) place.bufsize

-- A complete run of a benchmark: every iteration does its part and reads what is attached.
structure Carried (place : Place) (iters : Nat) (region : Bool) (run : Run Fault Stamped Unit) : Prop where
  ended : run.out = .ok ()
  rounds : ∃ blocks opening closing, run.acts = opening ++ (stampBlocks iters blocks ++ closing) ∧
    Framed place opening closing ∧ ∀ j < iters, Serves place region (blocks j)
  live : ∀ live, CopiesLive live (run.acts.map Prod.snd)

section
variable {place : Place} {nblocks blocksize iters : Nat}

theorem loop_blocks {iteration : Nat → Run Fault Act Unit} {blocks : Nat → List Act}
    (ran : ∀ j < iters, iteration j = ⟨blocks j,.ok ()⟩) :
    forRange iters (fun j _ => (iteration j).label (Prod.mk (some j))) () = ⟨stampBlocks iters blocks,.ok ()⟩ := by
  refine forRange_exact (fun j => (blocks j).map (Prod.mk (some j))) (fun _ => ()) fun j below => ?_
  rw [ran j below]
  rfl

-- A loop with a state: what its invariant gives for every pass.
theorem stamped_rounds {body : Nat → σ → Run Fault Act σ} {start : σ} (invariant : Nat → σ → Prop) (property : Nat → List Act → Prop)
    (each : ∀ j s, j < iters → invariant j s → ∃ t, (body j s).out = .ok t ∧ invariant (j+1) t ∧ property j (body j s).acts)
    (initial : invariant 0 start) : ∃ s blocks, forRange iters (fun j s => (body j s).label (Prod.mk (some j))) start =
      ⟨stampBlocks iters blocks,.ok s⟩ ∧ invariant iters s ∧ ∀ j < iters, property j (blocks j) := by
  obtain ⟨s,lists,ran,held,passes⟩ := @forRange_rounds σ Stamped Fault iters start invariant
    (fun j list => ∃ block : List Act, list = block.map (Prod.mk (some j)) ∧ property j block)
    (fun j s => (body j s).label (Prod.mk (some j))) (by
      intro j s below given
      obtain ⟨t,ended,next,holds⟩ := each j s below given
      exact ⟨t,ended,next,_,rfl,holds⟩) initial
  choose! blocks same holds using passes
  refine ⟨s,blocks,ran.trans ?_,held,holds⟩
  rw [stampBlocks,List.flatMap_congr fun j member => same j (List.mem_range.mp member)]

theorem stampBlocks_mem {blocks : Nat → List Act} {event : Stamped} (member : event ∈ stampBlocks iters blocks) :
    ∃ j < iters, event.1 = some j ∧ event.2 ∈ blocks j := by
  obtain ⟨j,listed,stamped⟩ := List.mem_flatMap.mp member
  obtain ⟨act,issued,rfl⟩ := List.mem_map.mp stamped
  exact ⟨j,List.mem_range.mp listed,rfl,issued⟩

-- Runs that copy through no attachment.
theorem calm_carried {run : Run Fault Stamped Unit} {region : Bool} {blocks : Nat → List Act} {opening closing : List Stamped}
    (ran : run = ⟨opening ++ (stampBlocks iters blocks ++ closing),.ok ()⟩) (framed : Framed place opening closing)
    (serves : ∀ j < iters, Serves place region (blocks j)) (calm : ∀ j < iters, ∀ act ∈ blocks j, isCopy act = false) :
    Carried place iters region run := by
  rw [ran]
  refine ⟨rfl,⟨blocks,opening,closing,rfl,framed,serves⟩,fun live => copies_live_of_none fun act member => ?_⟩
  obtain ⟨event,issued,rfl⟩ := List.mem_map.mp member
  rcases List.mem_append.mp issued with front | later
  · exact (framed.outside event (List.mem_append_left _ front)).2.2
  · rcases List.mem_append.mp later with round | back
    · obtain ⟨j,below,_,inside⟩ := stampBlocks_mem round
      exact calm j below _ inside
    · exact (framed.outside event (List.mem_append_right _ back)).2.2

theorem memset_inside : InBounds place (.memset place.lbuf (initByte place.role) place.bufsize) :=
  fun _ low => ⟨Nat.le_add_right _ _,Nat.add_lt_add_left low _⟩

theorem plain_framed : Framed place [(none,.memset place.lbuf (initByte place.role) place.bufsize)] [(none,.barrier)] := by
  refine ⟨?_,fun _ _ => rfl⟩
  intro event member
  simp only [List.cons_append,List.nil_append,List.mem_cons,List.not_mem_nil,or_false] at member
  rcases member with rfl | rfl
  · exact ⟨rfl,memset_inside,rfl⟩
  · exact ⟨rfl,trivial,rfl⟩

theorem copies_calm (role : Role) (ptr moved : Nat) (pieces : List IoVec) :
    ∀ act ∈ (PipelineLoops.copies role ptr moved pieces).map PipelineLoops.ofCopy, isCopy act = false := by
  intro act member
  obtain ⟨_,_,rfl⟩ := List.mem_map.mp member
  rfl

theorem shmem_carried (fit : Fit place nblocks blocksize) :
    Carried place iters true (benchmarkShmem place.role iters place.ptr place.lbuf (initIov place.lbuf nblocks blocksize)
      place.bufsize blocksize) := by
  have ran := shmemIteration_run place.role place.ptr fit.total (initIov_length.trans fit.count.symm) fit.small
  have passes := @loop_blocks iters (fun _ => shmemIteration place.role place.ptr (initIov place.lbuf nblocks blocksize)
    place.bufsize blocksize) (fun _ => shmemActs place.role place.ptr (initIov place.lbuf nblocks blocksize)) fun _ _ => ran
  refine calm_carried ?_ plain_framed (fun _ _ => shmem_serves fit) fun _ _ act member => ?_
  · unfold benchmarkShmem
    rw [passes,initBuffer_run]
    rfl
  · rcases shmemActs_mem member with rfl | rfl | copied
    · rfl
    · rfl
    · exact copies_calm _ _ _ _ act copied

theorem pip_carried (fit : Fit place nblocks blocksize) (nonzero : 0 < full) (sized : full < sizeMod) (divides : full ∣ place.bufsize) :
    Carried place iters true (benchmarkShmemPip place.role iters full place.ptr place.lbuf (initIov place.lbuf nblocks blocksize)
      place.bufsize blocksize) := by
  have ran := @benchmarkShmemPip_run place.role full place.ptr place.lbuf place.bufsize blocksize
    (initIov place.lbuf nblocks blocksize) iters (initIov_positive fit.own.bytes) fit.total
    (initIov_length.trans fit.count.symm) fit.small nonzero sized divides
  refine @calm_carried place iters _ true (fun _ => iterationActs place.role full place.ptr (initIov place.lbuf nblocks blocksize))
    _ _ ran plain_framed (fun _ _ => pip_serves fit full divides) fun _ _ act member => ?_
  rcases iterationActs_mem member with rfl | rfl | copied
  · rfl
  · rfl
  · exact copies_calm _ _ _ _ act copied

theorem cmaIteration_sends (limit : Int) (readv : Int → Int → Nat) (liov riov : List IoVec) (nblocks : Int) (bufsize : Nat) :
    cmaIteration .sender limit readv liov riov nblocks bufsize = ⟨[.bcast .iov (iovecBytes nblocks),.gather],.ok ()⟩ := rfl

theorem cmaIteration_receives {limit size passes bufsize : Nat} {readv : Int → Int → Nat} (liov riov : List IoVec)
    (picked : (if (nblocks : Int) < limit then (nblocks : Int) else longToInt limit) = size) (some_blocks : 0 < size)
    (tiles : passes * size = nblocks) (filled : bufsize = nblocks * blocksize) (bytes : 0 < blocksize)
    (small : nblocks * blocksize < sizeMod) (transfers : FullTransfers nblocks blocksize readv) :
    cmaIteration .receiver limit readv liov riov nblocks bufsize =
      ⟨.bcast .iov (iovecBytes nblocks) :: (batchActs liov riov size blocksize passes ++ [.gather]),.ok ()⟩ := by
  subst filled
  have visit := @passes_visit (fun iovOff => iovOff < (nblocks : Int)) readv liov riov nblocks blocksize size (fun i _ => by simp)
    bytes small transfers some_blocks passes (Nat.le_of_eq tiles)
  rw [tiles] at visit
  have stop := @cmaStep_stop (fun iovOff => iovOff < (nblocks : Int)) readv liov riov (atBlock nblocks blocksize nblocks) size
    (.inl (by simp [atBlock]))
  have fuelled : passes < cmaFuel nblocks := by
    have most := Nat.le_mul_of_pos_right passes some_blocks
    simp only [cmaFuel,Int.toNat_natCast]
    omega
  have ran := loop_ends visit stop fuelled Fault.unfinished
  have copied : ((atBlock nblocks blocksize nblocks).totalCopied == nblocks * blocksize) = true := by simp [atBlock]
  simp only [cmaIteration,if_true,benchStep,picked,ran]
  rw [Run.emit_chain,Run.ok_chain,copied,List.append_nil]
  rfl

theorem sender_calls : ∀ act ∈ [Act.bcast .iov (iovecBytes nblocks),.gather], isCopy act = false := by
  intro act member
  simp only [List.mem_cons,List.not_mem_nil,or_false] at member
  rcases member with rfl | rfl <;> rfl

theorem cma_framed : Framed place [(none,.bcast .rpid 4),(none,.memset place.lbuf (initByte place.role) place.bufsize)]
    [(none,.barrier)] := by
  refine ⟨?_,fun _ _ => rfl⟩
  intro event member
  simp only [List.cons_append,List.nil_append,List.mem_cons,List.not_mem_nil,or_false] at member
  rcases member with rfl | rfl | rfl
  · exact ⟨rfl,trivial,rfl⟩
  · exact ⟨rfl,memset_inside,rfl⟩
  · exact ⟨rfl,trivial,rfl⟩

theorem cma_carried (fit : Fit place nblocks blocksize) (some_blocks : 0 < nblocks) {limit : Nat} (positive : 0 < limit)
    (batched : nblocks ≤ limit ∨ limit ∣ nblocks) {readv : Nat → Int → Int → Nat} {riov : List IoVec}
    (sent : place.role = .receiver → riov = initIov place.source nblocks blocksize)
    (transfers : place.role = .receiver → ∀ j, FullTransfers nblocks blocksize (readv j)) :
    Carried place iters false (benchmarkCma place.role iters limit readv (fun _ => riov) (initIov place.lbuf nblocks blocksize)
      place.lbuf place.bufsize blocksize) := by
  obtain ⟨blocks,ran,serves,calm⟩ : ∃ blocks : Nat → List Act,
      (∀ j < iters, cmaIteration place.role limit (readv j) (initIov place.lbuf nblocks blocksize) riov nblocks place.bufsize =
        ⟨blocks j,.ok ()⟩) ∧ (∀ j < iters, Serves place false (blocks j)) ∧ ∀ j < iters, ∀ act ∈ blocks j, isCopy act = false := by
    cases role : place.role with
    | sender =>
        exact ⟨fun _ => [.bcast .iov (iovecBytes nblocks),.gather],fun _ _ => cmaIteration_sends _ _ _ _ _ _,
          fun _ _ => calls_serve fit role,fun _ _ => sender_calls⟩
    | receiver =>
        obtain ⟨passes,tiles⟩ := (batch_size_dvd limit nblocks positive).mpr batched
        have some_size : 0 < if nblocks < limit then nblocks else limit := by split <;> omega
        have picked := bench_size limit fit.entries
        generalize (if nblocks < limit then nblocks else limit) = size at tiles some_size picked
        rw [Nat.mul_comm] at tiles
        have ran := fun j => cmaIteration_receives (initIov place.lbuf nblocks blocksize) riov picked some_size tiles.symm fit.filled
          fit.own.bytes fit.bytes (transfers role j)
        refine ⟨fun _ => _,fun j _ => ran j,?_,?_⟩
        · rw [sent role]
          exact fun _ _ => cma_serves fit role some_size tiles.symm
        · intro _ _ act member
          rcases List.mem_cons.mp member with rfl | later
          · rfl
          · rcases List.mem_append.mp later with moved | call
            · obtain ⟨_,_,rfl⟩ := List.mem_map.mp moved
              rfl
            · rw [List.mem_singleton.mp call]; rfl
  refine calm_carried ?_ cma_framed serves calm
  unfold benchmarkCma
  simp only [fit.narrow,loop_blocks ran,initBuffer_run]
  rfl

theorem xpmem_framed (apid : Nat) : Framed place [(none,.memset place.lbuf (initByte place.role) place.bufsize),(none,.bcast .segid 8)]
    ((none,.barrier) :: release apid) := by
  constructor
  · intro event member
    simp only [List.cons_append,List.nil_append,List.mem_cons] at member
    rcases member with rfl | rfl | rfl | released
    · exact ⟨rfl,memset_inside,rfl⟩
    · exact ⟨rfl,trivial,rfl⟩
    · exact ⟨rfl,trivial,rfl⟩
    · rw [release_mem released]; exact ⟨rfl,trivial,rfl⟩
  · intro peer m
    unfold release
    split <;> rfl

section
variable {attachNow detachNow : Nat → Bool} {driver : XpmemDriver} {apid : Nat} {iov : List IoVec}

theorem xpmem_sends (fit : Fit place nblocks blocksize) (sends : place.role = .sender) :
    ∃ s blocks, xpmemLoop place.role attachNow detachNow iters place.pageSize place.lbuf driver (fun _ => iov) nblocks apid =
        ⟨stampBlocks iters blocks,.ok s⟩ ∧ (∀ j < iters, Serves place false (blocks j)) ∧
      ∀ j < iters, ∀ act ∈ blocks j, isCopy act = false := by
  refine ⟨XpmemState.start nblocks apid,fun _ => [.bcast .iov (iovecBytes nblocks),.gather],?_,fun _ _ => calls_serve fit sends,
    fun _ _ => sender_calls⟩
  rw [sends]
  exact forRange_exact (fun j => [Act.bcast .iov (iovecBytes nblocks),.gather].map (Prod.mk (some j)))
    (fun _ => XpmemState.start nblocks apid) fun _ _ => rfl

theorem xpmem_receives (fit : Fit place nblocks blocksize) (receives : place.role = .receiver) (attaches : attachNow 0 = true)
    (fits : Fits place.pageSize (nblocks * blocksize) blocksize)
    (granted : ∀ j i offset size, place.pageSize ∣ offset → (driver.attach j i offset size).isSome) :
    ∃ s blocks, xpmemLoop place.role attachNow detachNow iters place.pageSize place.lbuf driver
        (fun _ => initIov place.source nblocks blocksize) nblocks apid = ⟨stampBlocks iters blocks,.ok s⟩ ∧
      ∀ j < iters, Serves place false (blocks j) := by
  have requests := fits_requests fit.sent fits
  have whole := fits_whole fit.sent.positive fit.sent.bytes fits
  have list := attachable fit.sent requests granted
  have start := @start_holding place.pageSize (initIov place.source nblocks blocksize) apid
  rw [initIov_length] at start
  obtain ⟨s,blocks,ran,_,serves⟩ := @stamped_rounds iters XpmemState (fun j => xpmemIteration .receiver (attachNow j) (detachNow j)
      place.pageSize place.lbuf driver (initIov place.source nblocks blocksize) nblocks j)
    _ (Holding place.pageSize (initIov place.source nblocks blocksize)) (fun _ block => Serves place false block) (by
      intro j s _ holding
      obtain ⟨t,ended,next,exacts,copied⟩ := @iteration_exact (attachNow j) (detachNow j) place.pageSize place.lbuf driver _ s j
        list holding (fun zero => by rw [zero]; exact attaches)
      rw [initIov_length] at ended exacts copied
      exact ⟨t,ended,next,xpmem_serves fit receives requests whole exacts copied⟩) start
  refine ⟨s,blocks,?_,serves⟩
  rw [receives]
  exact ran

theorem xpmem_carried (fit : Fit place nblocks blocksize) (version : 0 ≤ driver.version) (attaches : attachNow 0 = true)
    (fits : Fits place.pageSize (nblocks * blocksize) blocksize)
    (granted : place.role = .receiver → ∀ j i offset size, place.pageSize ∣ offset → (driver.attach j i offset size).isSome)
    (sent : place.role = .receiver → iov = initIov place.source nblocks blocksize)
    (reads : place.role = .receiver → ∀ live, CopiesLive live ((xpmemLoop .receiver attachNow detachNow iters place.pageSize place.lbuf
      driver (fun _ => initIov place.source nblocks blocksize) nblocks apid).acts.map Prod.snd)) :
    Carried place iters false (benchmarkXpmem place.role attachNow detachNow iters place.pageSize place.lbuf driver (fun _ => iov)
      place.bufsize blocksize apid) := by
  obtain ⟨s,blocks,ran,serves,live⟩ : ∃ s blocks, xpmemLoop place.role attachNow detachNow iters place.pageSize place.lbuf driver
        (fun _ => iov) (toInt (place.bufsize / blocksize)) apid = ⟨stampBlocks iters blocks,.ok s⟩ ∧
      (∀ j < iters, Serves place false (blocks j)) ∧ ∀ live, CopiesLive live ((stampBlocks iters blocks).map Prod.snd) := by
    rw [fit.narrow]
    cases role : place.role with
    | sender =>
        obtain ⟨s,blocks,ran,serves,calm⟩ := @xpmem_sends place nblocks blocksize iters attachNow detachNow driver apid iov fit role
        rw [role] at ran
        refine ⟨s,blocks,ran,serves,fun live => copies_live_of_none fun act member => ?_⟩
        obtain ⟨event,issued,rfl⟩ := List.mem_map.mp member
        obtain ⟨j,below,_,inside⟩ := stampBlocks_mem issued
        exact calm j below _ inside
    | receiver =>
        obtain ⟨s,blocks,ran,serves⟩ := @xpmem_receives place nblocks blocksize iters attachNow detachNow driver apid fit role attaches
          fits (granted role)
        have looped := reads role
        rw [role] at ran
        rw [ran] at looped
        rw [sent role]
        exact ⟨s,blocks,ran,serves,looped⟩
  have ended := congrArg Run.out ran
  have whole := benchmark_ended version ended
  rw [ran] at whole
  refine ⟨by rw [whole],⟨blocks,_,_,by rw [whole]; rfl,xpmem_framed s.apid,serves⟩,fun rest => ?_⟩
  rw [benchmark_live version ended,ran]
  exact live rest

end

end
end MpidtBench.SweepRuns
