import MpidtBench.Proofs.IntExact
import MpidtBench.Proofs.SharedRounds
import MpidtBench.Proofs.SweepProgress

namespace MpidtBench.SweepDelivery
open Traced CInteger ScatterGather ByteMemory MpidtBench PipelineLoops PipelineDomain PipelineProtocol XpmemLoops Delivery SweepShape SweepTrace
  SweepRuns SweepSafety SweepAgreement SharedDelivery SharedRounds SweepProgress
open Collective hiding Place

-- In a benchmark that goes through no region the sender makes its calls, and a receiver
-- neither sets memory nor copies within its own.
def Remote (role : Role) (act : Act) : Prop :=
  ¬ Wipes act ∧ (∀ dst src len, act ≠ .memcpy dst src len) ∧ (role = .sender → (callKind act).isSome)

section
variable {role : Role} {iters lbuf bufsize blocksize pageSize : Nat} {liov : List IoVec}

theorem remote_call {act : Act} (call : (callKind act).isSome) (role : Role) : Remote role act := by
  cases act with
  | bcast => exact ⟨id,nofun,fun _ => rfl⟩
  | gather => exact ⟨id,nofun,fun _ => rfl⟩
  | barrier => exact ⟨id,nofun,fun _ => rfl⟩
  | _ => cases call

theorem remote_single {call : Act} (known : (callKind call).isSome) (role : Role) :
    ∀ act ∈ (Run.emit call : Run Fault Act Unit).acts, Remote role act := by
  intro act member
  rw [List.mem_singleton.mp member]
  exact remote_call known role

theorem cmaIteration_remote (role : Role) (limit : Int) (readv : Int → Int → Nat) (liov riov : List IoVec) (nblocks : Int) (bufsize : Nat) :
    ∀ act ∈ (cmaIteration role limit readv liov riov nblocks bufsize).acts, Remote role act := by
  have batches : ∀ act ∈ (loop .unfinished (benchStep limit nblocks readv liov riov) (cmaFuel nblocks) (CmaState.start bufsize)).acts,
      Remote .receiver act := by
    refine loop_acts (Remote .receiver) Fault.unfinished (fun s act member => ?_) _ _
    unfold benchStep cmaStep at member
    split at member
    · rw [List.mem_singleton.mp member]
      exact ⟨id,nofun,nofun⟩
    · cases member
  unfold cmaIteration
  refine Run.chain_acts (Remote role) (remote_single rfl role) fun _ => ?_
  cases role with
  | sender => exact remote_single rfl .sender
  | receiver =>
      refine Run.chain_acts (Remote .receiver) batches fun s => Run.chain_acts (Remote .receiver) ?_ fun _ => remote_single rfl .receiver
      unfold assert
      split <;> exact fun _ member => absurd member List.not_mem_nil

theorem readAt_silent (list : List τ) (i : Int) : (readAt list i : Run Fault Act τ).acts = [] := by
  unfold readAt
  split
  · split <;> rfl
  · rfl

theorem xpmemIteration_remote (role : Role) (attachNow detachNow : Bool) (pageSize lbuf : Nat) (driver : XpmemDriver) (iov : List IoVec)
    (nblocks : Int) (j : Nat) (s : XpmemState) :
    ∀ act ∈ (xpmemIteration role attachNow detachNow pageSize lbuf driver iov nblocks j s).acts, Remote role act := by
  have silent : ∀ {τ : Type} (list : List τ) (i : Int), ∀ act ∈ (readAt list i : Run Fault Act τ).acts, Remote .receiver act := by
    intro τ list i act member
    rw [readAt_silent] at member
    cases member
  have attaches : ∀ act ∈ (attachSegments attachNow pageSize driver iov nblocks j s).acts, Remote .receiver act := by
    intro act member
    have attach := attachSegments_quiet attachNow pageSize driver iov nblocks j s act member
    cases act with
    | xpmemGet => exact ⟨id,nofun,nofun⟩
    | xpmemAttach => exact ⟨id,nofun,nofun⟩
    | _ => cases attach
  unfold xpmemIteration
  cases role with
  | sender => exact Run.chain_acts (Remote .sender) (remote_single rfl .sender) fun _ =>
      Run.chain_acts (Remote .sender) (remote_single rfl .sender) fun _ _ member => absurd member List.not_mem_nil
  | receiver =>
      refine Run.chain_acts (Remote .receiver) (remote_single rfl .receiver) fun _ => Run.chain_acts (Remote .receiver) attaches fun t =>
        Run.chain_acts (Remote .receiver) ?_ fun _ => Run.chain_acts (Remote .receiver) ?_ fun _ =>
          Run.chain_acts (Remote .receiver) (remote_single rfl .receiver) fun _ _ member => absurd member List.not_mem_nil
      · refine forFrom_acts (Remote .receiver) fun i offset => Run.chain_acts (Remote .receiver) (silent _ _) fun v =>
          Run.chain_acts (Remote .receiver) (silent _ _) fun segment act member => ?_
        rw [List.mem_singleton.mp member]
        exact ⟨id,nofun,nofun⟩
      · unfold detachSegments
        split
        · refine forFrom_acts (Remote .receiver) fun i _ => Run.chain_acts (Remote .receiver) (silent _ _) fun segment act member => ?_
          split at member
          · rw [List.mem_singleton.mp member]
            exact ⟨id,nofun,nofun⟩
          · cases member
        · exact fun _ member => absurd member List.not_mem_nil

-- The blocks of a benchmark are what carries the stamps of its iterations.
theorem rounds_stamped {front back acts : List Stamped} {blocks : Nat → List Act}
    (split : acts = front ++ (stampBlocks iters blocks ++ back)) (outside : ∀ event ∈ front ++ back, event.1 = none) (inside : j < iters) :
    stamped (some j) acts = blocks j := by
  rw [split,stamped_append,stamped_append,(stamped_outside fun event member => outside event (List.mem_append_left _ member)).1,
    (stamped_outside fun event member => outside event (List.mem_append_right _ member)).1,(stamped_blocks inside).1]
  simp

-- An iteration that does its part between its RTS and its FIN.
theorem remote_iterates {place : Place} {rts : Act} {block : List Act} (serves : Serves place false block)
    (shape : Handshake place.role rts block) (bcast : callKind rts = some .bcast) (issued : ∀ act ∈ block, Remote place.role act) :
    Iterates place false [] block := by
  refine ⟨serves,fun act member => (issued act member).1,nofun,fun _ => ?_⟩
  obtain ⟨lead,trail,same,quiet,sends,receives⟩ := shape
  have nothing : lead = [] := by
    cases role : place.role with
    | receiver => exact receives role
    | sender =>
        rcases List.eq_nil_or_concat lead with empty | ⟨_,act,rfl⟩
        · exact empty
        · have call := (issued act (by rw [same]; simp)).2.2 role
          rw [quiet act (by simp)] at call
          cases call
  subst nothing
  rw [List.nil_append] at same quiet
  refine ⟨rts,trail,same,bcast,fun act member => ⟨quiet act member,?_⟩,sends⟩
  exact (issued act (by rw [same]; simp [member])).2.1

theorem remote_formed {place : Place} {rts : Act} {front back : List Stamped} {opening closing : List Kind} {byte : UInt8}
    {run : Run Fault Stamped Unit} (carried : Carried place iters false run) (shape : Rounds place.role iters rts front back run.acts)
    (bcast : callKind rts = some .bcast) (remote : ∀ j act, (some j,act) ∈ run.acts → Remote place.role act)
    (outside : ∀ event ∈ front ++ back, event.1 = none ∧ (event.2 = .memset place.lbuf byte place.bufsize ∨ Idle event.2))
    (set : ∃ stamp, (stamp,.memset place.lbuf byte place.bufsize) ∈ front)
    (ahead : kinds stampedKind front = opening) (behind : kinds stampedKind back = closing) :
    Formed place false [] byte opening closing iters run.acts := by
  obtain ⟨blocks,split,shapes⟩ := shape
  refine ⟨front,back,blocks,split,ahead,behind,set,fun event member => (outside event member).2,fun j below => ?_⟩
  have serves := (carried_iteration carried below).1
  rw [rounds_stamped split (fun event member => (outside event member).1) below] at serves
  refine remote_iterates serves (shapes j below) bcast fun act member => remote j act ?_
  rw [split]
  refine List.mem_append_right _ (List.mem_append_left _ (List.mem_flatMap.mpr ⟨j,List.mem_range.mpr below,?_⟩))
  exact List.mem_map.mpr ⟨act,member,rfl⟩

theorem stamped_remote {iteration : Nat → σ → Run Fault Act σ} (each : ∀ j s, ∀ act ∈ (iteration j s).acts, Remote role act) (s : σ) :
    ∀ event ∈ (forRange iters (fun j s => (iteration j s).label (Prod.mk (some j))) s).acts, Remote role event.2 := by
  refine forFrom_acts (fun event : Stamped => Remote role event.2) fun j s event member => ?_
  obtain ⟨act,issued,rfl⟩ := List.mem_map.mp member
  exact each j s act issued

theorem outside_remote {events : List Stamped} (outside : ∀ event ∈ events, event.1 = none) :
    ∀ event ∈ events, event.1.isSome → Remote role event.2 := by
  intro event member stamped
  rw [outside event member] at stamped
  cases stamped

theorem initBuffer_outside (role : Role) (lbuf bufsize : Nat) :
    ∀ event ∈ ((initBuffer role lbuf bufsize).label (Prod.mk (none : Option Nat))).acts, event.1 = none := by
  rw [initBuffer_run]
  intro event member
  rw [List.mem_singleton.mp member]

theorem benchmarkCma_remote (role : Role) (iters : Nat) (limit : Int) (readv : Nat → Int → Int → Nat) (riov : Nat → List IoVec)
    (liov : List IoVec) (lbuf bufsize blocksize : Nat) :
    ∀ event ∈ (benchmarkCma role iters limit readv riov liov lbuf bufsize blocksize).acts, event.1.isSome → Remote role event.2 := by
  have single : ∀ act, ∀ event ∈ (Run.emit (none,act) : Run Fault Stamped Unit).acts, event.1.isSome → Remote role event.2 := by
    intro act
    refine outside_remote fun event member => ?_
    rw [List.mem_singleton.mp member]
  unfold benchmarkCma
  refine Run.chain_acts _ (single _) fun _ => Run.chain_acts _ (outside_remote (initBuffer_outside _ _ _)) fun _ =>
    Run.chain_acts _ (fun event member _ => ?_) fun _ => single _
  exact stamped_remote (fun j _ => cmaIteration_remote role limit (readv j) liov (riov j) _ bufsize) () event member

theorem benchmarkXpmem_remote (role : Role) (attachNow detachNow : Nat → Bool) (iters pageSize lbuf : Nat) (driver : XpmemDriver)
    (iov : Nat → List IoVec) (bufsize blocksize apid : Nat) :
    ∀ event ∈ (benchmarkXpmem role attachNow detachNow iters pageSize lbuf driver iov bufsize blocksize apid).acts,
      event.1.isSome → Remote role event.2 := by
  have single : ∀ act, ∀ event ∈ (Run.emit (none,act) : Run Fault Stamped Unit).acts, event.1.isSome → Remote role event.2 := by
    intro act
    refine outside_remote fun event member => ?_
    rw [List.mem_singleton.mp member]
  unfold benchmarkXpmem
  split
  · exact fun _ member => absurd member List.not_mem_nil
  · refine IntExact.cleanup_acts (Run.chain_acts _ (outside_remote (initBuffer_outside _ _ _)) fun _ => Run.chain_acts _ (single _) fun _ =>
      Run.chain_acts _ (fun event member _ => ?_) fun _ => Run.chain_acts _ (single _) fun _ _ member => absurd member List.not_mem_nil) (fun _ => nofun)
    exact stamped_remote (fun j s => xpmemIteration_remote role (attachNow j) (detachNow j) pageSize lbuf driver (iov j) _ j s) _ event member

end

-- The rounds of a benchmark that goes through the region, and the calls in front of its loop.
def cuts (full bufsize : Nat) : Bench → List Nat
  | .shmem => [bufsize]
  | .shmemPip => List.replicate (bufsize / full) full
  | _ => []
def openings : Bench → List Kind
  | .shmem => []
  | .shmemPip => []
  | _ => [.bcast]

section
variable {role : Role} {pageSize limit full iters bufsize minBs maxBs blocksize nblocks q : Nat} {root own : Machine} {place : Place}

theorem plain_iterates (fit : Fit place nblocks blocksize) : Iterates place true [place.bufsize]
    (shmemActs place.role place.ptr (initIov place.lbuf nblocks blocksize)) := by
  have form : shmemActs place.role place.ptr (initIov place.lbuf nblocks blocksize) =
      roundsActs place.role place.ptr 0 [initIov place.lbuf nblocks blocksize] ++ [.gather] := by
    cases place.role with
    | sender => simp [shmemActs,roundsActs,roundActs,entry,exit]
    | receiver => simp [shmemActs,roundsActs,roundActs,entry,exit]
  refine ⟨shmem_serves fit,fun act member => ?_,fun _ => ⟨_,form,by simp [fit.total]⟩,Bool.noConfusion⟩
  rcases shmemActs_mem member with rfl | rfl | copied
  · exact id
  · exact id
  · obtain ⟨_,_,rfl⟩ := List.mem_map.mp copied
    exact id

theorem pipelined_iterates (fit : Fit place nblocks blocksize) (divides : full ∣ place.bufsize) :
    Iterates place true (List.replicate (place.bufsize / full) full)
      (iterationActs place.role full place.ptr (initIov place.lbuf nblocks blocksize)) := by
  refine ⟨pip_serves fit full divides,fun act member => ?_,fun _ => ⟨_,rfl,?_⟩,nofun⟩
  · rcases iterationActs_mem member with rfl | rfl | copied
    · exact id
    · exact id
    · obtain ⟨_,_,rfl⟩ := List.mem_map.mp copied
      exact id
  · have whole : place.bufsize / full * full ≤ total (initIov place.lbuf nblocks blocksize) := by
      rw [fit.total,Nat.div_mul_cancel divides]
    rw [fit.total]
    refine List.eq_replicate_iff.mpr ⟨by rw [List.length_map,ScatterGather.chunks_length],fun size member => ?_⟩
    obtain ⟨pieces,listed,rfl⟩ := List.mem_map.mp member
    exact chunks_total whole pieces listed

theorem region_formed {cuts : List Nat} {blocks : Nat → List Act} (iterates : ∀ j < iters, Iterates place true cuts (blocks j)) :
    Formed place true cuts (initByte place.role) [] [.barrier] iters
      ((none,.memset place.lbuf (initByte place.role) place.bufsize) :: (stampBlocks iters blocks ++ [(none,.barrier)])) := by
  refine ⟨[(none,.memset place.lbuf (initByte place.role) place.bufsize)],[(none,.barrier)],blocks,rfl,rfl,rfl,⟨none,by simp⟩,?_,iterates⟩
  intro event member
  simp only [List.cons_append,List.nil_append,List.mem_cons,List.not_mem_nil,or_false] at member
  rcases member with rfl | rfl
  · exact .inl rfl
  · exact .inr trivial

theorem shmem_formed (fit : Fit place nblocks blocksize) : Formed place true [place.bufsize] (initByte place.role) [] [.barrier] iters
    (benchmarkShmem place.role iters place.ptr place.lbuf (initIov place.lbuf nblocks blocksize) place.bufsize blocksize).acts := by
  have ran := shmemIteration_run place.role place.ptr fit.total (initIov_length.trans fit.count.symm) fit.small
  have passes := @loop_blocks iters (fun _ => shmemIteration place.role place.ptr (initIov place.lbuf nblocks blocksize)
    place.bufsize blocksize) (fun _ => shmemActs place.role place.ptr (initIov place.lbuf nblocks blocksize)) fun _ _ => ran
  unfold benchmarkShmem
  rw [passes,initBuffer_run]
  exact region_formed fun _ _ => plain_iterates fit

theorem pip_formed (fit : Fit place nblocks blocksize) (nonzero : 0 < full) (sized : full < sizeMod) (divides : full ∣ place.bufsize) :
    Formed place true (List.replicate (place.bufsize / full) full) (initByte place.role) [] [.barrier] iters
      (benchmarkShmemPip place.role iters full place.ptr place.lbuf (initIov place.lbuf nblocks blocksize) place.bufsize blocksize).acts := by
  have ran := @benchmarkShmemPip_run place.role full place.ptr place.lbuf place.bufsize blocksize
    (initIov place.lbuf nblocks blocksize) iters (initIov_positive fit.own.bytes) fit.total
    (initIov_length.trans fit.count.symm) fit.small nonzero sized divides
  rw [ran]
  exact @region_formed iters place _ (fun _ => iterationActs place.role full place.ptr (initIov place.lbuf nblocks blocksize))
    fun _ _ => pipelined_iterates fit divides

theorem cma_formed {limit : Int} {readv : Nat → Int → Int → Nat} {riov : Nat → List IoVec} {liov : List IoVec}
    (carried : Carried place iters false (benchmarkCma place.role iters limit readv riov liov place.lbuf place.bufsize blocksize)) :
    Formed place false [] (initByte place.role) [.bcast] [.barrier] iters
      (benchmarkCma place.role iters limit readv riov liov place.lbuf place.bufsize blocksize).acts := by
  refine remote_formed carried (cma_rounds carried.ended) rfl (fun j act member => benchmarkCma_remote _ _ _ _ _ _ _ _ _ _ member rfl) ?_
    ⟨none,by simp⟩ rfl rfl
  intro event member
  simp only [List.cons_append,List.nil_append,List.mem_cons,List.not_mem_nil,or_false] at member
  rcases member with rfl | rfl | rfl
  · exact ⟨rfl,.inr trivial⟩
  · exact ⟨rfl,.inl rfl⟩
  · exact ⟨rfl,.inr trivial⟩

theorem xpmem_formed {attachNow detachNow : Nat → Bool} {driver : XpmemDriver} {iov : Nat → List IoVec} {apid : Nat}
    (version : 0 ≤ driver.version)
    (carried : Carried place iters false (benchmarkXpmem place.role attachNow detachNow iters place.pageSize place.lbuf driver iov
      place.bufsize blocksize apid)) : Formed place false [] (initByte place.role) [.bcast] [.barrier] iters
      (benchmarkXpmem place.role attachNow detachNow iters place.pageSize place.lbuf driver iov place.bufsize blocksize apid).acts := by
  obtain ⟨last,shape⟩ := xpmem_rounds version carried.ended fun event member => by
    obtain ⟨stamp,act⟩ := event
    cases act with
    | xpmemAttach offset size result =>
        obtain ⟨_,vaddr,rfl⟩ := carried_inside carried member
        rfl
    | _ => rfl
  have behind : kinds stampedKind ((none,.barrier) :: release last) = [.barrier] := by
    unfold release
    split <;> rfl
  refine remote_formed carried shape rfl (fun j act member => benchmarkXpmem_remote _ _ _ _ _ _ _ _ _ _ _ _ member rfl) ?_
    ⟨none,by simp⟩ rfl behind
  intro event member
  simp only [List.cons_append,List.nil_append,List.mem_cons] at member
  rcases member with rfl | rfl | rfl | released
  · exact ⟨rfl,.inl rfl⟩
  · exact ⟨rfl,.inr trivial⟩
  · exact ⟨rfl,.inr trivial⟩
  · rw [release_mem released]
    exact ⟨rfl,.inr trivial⟩

theorem called_formed (sizes : Sizes pageSize limit full bufsize minBs maxBs)
    (sends : Host .sender pageSize limit iters bufsize minBs maxBs root root)
    (host : Host role pageSize limit iters bufsize minBs maxBs root own) (below : minBs * 2 ^ q ≤ maxBs) (bench : Bench)
    (reaches : Reaches own q bench) :
    Formed (placeOf role root own bufsize (minBs * 2 ^ q) q) (viaRegion bench) (cuts full bufsize bench) (initByte role) (openings bench)
      [.barrier] iters (called role iters full bufsize own (q,minBs * 2 ^ q) bench).acts := by
  have fit := step_fit sizes sends host below
  have carried := called_carried sizes sends host below bench reaches
  cases bench with
  | shmem => exact shmem_formed fit
  | shmemPip => exact pip_formed fit sizes.room.1 sizes.room.2 sizes.chunks
  | cma => exact cma_formed carried
  | xpmemNocache => exact xpmem_formed reaches carried
  | xpmemCached => exact xpmem_formed reaches carried

theorem mapping_region (machine : Machine) (q : Nat) (bench : Bench) :
    mapping machine (some (q,bench)) = mappedAt (viaRegion bench) (machine.shmemPtr q) := by
  cases bench <;> rfl

theorem called_empty (stuck : ¬ Reaches own q bench) : (called role iters full bufsize own (q,blocksize) bench).acts = [] := by
  rw [called_nothing stuck]
  rfl

-- Each property of main's actions from that of its benchmarks.
theorem main_property {property : Event → Prop} (ended : (mainProgram role iters full own bufsize minBs maxBs).out = .ok ())
    (visits : ∀ step ∈ visited maxBs sweepFuel (0,minBs), ∃ q, step = (q,minBs * 2 ^ q) ∧ minBs * 2 ^ q ≤ maxBs)
    (barrier : property (none,none,.barrier)) (free : property (none,none,.free own.lbuf))
    (each : ∀ q bench, minBs * 2 ^ q ≤ maxBs → ∀ event ∈ (called role iters full bufsize own (q,minBs * 2 ^ q) bench).acts,
      property (some (q,bench),event)) : ∀ event ∈ (mainProgram role iters full own bufsize minBs maxBs).acts, property event := by
  intro event member
  rcases main_mem ended member with rfl | rfl | ⟨step,visit,bench,act,issued,rfl⟩
  · exact barrier
  · exact free
  · obtain ⟨q,rfl,below⟩ := visits step visit
    exact each q bench below act issued

theorem main_collected {marks wipes : Event → Prop} {brings : Event → β → Prop}
    (ended : (mainProgram role iters full own bufsize minBs maxBs).out = .ok ())
    (visits : ∀ step ∈ visited maxBs sweepFuel (0,minBs), ∃ q, step = (q,minBs * 2 ^ q) ∧ minBs * 2 ^ q ≤ maxBs)
    (barrier : ¬ marks (none,none,.barrier)) (free : ¬ marks (none,none,.free own.lbuf))
    (each : ∀ q bench, minBs * 2 ^ q ≤ maxBs →
      Collected (marks ∘ Prod.mk (some (q,bench))) (wipes ∘ Prod.mk (some (q,bench))) (brings ∘ Prod.mk (some (q,bench)))
        (called role iters full bufsize own (q,minBs * 2 ^ q) bench).acts) :
    Collected marks wipes brings (mainProgram role iters full own bufsize minBs maxBs).acts := by
  have single : ∀ event, ¬ marks event → Collected marks wipes brings [event] := by
    intro event unmarked
    refine collected_none fun other member => ?_
    rw [List.mem_singleton.mp member]
    exact unmarked
  have empty : Collected marks wipes brings [] := collected_none fun _ member => absurd member List.not_mem_nil
  have last : Collected marks wipes brings (freed own) := by
    unfold freed
    split
    · exact single _ free
    · exact empty
  rw [(main_parts ended).1,← List.singleton_append]
  refine collected_append (single _ barrier) (collected_append ?_ last)
  refine flatMap_closed empty (fun _ _ left right => collected_append left right) fun step visit => ?_
  refine flatMap_closed empty (fun _ _ left right => collected_append left right) fun bench _ => ?_
  obtain ⟨q,rfl,below⟩ := visits step visit
  exact collected_append (collected_map _ (each q bench below)) (single _ barrier)

end

-- In every step both ranks have a driver for an XPMEM benchmark, or neither has.
def SameDrivers (minBs maxBs : Nat) (root own : Machine) : Prop := ∀ q, minBs * 2 ^ q ≤ maxBs → ∀ bench, Reaches own q bench ↔ Reaches root q bench

section
variable {size pageSize limit full iters bufsize minBs maxBs q : Nat} {sender : Fin size} {machine : Fin size → Machine}

theorem turnCalls_alike {ours root : Machine} {step : Nat × Nat} (alike : ∀ bench, Reaches ours step.1 bench ↔ Reaches root step.1 bench)
    (bench : Bench) : turnCalls iters full bufsize ours step bench = turnCalls iters full bufsize root step bench := by
  cases bench with
  | xpmemNocache =>
      have same : works ours step .xpmemNocache = works root step .xpmemNocache := decide_eq_decide.mpr (alike .xpmemNocache)
      rw [turnCalls,turnCalls,same]
  | xpmemCached =>
      have same : works ours step .xpmemCached = works root step .xpmemCached := decide_eq_decide.mpr (alike .xpmemCached)
      rw [turnCalls,turnCalls,same]
  | _ => rfl

theorem main_uniform (small : bufsize ≤ intMax) (nonzero : 0 < full) (sized : full < sizeMod)
    (completes : ∀ r, Completes (roleOf sender r) iters full (machine r) bufsize minBs maxBs) {r : Fin size}
    (alike : SameDrivers minBs maxBs (machine sender) (machine r)) :
    (mainSystem sender iters full bufsize minBs maxBs machine).schedule r =
      (mainSystem sender iters full bufsize minBs maxBs machine).schedule sender := by
  have parts := main_asserts (completes sender).ended
  have trace : ∀ rank, (mainSystem sender iters full bufsize minBs maxBs machine).trace rank = _ :=
    fun rank => main_calls (completes rank) small nonzero sized
  rw [System.schedule_trace,System.schedule_trace,trace,trace]
  refine congrArg (fun calls => kinds eventKind (((none,none,.barrier) : Event) :: calls)) (List.flatMap_congr fun step visit => ?_)
  obtain ⟨q,rfl,below⟩ := (visited_iff (Nat.le_trans parts.2.2 small) parts.1 step).mp visit
  exact List.flatMap_congr fun bench _ => turnCalls_alike (fun bench => alike q below bench) bench

theorem cuts_nonempty (sizes : Sizes pageSize limit full bufsize minBs maxBs) (bench : Bench) :
    viaRegion bench = true → cuts full bufsize bench ≠ [] := by
  have positive : 0 < bufsize := Nat.lt_of_le_of_lt (Nat.zero_le _) sizes.pages
  cases bench with
  | shmem => exact fun _ => nofun
  | shmemPip =>
      have some_chunk : 0 < bufsize / full := Nat.div_pos (Nat.le_of_dvd positive sizes.chunks) sizes.room.1
      exact fun _ => mt (List.replicate_eq_nil_iff _).mp some_chunk.ne'
  | _ => nofun

theorem turn_supplied {r : Fin size} (sizes : Sizes pageSize limit full bufsize minBs maxBs)
    (sends : Host .sender pageSize limit iters bufsize minBs maxBs (machine sender) (machine sender))
    (receives : Host .receiver pageSize limit iters bufsize minBs maxBs (machine sender) (machine r))
    (below : minBs * 2 ^ q ≤ maxBs) (bench : Bench) (alike : Reaches (machine r) q bench ↔ Reaches (machine sender) q bench) (earlier : List Event) :
    Supplied eventKind (fun event => Demands (mapping (machine r) event.1) event.2.2)
        (fun event => Meets (machine sender).lbuf bufsize (initByte .sender) (mapping (machine sender) event.1) event.2.2) earlier
        (turn .receiver iters full bufsize (machine r) (q,minBs * 2 ^ q) bench)
        (turn .sender iters full bufsize (machine sender) (q,minBs * 2 ^ q) bench) ∧
      (kinds eventKind (turn .receiver iters full bufsize (machine r) (q,minBs * 2 ^ q) bench)).length =
        (kinds eventKind (turn .sender iters full bufsize (machine sender) (q,minBs * 2 ^ q) bench)).length := by
  have barrier : ∀ event ∈ [((none,none,.barrier) : Event)], ∀ cell, ¬ Demands (mapping (machine r) event.1) event.2.2 cell := by
    intro event member
    rw [List.mem_singleton.mp member]
    exact fun _ => id
  have tagged : ∀ acts : List Stamped, kinds eventKind (acts.map (Prod.mk (some (q,bench)))) = kinds stampedKind acts := by
    intro acts
    rw [kinds,kinds,List.filterMap_map]
    rfl
  by_cases reaches : Reaches (machine r) q bench
  · have ours := called_formed sizes sends receives below bench reaches
    have roots := called_formed sizes sends sends below bench (alike.mp reaches)
    have same := (formed_kinds ours).trans (formed_kinds roots).symm
    have supplied := formed_supplied (cuts_nonempty sizes bench) rfl rfl ours roots
    rw [turn,turn]
    refine ⟨supplied_append (supplied_more ?_ (List.nil_subset _)) (supplied_none barrier) ?_,?_⟩
    · refine supplied_map (Prod.mk (some (q,bench))) ?_ fun _ member => absurd member List.not_mem_nil
      simp only [Function.comp_def,mapping_region]
      exact supplied
    · rw [tagged,tagged,same]
    · rw [kinds_append,kinds_append,tagged,tagged,same]
  · rw [turn,turn,called_empty reaches,called_empty fun working => reaches (alike.mpr working)]
    exact ⟨supplied_none barrier,rfl⟩

-- What a receiver reads in main has been provided by the sender in main.
theorem main_supplied {r : Fin size} (sizes : Sizes pageSize limit full bufsize minBs maxBs)
    (sends : Host .sender pageSize limit iters bufsize minBs maxBs (machine sender) (machine sender))
    (receives : Host .receiver pageSize limit iters bufsize minBs maxBs (machine sender) (machine r))
    (alike : SameDrivers minBs maxBs (machine sender) (machine r)) :
    Supplied eventKind (fun event => Demands (mapping (machine r) event.1) event.2.2)
      (fun event => Meets (machine sender).lbuf bufsize (initByte .sender) (mapping (machine sender) event.1) event.2.2) []
      (mainProgram .receiver iters full (machine r) bufsize minBs maxBs).acts
      (mainProgram .sender iters full (machine sender) bufsize minBs maxBs).acts := by
  have ended := (main_sound sizes sends receives).ended
  have parts := main_asserts ended
  have visits := visited_iff (Nat.le_trans parts.2.2 sizes.small) parts.1
  have first : ∀ event ∈ [((none,none,.barrier) : Event)], ∀ cell, ¬ Demands (mapping (machine r) event.1) event.2.2 cell := by
    intro event member
    rw [List.mem_singleton.mp member]
    exact fun _ => id
  have last : ∀ event ∈ freed (machine r), ∀ cell, ¬ Demands (mapping (machine r) event.1) event.2.2 cell := by
    intro event member
    unfold freed at member
    split at member
    · rw [List.mem_singleton.mp member]
      exact fun _ => id
    · cases member
  rw [(main_parts ended).1,(main_parts (main_sound sizes sends sends).ended).1,← List.singleton_append,
    ← List.singleton_append]
  refine supplied_append (supplied_none first) ?_ rfl
  refine (fun swept : _ ∧ _ => supplied_append swept.1 (supplied_none last) swept.2)
    (supplied_flatMap fun step visit => supplied_flatMap fun bench _ => ?_)
  obtain ⟨q,rfl,below⟩ := (visits step).mp visit
  exact turn_supplied sizes sends receives below bench (alike q below bench) _

theorem mapping_apart {r : Fin size} {role : Role}
    (host : Host role pageSize limit iters bufsize minBs maxBs (machine sender) (machine r)) {tag : Option (Nat × Bench)} {ptr : Nat}
    (mapped : mapping (machine r) tag = some ptr) : Apart (machine r).lbuf ptr bufsize := by
  cases tag with
  | none => cases mapped
  | some tag =>
      obtain ⟨q,bench⟩ := tag
      rw [mapping_region] at mapped
      cases region : viaRegion bench with
      | true =>
          rw [mappedAt,region,if_pos rfl] at mapped
          cases mapped
          exact host.apart q
      | false => rw [mappedAt,region] at mapped; cases mapped

theorem main_sharing (sizes : Sizes pageSize limit full bufsize minBs maxBs)
    (hosts : ∀ r, Host (roleOf sender r) pageSize limit iters bufsize minBs maxBs (machine sender) (machine r))
    (alike : ∀ r, SameDrivers minBs maxBs (machine sender) (machine r)) :
    Sharing (mainSystem sender iters full bufsize minBs maxBs machine) (fun event => event.2.2) (fun r event => mapping (machine r) event.1)
      (fun _ => True) (fun r => (machine r).lbuf) bufsize (initByte .sender) := by
  have sends := hosts sender
  rw [root_role] at sends
  have receives : ∀ r ≠ sender, Host .receiver pageSize limit iters bufsize minBs maxBs (machine sender) (machine r) := by
    intro r apart
    have host := hosts r
    rwa [other_role apart] at host
  have root : (mainSystem sender iters full bufsize minBs maxBs machine).acts sender =
      (mainProgram .sender iters full (machine sender) bufsize minBs maxBs).acts := by simp only [mainSystem,root_role]
  have others : ∀ r ≠ sender, (mainSystem sender iters full bufsize minBs maxBs machine).acts r =
      (mainProgram .receiver iters full (machine r) bufsize minBs maxBs).acts := by
    intro r apart
    simp only [mainSystem,other_role apart]
  have ended : ∀ r, Completes (roleOf sender r) iters full (machine r) bufsize minBs maxBs :=
    fun r => sound_completes (main_sound sizes sends (hosts r))
  have sent := (main_sound sizes sends sends).ended
  have parts := main_asserts sent
  have visits : ∀ step ∈ visited maxBs sweepFuel (0,minBs), ∃ q, step = (q,minBs * 2 ^ q) ∧ minBs * 2 ^ q ≤ maxBs :=
    fun step => (visited_iff (Nat.le_trans parts.2.2 sizes.small) parts.1 step).mp
  refine ⟨fun _ => rfl,trivial,fun _ stranger => absurd trivial stranger,fun r _ => ?_,fun r _ event _ ptr mapped => mapping_apart (hosts r) mapped,
    ?_,?_,?_,?_⟩
  · exact main_uniform sizes.small sizes.room.1 sizes.room.2 ended (alike r)
  · show ∀ event ∈ (mainSystem sender iters full bufsize minBs maxBs machine).acts sender, _
    rw [root]
    refine main_property sent visits trivial trivial fun q bench below event member => ?_
    by_cases reaches : Reaches (machine sender) q bench
    · have formed := called_formed sizes sends sends below bench reaches
      show SenderAct _ _ _ (mapping (machine sender) (some (q,bench))) event.2
      rw [mapping_region]
      exact formed_sends rfl formed event member
    · rw [called_empty reaches] at member
      cases member
  · intro r apart _
    show ∀ event ∈ (mainSystem sender iters full bufsize minBs maxBs machine).acts r, _
    rw [others r apart]
    refine main_property (main_sound sizes sends (receives r apart)).ended visits trivial trivial fun q bench below event member => ?_
    by_cases reaches : Reaches (machine r) q bench
    · have formed := called_formed sizes sends (receives r apart) below bench reaches
      show ReceiverAct _ _ _ (mapping (machine r) (some (q,bench))) event.2
      rw [mapping_region]
      exact formed_receives rfl formed event member
    · rw [called_empty reaches] at member
      cases member
  · show Collected _ _ _ ((mainSystem sender iters full bufsize minBs maxBs machine).acts sender)
    rw [root]
    have calls : ∀ event : Event, event.2.2 = .barrier ∨ event.2.2 = .free (machine sender).lbuf →
        ¬ ∃ dst src len, event.2.2 = .memcpy dst src len := by
      rintro event (same | same) ⟨_,_,_,copy⟩
      · cases same.symm.trans copy
      · cases same.symm.trans copy
    refine main_collected sent visits (calls _ (.inl rfl)) (calls _ (.inr rfl)) fun q bench below => ?_
    by_cases reaches : Reaches (machine sender) q bench
    · have primed := formed_primed (called_formed sizes sends sends below bench reaches)
      simp only [Function.comp_def]
      rw [mapping_region]
      exact primed
    · rw [called_empty reaches]
      exact collected_none fun _ member => absurd member List.not_mem_nil
  · intro r apart _
    show Supplied _ _ _ [] ((mainSystem sender iters full bufsize minBs maxBs machine).acts r)
      ((mainSystem sender iters full bufsize minBs maxBs machine).acts sender)
    rw [root,others r apart]
    exact main_supplied sizes sends (receives r apart) (alike r)

-- Before every FIN of main a receiver's whole buffer has been written since it was last set.
theorem main_fetched {r : Fin size} (sizes : Sizes pageSize limit full bufsize minBs maxBs)
    (sends : Host .sender pageSize limit iters bufsize minBs maxBs (machine sender) (machine sender))
    (receives : Host .receiver pageSize limit iters bufsize minBs maxBs (machine sender) (machine r)) :
    Collected (fun event : Event => event.2.2 = .gather) (fun event => Wipes event.2.2)
      (fun event (k : Fin bufsize) => Written event.2.2 ((machine r).lbuf + k))
      (mainProgram .receiver iters full (machine r) bufsize minBs maxBs).acts := by
  have ended := (main_sound sizes sends receives).ended
  have parts := main_asserts ended
  refine main_collected ended (fun step => (visited_iff (Nat.le_trans parts.2.2 sizes.small) parts.1 step).mp) nofun nofun fun q bench below => ?_
  by_cases reaches : Reaches (machine r) q bench
  · exact formed_collected rfl (receives.apart q) (called_formed sizes sends receives below bench reaches)
  · rw [called_empty reaches]
    exact collected_none fun _ member => absurd member List.not_mem_nil

end

-- Main on any number of ranks, each step by step on a world of memories and of the shared file:
-- whatever the order of the steps, a receiver that sends a FIN has the sender's buffer in its own.
theorem delivered_in_every_order {size : Nat} (sender : Fin size) (pageSize limit full iters bufsize minBs maxBs : Nat)
    (machine : Fin size → Machine) (sizes : Sizes pageSize limit full bufsize minBs maxBs)
    (hosts : ∀ r, Host (roleOf sender r) pageSize limit iters bufsize minBs maxBs (machine sender) (machine r))
    (alike : ∀ r, SameDrivers minBs maxBs (machine sender) (machine r)) (start : World (Fin size)) :
    ∀ cfg w, Runs (mainSystem sender iters full bufsize minBs maxBs machine) (mainStep sender bufsize machine) start cfg w →
      ∀ r ≠ sender, ∀ tag stamp, (mainSystem sender iters full bufsize minBs maxBs machine).current cfg r = some (tag,stamp,.gather) →
        ∀ k < bufsize, w.memory r ((machine r).lbuf + k) = initByte .sender ∧
          w.memory sender ((machine sender).lbuf + k) = initByte .sender := by
  intro cfg w runs r apart tag stamp here
  refine shared_delivered (main_sharing sizes hosts alike) (fun q other _ => ?_) runs apart trivial here rfl
  have sends := hosts sender
  rw [root_role] at sends
  have apart : q ≠ sender := other
  have receives := hosts q
  rw [other_role apart] at receives
  have fetched := @main_fetched size pageSize limit full iters bufsize minBs maxBs sender machine q sizes sends receives
  simpa only [mainSystem,other_role apart] using fetched

-- Three ranks, as the receiver with rank 1 sends its first FIN: both of its buffers are full of 'x'.
theorem tinyMachine_sizes : Sizes 4 1024 4 8 4 8 := by
  refine ⟨⟨2,rfl⟩,by decide,by decide,by decide,by decide,by decide,by decide,by decide,fun q below => ?_⟩
  have short : q < 2 := by
    apply Nat.lt_of_not_le
    intro large
    have power := Nat.pow_le_pow_right (n := 2) (by decide) large
    omega
  have each : ∀ q < 2, 4 * 2 ^ q ∣ 8 ∧ (4 * 2 ^ q ∣ 4 ∨ 4 ∣ 4 * 2 ^ q) ∧
      (8 / (4 * 2 ^ q) ≤ 1024 ∨ 1024 ∣ 8 / (4 * 2 ^ q)) ∧ 8 / (4 * 2 ^ q) * 16 ≤ intMax := by decide
  obtain ⟨divides,pages,batches,lists⟩ := each q short
  exact ⟨divides,pages,batches,lists⟩

theorem tinyMachine_host (role : Role) (iters : Nat) {rank : Nat} (few : rank < 3) :
    Host role 4 1024 iters 8 4 8 (tinyMachine 0) (tinyMachine rank) := by
  refine ⟨rfl,rfl,?_,?_,?_,fun _ => .inl ?_,fun _ _ _ _ _ _ _ _ => rfl,fun _ q below => ⟨fun _ _ _ _ => rfl,fun bench => ?_⟩⟩
  · exact ⟨16 + 16 * rank,by simp only [tinyMachine]; omega⟩
  · simp only [tinyMachine]; omega
  · simp only [tinyMachine,sizeMod]; omega
  · simp only [tinyMachine]; omega
  · have lists := (tinyMachine_sizes.steps q below).lists
    refine ⟨initIov 64 (8 / (4 * 2 ^ q)) (4 * 2 ^ q),initIov_length,?_⟩
    rw [sender_list,nblocks_exact _ _ (by decide)]
    exact (delivered_whole lists initIov_length).symm

theorem delivered_in_every_order_three_ranks : ∃ cfg w,
    Runs (mainSystem (0 : Fin 3) 2 4 8 4 8 fun r => tinyMachine r) (mainStep 0 8 fun r => tinyMachine r) ⟨fun _ _ => 0,fun _ => 0⟩ cfg w ∧
    ∀ k < 8, w.memory 1 (128 + k) = 120 ∧ w.memory 0 (64 + k) = 120 := by
  have moved : ((mainSystem (0 : Fin 3) 2 4 8 4 8 fun r => tinyMachine r).moves (fun _ => ⟨0,false⟩)
      [0,1,2,0,1,2,0,0,0,0,0,1,1,1,1,1]).any (fun cfg =>
        decide ((mainSystem (0 : Fin 3) 2 4 8 4 8 fun r => tinyMachine r).current cfg 1 = some (some (0,.shmem),some 0,.gather))) = true := by
    decide +kernel
  obtain ⟨cfg,made,fin⟩ := (Option.any_eq_true _ _).mp moved
  obtain ⟨w,runs⟩ := reached_runs (mainStep 0 8 fun r => tinyMachine r) ⟨fun _ _ => 0,fun _ => 0⟩ (System.moves_reached .start made)
  refine ⟨cfg,w,runs,fun k inside => ?_⟩
  exact delivered_in_every_order (0 : Fin 3) 4 1024 4 2 8 4 8 (fun r => tinyMachine r) tinyMachine_sizes
    (fun r => tinyMachine_host (roleOf 0 r) 2 r.isLt) (fun r q _ bench => by cases bench <;> exact Iff.rfl) ⟨fun _ _ => 0,fun _ => 0⟩
    cfg w runs 1 (by decide) (some (0,.shmem)) (some 0) (of_decide_eq_true fin) k inside

end MpidtBench.SweepDelivery
