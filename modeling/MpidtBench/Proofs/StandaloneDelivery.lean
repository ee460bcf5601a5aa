import MpidtBench.Proofs.StandaloneProgress
import MpidtBench.Proofs.SweepDelivery

namespace MpidtBench.StandaloneDelivery
open Traced CInteger ScatterGather ByteMemory MpidtBench PipelineProtocol PipelineDomain PipelineLoops XpmemLoops CmaBatches Delivery
  SweepShape SweepRuns SweepAgreement AttachSplits SharedDelivery SharedRounds SweepDelivery StandaloneProgress XpmemBounds
open Collective hiding Place

-- Sizes and arguments of a program that carries its whole buffer over. With a buffer of up to a page
-- and smaller blocks xpmem_dt.c copies through a page it has detached in the iteration before: the
-- program stops there, and what is said of later steps is said of no run.
structure Arguments (bench : Bench) (full pageSize limit nblocks blocksize : Nat) : Prop where
  some_blocks : 0 < nblocks
  lists : nblocks * 16 ≤ intMax
  chunks : bench = .shmemPip → 0 < full ∧ full < sizeMod ∧ full ∣ nblocks * blocksize
  batches : bench = .cma → (0 < limit ∧ limit < 9223372036854775808) ∧ (nblocks ≤ limit ∨ limit ∣ nblocks)
  pages : bench = .xpmemNocache ∨ bench = .xpmemCached → Fits pageSize (nblocks * blocksize) blocksize

-- What the system gives a rank of it; the RTS Bcasts leave the sender's list in place of what
-- stood in its own.
structure Settled (role : Role) (pageSize limit nblocks blocksize : Nat) (root own : Node) : Prop where
  page : own.pageSize = pageSize
  batch : own.limit = limit
  buffer : Layout pageSize own.lbuf nblocks blocksize
  apart : Apart own.lbuf own.shmemPtr (nblocks * blocksize)
  attaches : role = .receiver → ∀ j i offset size, pageSize ∣ offset → (own.driver.attach j i offset size).isSome
  transfers : role = .receiver → ∀ j, FullTransfers nblocks blocksize (own.readv j)
  received : role = .receiver → ∃ list : List IoVec, list.length = nblocks ∧
    own.received = delivered (iovecBytes nblocks) (initIov root.lbuf nblocks blocksize) list

def nodePlace (role : Role) (root own : Node) (nblocks blocksize : Nat) : Place :=
  ⟨role,own.pageSize,own.lbuf,own.shmemPtr,root.lbuf,nblocks * blocksize,nblocks⟩

-- cma_dt.c alone sets every rank's buffer to 'x'.
def startByte (role : Role) : Bench → UInt8
  | .cma => 120
  | _ => initByte role

section
variable {role : Role} {bench : Bench} {iters full pageSize limit nblocks blocksize : Nat} {root own : Node} {place : Place}

theorem settled_fit (arguments : Arguments bench full pageSize limit nblocks blocksize)
    (sends : Settled .sender pageSize limit nblocks blocksize root root) (settled : Settled role pageSize limit nblocks blocksize root own) :
    Fit (nodePlace role root own nblocks blocksize) nblocks blocksize :=
  ⟨rfl,rfl,arguments.lists,by rw [nodePlace,settled.page]; exact settled.buffer,by rw [nodePlace,settled.page]; exact sends.buffer,settled.apart⟩

theorem settled_received (arguments : Arguments bench full pageSize limit nblocks blocksize)
    (settled : Settled role pageSize limit nblocks blocksize root own) (receives : role = .receiver) :
    own.received = initIov root.lbuf nblocks blocksize := by
  obtain ⟨list,length,same⟩ := settled.received receives
  rw [same,delivered_whole arguments.lists length]

theorem freed_idle {event : Stamped} (member : event ∈ freedBuffer place.lbuf) : Idle event.2 := by
  unfold freedBuffer at member
  split at member
  · rw [List.mem_singleton.mp member]
    trivial
  · cases member

theorem program_formed {cuts : List Nat} {iteration : Run Fault Act Unit} {block : List Act} (ran : iteration = ⟨block,.ok ()⟩)
    (iterates : Iterates place true cuts block) : Formed place true cuts (initByte place.role) [.barrier] [.barrier] iters
      (regionProgram place.role iters place.lbuf place.bufsize iteration).acts := by
  have passes := @loop_blocks iters (fun _ => iteration) (fun _ => block) fun _ _ => ran
  have ended : (regionProgram place.role iters place.lbuf place.bufsize iteration).out = .ok () := by
    unfold regionProgram
    rw [passes,initBuffer_run,freeBuffer_run]
    rfl
  rw [(region_parts ended).2,passes]
  refine ⟨[(none,.memset place.lbuf (initByte place.role) place.bufsize),(none,.barrier)],(none,.barrier) :: freedBuffer place.lbuf,
    fun _ => block,rfl,rfl,?_,⟨none,by simp⟩,?_,fun _ _ => iterates⟩
  · change .barrier :: kinds stampedKind (freedBuffer place.lbuf) = _
    rw [freedBuffer_kinds]
  · intro event member
    simp only [List.cons_append,List.nil_append,List.mem_cons] at member
    rcases member with rfl | rfl | rfl | freed
    · exact .inl rfl
    · exact .inr trivial
    · exact .inr trivial
    · exact .inr (freed_idle freed)

theorem shmemDt_formed (fit : Fit place nblocks blocksize) : Formed place true [place.bufsize] (initByte place.role) [.barrier] [.barrier] iters
    (shmemDt place.role iters place.ptr place.lbuf (initIov place.lbuf nblocks blocksize) place.bufsize blocksize).acts :=
  program_formed (shmemIteration_run place.role place.ptr fit.total (initIov_length.trans fit.count.symm) fit.small) (plain_iterates fit)

theorem shmemPipelineDt_formed (fit : Fit place nblocks blocksize) (nonzero : 0 < full) (sized : full < sizeMod) (divides : full ∣ place.bufsize) :
    Formed place true (List.replicate (place.bufsize / full) full) (initByte place.role) [.barrier] [.barrier] iters
      (shmemPipelineDt place.role iters full place.ptr place.lbuf (initIov place.lbuf nblocks blocksize) place.bufsize blocksize).acts :=
  program_formed (pipIteration_run (initIov_positive fit.own.bytes) fit.total (initIov_length.trans fit.count.symm) fit.small nonzero sized divides)
    (pipelined_iterates fit divides)

-- cma_dt.c: full transfers in batches that tile the list.
theorem cmaDtIteration_receives {size passes bufsize : Nat} {readv : Int → Int → Nat} (liov riov : List IoVec)
    (picked : (if nblocks < toSize limit then toInt nblocks else longToInt limit) = (size : Int)) (some_blocks : 0 < size)
    (tiles : passes * size = nblocks) (filled : bufsize = nblocks * blocksize) (bytes : 0 < blocksize) (small : nblocks * blocksize ≤ intMax)
    (transfers : FullTransfers nblocks blocksize readv) :
    cmaDtIteration .receiver limit readv liov riov nblocks bufsize =
      ⟨.bcast .iov (iovecBytes nblocks) :: (batchActs liov riov size blocksize passes ++ [.gather]),.ok ()⟩ := by
  subst filled
  have int_blocks := Nat.le_trans (Nat.le_mul_of_pos_right nblocks bytes) small
  have exact_test : ∀ i : Nat, i ≤ nblocks → decide (toSize (i : Int) < nblocks) = decide (i < nblocks) := by
    intro i low
    rw [toSize_exact (intMax_lt_sizeMod (Nat.le_trans low int_blocks))]
  have visit := @passes_visit (fun iovOff => toSize iovOff < nblocks) readv liov riov nblocks blocksize size exact_test
    bytes (intMax_lt_sizeMod small) transfers some_blocks passes (Nat.le_of_eq tiles)
  rw [tiles] at visit
  have stop := @cmaStep_stop (fun iovOff => toSize iovOff < nblocks) readv liov riov (atBlock nblocks blocksize nblocks) size
    (.inl (by simp [atBlock]))
  have fuelled : passes < cmaFuel nblocks := by
    have most := Nat.le_mul_of_pos_right passes some_blocks
    simp only [cmaFuel,Int.toNat_natCast]
    omega
  have ran := loop_ends visit stop fuelled Fault.unfinished
  have copied : ((atBlock nblocks blocksize nblocks).totalCopied == nblocks * blocksize) = true := by simp [atBlock]
  simp only [cmaDtIteration,if_true,cmaDtStep,picked,ran]
  rw [Run.emit_chain,Run.ok_chain,copied,List.append_nil]
  rfl

theorem batches_iterate (fit : Fit place nblocks blocksize) (receives : place.role = .receiver) {size passes : Nat} (some_blocks : 0 < size)
    (tiles : passes * size = nblocks) : Iterates place false [] (.bcast .iov (iovecBytes nblocks) ::
      (batchActs (initIov place.lbuf nblocks blocksize) (initIov place.source nblocks blocksize) size blocksize passes ++ [.gather])) := by
  refine remote_iterates (cma_serves fit receives some_blocks tiles) ⟨[],_,rfl,?_,?_,fun _ => rfl⟩ rfl ?_
  · intro act member
    obtain ⟨_,_,rfl⟩ := List.mem_map.mp member
    rfl
  · rw [receives]
    exact nofun
  · intro act member
    rcases List.mem_cons.mp member with rfl | later
    · exact remote_call rfl _
    · rcases List.mem_append.mp later with moved | call
      · obtain ⟨_,_,rfl⟩ := List.mem_map.mp moved
        exact ⟨id,nofun,by rw [receives]; exact nofun⟩
      · rw [List.mem_singleton.mp call]
        exact remote_call rfl _

theorem calls_iterate (fit : Fit place nblocks blocksize) (sends : place.role = .sender) :
    Iterates place false [] [.bcast .iov (iovecBytes nblocks),.gather] := by
  refine remote_iterates (calls_serve fit sends) ⟨[],[],rfl,nofun,fun _ => rfl,fun _ => rfl⟩ rfl fun act member => ?_
  simp only [List.mem_cons,List.not_mem_nil,or_false] at member
  rcases member with rfl | rfl
  · exact remote_call rfl _
  · exact remote_call rfl _

theorem cmaDt_iterates (fit : Fit place nblocks blocksize) (some_blocks : 0 < nblocks)
    (long : 0 < limit ∧ limit < 9223372036854775808) (batched : nblocks ≤ limit ∨ limit ∣ nblocks) {readv : Nat → Int → Int → Nat} {riov : List IoVec}
    (sent : place.role = .receiver → riov = initIov place.source nblocks blocksize)
    (transfers : place.role = .receiver → ∀ j, FullTransfers nblocks blocksize (readv j)) (j : Nat) :
    ∃ block, cmaDtIteration place.role limit (readv j) (initIov place.lbuf nblocks blocksize) riov nblocks place.bufsize = ⟨block,.ok ()⟩ ∧
      Iterates place false [] block := by
  cases role : place.role with
  | sender => exact ⟨_,rfl,calls_iterate fit role⟩
  | receiver =>
      obtain ⟨passes,tiles⟩ := (batch_size_dvd limit nblocks long.1).mpr batched
      have some_size : 0 < if nblocks < limit then nblocks else limit := by split <;> omega
      have picked := dt_size limit long.2 fit.entries
      generalize (if nblocks < limit then nblocks else limit) = size at tiles some_size picked
      rw [Nat.mul_comm] at tiles
      rw [sent role]
      exact ⟨_,cmaDtIteration_receives _ _ picked some_size tiles.symm fit.filled fit.own.bytes fit.own.small (transfers role j),
        batches_iterate fit role some_size tiles.symm⟩

theorem cmaDt_formed (fit : Fit place nblocks blocksize) (some_blocks : 0 < nblocks)
    (long : 0 < limit ∧ limit < 9223372036854775808) (batched : nblocks ≤ limit ∨ limit ∣ nblocks) {readv : Nat → Int → Int → Nat} {riov : List IoVec}
    (sent : place.role = .receiver → riov = initIov place.source nblocks blocksize)
    (transfers : place.role = .receiver → ∀ j, FullTransfers nblocks blocksize (readv j)) :
    Formed place false [] 120 [.bcast,.barrier] [.barrier] iters
      (cmaDt place.role iters limit readv (initIov place.lbuf nblocks blocksize) riov place.lbuf place.bufsize nblocks).acts := by
  choose blocks ran iterates using @cmaDt_iterates limit nblocks blocksize place fit some_blocks long batched readv riov sent transfers
  have passes := @loop_blocks iters (fun j => cmaDtIteration place.role limit (readv j) (initIov place.lbuf nblocks blocksize) riov nblocks
    place.bufsize) blocks fun j _ => ran j
  unfold cmaDt
  rw [passes,freeBuffer_run]
  refine ⟨[(none,.memset place.lbuf 120 place.bufsize),(none,.bcast .rpid 4),(none,.barrier)],freedBuffer place.lbuf ++ [(none,.barrier)],
    blocks,rfl,rfl,?_,⟨none,by simp⟩,?_,fun j _ => iterates j⟩
  · rw [kinds_append,freedBuffer_kinds]
    rfl
  · intro event member
    simp only [List.cons_append,List.nil_append,List.mem_cons,List.mem_append,List.not_mem_nil,or_false] at member
    rcases member with rfl | rfl | rfl | freed | rfl
    · exact .inl rfl
    · exact .inr trivial
    · exact .inr trivial
    · exact .inr (freed_idle freed)
    · exact .inr trivial

section
variable {attachNow detachNow : Nat → Bool} {driver : XpmemDriver} {apid : Nat} {iov : Nat → List IoVec}

theorem xpmem_iterates {count : Int} {s : XpmemState} {blocks : Nat → List Act}
    (ran : xpmemLoop place.role attachNow detachNow iters place.pageSize place.lbuf driver iov count apid = ⟨stampBlocks iters blocks,.ok s⟩)
    (serves : ∀ j < iters, Serves place false (blocks j)) : ∀ j < iters, Iterates place false [] (blocks j) := by
  intro j below
  obtain ⟨others,same,shapes⟩ := loop_rounds (fun j s t iterated => xpmem_handshake iterated) (congrArg Run.out ran)
  have equal : stampBlocks iters blocks = stampBlocks iters others := (congrArg Run.acts ran).symm.trans same
  have block : blocks j = others j := by
    rw [← (@stamped_blocks iters j blocks below).1,equal,(@stamped_blocks iters j others below).1]
  refine remote_iterates (serves j below) (by rw [block]; exact shapes j below) rfl fun act member => ?_
  have issued : (some j,act) ∈ (xpmemLoop place.role attachNow detachNow iters place.pageSize place.lbuf driver iov count apid).acts := by
    rw [ran]
    exact List.mem_flatMap.mpr ⟨j,List.mem_range.mpr below,List.mem_map.mpr ⟨act,member,rfl⟩⟩
  exact stamped_remote (fun j s => xpmemIteration_remote place.role (attachNow j) (detachNow j) place.pageSize place.lbuf driver (iov j) count j s)
    _ _ issued

end

theorem attached_formed {node : Node} (xpmem : bench = .xpmemNocache ∨ bench = .xpmemCached) (lbuf : place.lbuf = node.lbuf)
    {s : XpmemState} {blocks : Nat → List Act}
    (ran : xpmemBody bench place.role iters node (place.bufsize / blocksize) = ⟨stampBlocks iters blocks,.ok s⟩)
    (iterates : ∀ j < iters, Iterates place false [] (blocks j)) : Formed place false [] (initByte place.role) [.bcast,.barrier] [.barrier] iters
      (standaloneProgram bench place.role iters full node blocksize place.bufsize nblocks).acts := by
  have cleaned : cleanup (xpmemBody bench place.role iters node (place.bufsize / blocksize)) =
      ⟨stampBlocks iters blocks ++ release s.apid,.ok ()⟩ := by
    rw [ran]
    rfl
  rw [xpmem_run xpmem cleaned,xpmemActs,← lbuf]
  refine ⟨[(none,.bcast .segid 8),(none,.memset place.lbuf (initByte place.role) place.bufsize),(none,.barrier)],
    release s.apid ++ [(none,.free place.lbuf),(none,.barrier)],blocks,by simp,rfl,?_,⟨none,by simp⟩,?_,iterates⟩
  · rw [kinds_append]
    unfold release
    split <;> rfl
  · intro event member
    simp only [List.cons_append,List.nil_append,List.mem_cons,List.mem_append,List.not_mem_nil,or_false] at member
    rcases member with rfl | rfl | rfl | released | rfl | rfl
    · exact .inr trivial
    · exact .inl rfl
    · exact .inr trivial
    · rw [release_mem released]
      exact .inr trivial
    · exact .inr trivial
    · exact .inr trivial

theorem program_carries (arguments : Arguments bench full pageSize limit nblocks blocksize)
    (sends : Settled .sender pageSize limit nblocks blocksize root root) (settled : Settled role pageSize limit nblocks blocksize root own) :
    Formed (nodePlace role root own nblocks blocksize) (viaRegion bench) (cuts full (nblocks * blocksize) bench) (startByte role bench)
      (openKinds bench) [.barrier] iters (standaloneProgram bench role iters full own blocksize (nblocks * blocksize) nblocks).acts := by
  have fit := settled_fit arguments sends settled
  have received := settled_received arguments settled
  have xpmem : ∀ attachNow detachNow, attachNow 0 = true → (bench = .xpmemNocache ∨ bench = .xpmemCached) →
      ∃ s blocks, xpmemLoop role attachNow detachNow iters own.pageSize own.lbuf own.driver (fun _ => own.received) nblocks own.apid =
        ⟨stampBlocks iters blocks,.ok s⟩ ∧ ∀ j < iters, Serves (nodePlace role root own nblocks blocksize) false (blocks j) := by
    intro attachNow detachNow first cached
    cases known : role with
    | sender =>
        subst known
        obtain ⟨s,blocks,ran,serves,_⟩ := @xpmem_sends _ nblocks blocksize iters attachNow detachNow own.driver own.apid own.received fit rfl
        exact ⟨s,blocks,ran,serves⟩
    | receiver =>
        subst known
        have fits := arguments.pages cached
        have granted := settled.attaches rfl
        rw [← settled.page] at fits granted
        rw [received rfl]
        exact xpmem_receives fit rfl first fits granted
  have filled := fit.count
  cases bench with
  | shmem => exact shmemDt_formed fit
  | shmemPip =>
      obtain ⟨nonzero,sized,divides⟩ := arguments.chunks rfl
      exact shmemPipelineDt_formed fit nonzero sized divides
  | cma =>
      obtain ⟨long,batched⟩ := arguments.batches rfl
      have formed := @cmaDt_formed iters limit nblocks blocksize _ fit arguments.some_blocks long batched own.readv own.received
        received settled.transfers
      rw [standaloneProgram,settled.batch]
      exact formed
  | xpmemNocache =>
      obtain ⟨s,blocks,ran,serves⟩ := xpmem (attachNow .xpmemNocache) (detachNow iters .xpmemNocache) rfl (.inl rfl)
      refine @attached_formed .xpmemNocache iters full nblocks blocksize (nodePlace role root own nblocks blocksize) own (.inl rfl) rfl s blocks ?_
        (xpmem_iterates ran serves)
      rw [filled]
      exact ran
  | xpmemCached =>
      obtain ⟨s,blocks,ran,serves⟩ := xpmem (attachNow .xpmemCached) (detachNow iters .xpmemCached) rfl (.inr rfl)
      refine @attached_formed .xpmemCached iters full nblocks blocksize (nodePlace role root own nblocks blocksize) own (.inr rfl) rfl s blocks ?_
        (xpmem_iterates ran serves)
      rw [filled]
      exact ran

end

section
variable {size iters full pageSize limit nblocks blocksize : Nat} {bench : Bench} {sender : Fin size} {node : Fin size → Node}

theorem system_acts (arguments : Arguments bench full pageSize limit nblocks blocksize)
    (settled : ∀ r, Settled (roleOf sender r) pageSize limit nblocks blocksize (node sender) (node r)) (r : Fin size) :
    (standaloneSystem bench sender iters full blocksize (nblocks * blocksize : Nat) node).acts r =
      (standaloneProgram bench (roleOf sender r) iters full (node r) blocksize (nblocks * blocksize) nblocks).acts := by
  have buffer := (settled r).buffer
  have few := Nat.le_trans (Nat.le_mul_of_pos_left blocksize arguments.some_blocks) buffer.small
  have block : toSize blocksize = blocksize := toSize_exact (intMax_lt_sizeMod few)
  have whole : toSize (nblocks * blocksize : Nat) = nblocks * blocksize := toSize_exact (intMax_lt_sizeMod buffer.small)
  have bytes := Nat.mul_pos arguments.some_blocks buffer.bytes
  have run := @standalone_sizes iters full bench blocksize (nblocks * blocksize : Nat) (roleOf sender r) (node r)
    (by rw [block]; exact buffer.bytes) (by rw [whole]; exact bytes)
  rw [block,whole,Nat.mul_div_cancel _ buffer.bytes] at run
  exact congrArg Run.acts run

theorem system_formed (arguments : Arguments bench full pageSize limit nblocks blocksize)
    (settled : ∀ r, Settled (roleOf sender r) pageSize limit nblocks blocksize (node sender) (node r)) (r : Fin size) :
    Formed (nodePlace (roleOf sender r) (node sender) (node r) nblocks blocksize) (viaRegion bench) (cuts full (nblocks * blocksize) bench)
      (startByte (roleOf sender r) bench) (openKinds bench) [.barrier] iters
      ((standaloneSystem bench sender iters full blocksize (nblocks * blocksize : Nat) node).acts r) := by
  have sends := settled sender
  rw [root_role] at sends
  rw [system_acts arguments settled r]
  exact program_carries arguments sends (settled r)

theorem mapping_bench (own : Node) (bench : Bench) : standaloneMapping own bench = mappedAt (viaRegion bench) own.shmemPtr := by
  cases bench <;> rfl

theorem some_cuts (arguments : Arguments bench full pageSize limit nblocks blocksize) (bytes : 0 < blocksize) (region : viaRegion bench = true) :
    cuts full (nblocks * blocksize) bench ≠ [] := by
  have positive := Nat.mul_pos arguments.some_blocks bytes
  cases bench with
  | shmem => exact List.cons_ne_nil _ _
  | shmemPip =>
      obtain ⟨nonzero,_,divides⟩ := arguments.chunks rfl
      have some_chunk : 0 < nblocks * blocksize / full := Nat.div_pos (Nat.le_of_dvd positive divides) nonzero
      exact mt (List.replicate_eq_nil_iff _).mp some_chunk.ne'
  | _ => cases region

theorem standalone_sharing (arguments : Arguments bench full pageSize limit nblocks blocksize)
    (settled : ∀ r, Settled (roleOf sender r) pageSize limit nblocks blocksize (node sender) (node r)) :
    Sharing (standaloneSystem bench sender iters full blocksize (nblocks * blocksize : Nat) node) Prod.snd
      (fun r _ => standaloneMapping (node r) bench) (fun _ => True) (fun r => (node r).lbuf) (nblocks * blocksize) 120 := by
  have formed := @system_formed size iters full pageSize limit nblocks blocksize bench sender node arguments settled
  have root := formed sender
  have sent : startByte .sender bench = 120 := by cases bench <;> rfl
  rw [root_role,sent] at root
  have others : ∀ r ≠ sender, Formed (nodePlace .receiver (node sender) (node r) nblocks blocksize) (viaRegion bench)
      (cuts full (nblocks * blocksize) bench) (startByte .receiver bench) (openKinds bench) [.barrier] iters
      ((standaloneSystem bench sender iters full blocksize (nblocks * blocksize : Nat) node).acts r) := by
    intro r apart
    have other := formed r
    rwa [other_role apart] at other
  refine ⟨fun _ => rfl,trivial,fun _ stranger => absurd trivial stranger,
    fun r _ => (formed_kinds (formed r)).trans (formed_kinds (formed sender)).symm,?_,?_,?_,?_,?_⟩
  · intro r _ event _ ptr mapped
    have apart := (settled r).apart
    rw [mapping_bench] at mapped
    cases region : viaRegion bench with
    | true =>
        rw [mappedAt,region,if_pos rfl] at mapped
        cases mapped
        exact apart
    | false => rw [mappedAt,region] at mapped; cases mapped
  · intro event member
    rw [mapping_bench]
    exact formed_sends rfl root event member
  · intro r apart _ event member
    rw [mapping_bench]
    exact formed_receives rfl (others r apart) event member
  · simp only [mapping_bench]
    exact formed_primed root
  · intro r apart _
    simp only [mapping_bench]
    exact formed_supplied (some_cuts arguments (settled sender).buffer.bytes) rfl rfl (others r apart) root

end

-- Each stand-alone program on any number of ranks, step by step on a world of memories and of the
-- shared file: whatever the order of the steps, a receiver that sends a FIN has the sender's buffer.
theorem standalone_delivered {size : Nat} (bench : Bench) (sender : Fin size) (pageSize limit full iters nblocks blocksize : Nat)
    (node : Fin size → Node) (arguments : Arguments bench full pageSize limit nblocks blocksize)
    (settled : ∀ r, Settled (roleOf sender r) pageSize limit nblocks blocksize (node sender) (node r)) (start : World (Fin size)) :
    ∀ cfg w, Runs (standaloneSystem bench sender iters full blocksize (nblocks * blocksize : Nat) node)
        (standaloneStep bench sender (nblocks * blocksize) node) start cfg w →
      ∀ r ≠ sender, ∀ stamp,
        (standaloneSystem bench sender iters full blocksize (nblocks * blocksize : Nat) node).current cfg r = some (stamp,.gather) →
        ∀ k < nblocks * blocksize, w.memory r ((node r).lbuf + k) = 120 ∧ w.memory sender ((node sender).lbuf + k) = 120 := by
  intro cfg w runs r apart stamp here
  refine shared_delivered (standalone_sharing arguments settled) (fun q other _ => ?_) runs apart trivial here rfl
  have apart : q ≠ sender := other
  have receives := @system_formed size iters full pageSize limit nblocks blocksize bench sender node arguments settled q
  rw [other_role apart] at receives
  exact formed_collected rfl (settled q).apart receives

-- Three ranks of the caching program, as the receiver with rank 1 sends its first FIN.
theorem tinyNode_arguments : Arguments .xpmemCached 4 8 1024 2 4 :=
  ⟨by decide,by decide,Bench.noConfusion,Bench.noConfusion,fun _ => .inl ⟨2,rfl⟩⟩

theorem tinyNode_settled (role : Role) {rank : Nat} (few : rank < 3) : Settled role 8 1024 2 4 (tinyNode 0) (tinyNode rank) := by
  refine ⟨rfl,rfl,⟨⟨3,by decide,rfl⟩,⟨8 + 8 * rank,?_⟩,?_,by decide,by decide,?_⟩,.inl ?_,fun _ _ _ _ _ _ => rfl,fun _ _ _ _ _ => ?_,fun _ => ?_⟩
  · simp only [tinyNode]; omega
  · simp only [tinyNode]; omega
  · simp only [tinyNode,sizeMod]; omega
  · simp only [tinyNode]; omega
  · simp only [tinyNode,Int.toNat_natCast]
  · exact ⟨initIov 64 2 4,rfl,(@delivered_whole 4 2 64 (initIov 64 2 4) (by decide) rfl).symm⟩

theorem standalone_delivered_three_ranks : ∃ cfg w,
    Runs (standaloneSystem .xpmemCached (0 : Fin 3) 2 4 4 8 fun r => tinyNode r) (standaloneStep .xpmemCached 0 8 fun r => tinyNode r)
      ⟨fun _ _ => 0,fun _ => 0⟩ cfg w ∧ ∀ k < 8, w.memory 1 (128 + k) = 120 ∧ w.memory 0 (64 + k) = 120 := by
  have moved : ((standaloneSystem .xpmemCached (0 : Fin 3) 2 4 4 8 fun r => tinyNode r).moves (fun _ => ⟨0,false⟩)
      [0,0,0,1,1,1,2,2,2,0,1,2,0,1,0,0,1,1,1,1,1,1]).any (fun cfg =>
        decide ((standaloneSystem .xpmemCached (0 : Fin 3) 2 4 4 8 fun r => tinyNode r).current cfg 1 = some (some 0,.gather))) = true := by
    decide +kernel
  obtain ⟨cfg,made,fin⟩ := (Option.any_eq_true _ _).mp moved
  obtain ⟨w,runs⟩ := reached_runs (standaloneStep .xpmemCached 0 8 fun r => tinyNode r) ⟨fun _ _ => 0,fun _ => 0⟩ (System.moves_reached .start made)
  refine ⟨cfg,w,runs,fun k inside => ?_⟩
  exact standalone_delivered .xpmemCached (0 : Fin 3) 8 1024 4 2 2 4 (fun r => tinyNode r) tinyNode_arguments
    (fun r => tinyNode_settled (roleOf 0 r) r.isLt) ⟨fun _ _ => 0,fun _ => 0⟩ cfg w runs 1 (by decide) (some 0) (of_decide_eq_true fin) k inside

end MpidtBench.StandaloneDelivery
