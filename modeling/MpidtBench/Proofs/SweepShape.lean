import MpidtBench.Library.Windows
import MpidtBench.Model.Main
import MpidtBench.Proofs.PipelineProtocol
import MpidtBench.Proofs.XpmemLoops

namespace MpidtBench.SweepShape
open Traced CInteger ScatterGather Collective MpidtBench PipelineLoops PipelineDomain PipelineProtocol XpmemLoops

-- One iteration: what the rank does before the RTS Bcast and between it and the FIN
-- Gather. The sender does nothing in between, a receiver nothing before.
def Handshake (role : Role) (rts : Act) (acts : List Act) : Prop :=
  ∃ lead trail, acts = lead ++ rts :: (trail ++ [.gather]) ∧ (∀ act ∈ lead ++ trail, callKind act = none) ∧
    (role = .sender → trail = []) ∧ (role = .receiver → lead = [])

-- A benchmark: `iters` such iterations between what stands in front and behind.
def Rounds (role : Role) (iters : Nat) (rts : Act) (front back acts : List Stamped) : Prop :=
  ∃ blocks : Nat → List Act, acts = front ++ ((List.range iters).flatMap (fun j => (blocks j).map (Prod.mk (some j))) ++ back) ∧
    ∀ j < iters, Handshake role rts (blocks j)

section
variable {role : Role} {iters lbuf bufsize blocksize : Nat} {liov : List IoVec}

theorem loop_rounds {iteration : Nat → σ → Run Fault Act σ} {rts : Act}
    (each : ∀ j s t, (iteration j s).out = .ok t → Handshake role rts (iteration j s).acts)
    (ended : (forRange iters (fun j s => (iteration j s).label (Prod.mk (some j))) s).out = .ok t) :
    ∃ blocks : Nat → List Act, (forRange iters (fun j s => (iteration j s).label (Prod.mk (some j))) s).acts =
        (List.range iters).flatMap (fun j => (blocks j).map (Prod.mk (some j))) ∧ ∀ j < iters, Handshake role rts (blocks j) := by
  obtain ⟨lists,acts,shapes⟩ := forRange_blocks
    (fun j list => ∃ block : List Act, list = block.map (Prod.mk (some j)) ∧ Handshake role rts block)
    (fun j s t passed => ⟨_,rfl,each j s t passed⟩) ended
  choose! blocks same shaped using shapes
  refine ⟨blocks,?_,shaped⟩
  rw [acts]
  exact List.flatMap_congr fun j member => same j (List.mem_range.mp member)

theorem copyPass_quiet {copy : IoVec → Int → Act} (quiet : ∀ v offset, callKind (copy v offset) = none) (i : Nat) (s : CopyState) :
    ∀ act ∈ (copyPass copy liov i s).acts, callKind act = none := by
  intro act member
  unfold copyPass at member
  cases known : liov[i]? with
  | none => simp [readAt,known] at member
  | some v =>
      rw [readAt_some known,Run.pure_chain,Run.emit_chain] at member
      rw [List.mem_singleton.mp member]
      exact quiet v s.offset

theorem copy_quiet {copy : IoVec → Int → Act} (quiet : ∀ v offset, callKind (copy v offset) = none) (blocksize bufsize : Nat) :
    ∀ act ∈ (copyShmem copy liov blocksize bufsize).acts, callKind act = none := by
  intro act member
  rw [copyShmem,Run.chain_pure_acts] at member
  exact forFrom_acts (fun act => callKind act = none) (copyPass_quiet quiet) act member

theorem assert_parts {condition : Bool} {next : Unit → Run Fault α β} (ended : (assert condition >>= next).out = .ok value) :
    condition = true ∧ (assert condition >>= next) = next () := by
  cases condition with
  | false => cases ended
  | true => exact ⟨rfl,rfl⟩

-- A receiver that copies between the two calls and checks what it copied.
theorem copying_handshake {rts : Act} {copying : Run Fault Act τ} {condition : τ → Bool}
    (quiet : ∀ act ∈ copying.acts, callKind act = none)
    (ended : (Run.emit rts >>= fun _ => copying >>= fun s => assert (condition s) >>= fun _ => Run.emit .gather).out = .ok ()) :
    Handshake .receiver rts
      (Run.emit rts >>= fun _ => copying >>= fun s => assert (condition s) >>= fun _ => Run.emit .gather).acts := by
  rw [Run.emit_chain] at ended ⊢
  obtain ⟨s,_,rest,acts⟩ := Run.chain_parts ended
  rw [acts,(assert_parts rest).2]
  exact ⟨[],copying.acts,rfl,by simpa using quiet,nofun,fun _ => rfl⟩

theorem copied_handshake {rts : Act} {copying : Run Fault Act τ} {condition : τ → Bool}
    (quiet : ∀ act ∈ copying.acts, callKind act = none)
    (ended : (copying >>= fun s => assert (condition s) >>= fun _ => Run.emit rts >>= fun _ => Run.emit .gather).out = .ok ()) :
    Handshake .sender rts
      (copying >>= fun s => assert (condition s) >>= fun _ => Run.emit rts >>= fun _ => Run.emit .gather).acts := by
  obtain ⟨s,_,rest,acts⟩ := Run.chain_parts ended
  rw [acts,(assert_parts rest).2]
  exact ⟨copying.acts,[],rfl,by simpa using quiet,fun _ => rfl,nofun⟩

theorem shmem_handshake {ptr : Nat} (ended : (shmemIteration role ptr liov bufsize blocksize).out = .ok ()) :
    Handshake role (.bcast .dummy 1) (shmemIteration role ptr liov bufsize blocksize).acts := by
  cases role with
  | sender =>
      have quiet := @copy_quiet liov (toShmem ptr) (fun _ _ => rfl) blocksize bufsize
      simp only [shmemIteration,if_true,ne_eq,not_true_eq_false,if_false,copyToShmem] at ended ⊢
      generalize copyShmem (toShmem ptr) liov blocksize bufsize = copying at ended quiet ⊢
      exact copied_handshake quiet ended
  | receiver =>
      have quiet := @copy_quiet liov (fromShmem ptr) (fun _ _ => rfl) blocksize bufsize
      simp only [shmemIteration,reduceCtorEq,if_false,ne_eq,not_false_eq_true,if_true,copyFromShmem] at ended ⊢
      generalize copyShmem (fromShmem ptr) liov blocksize bufsize = copying at ended quiet ⊢
      exact copying_handshake quiet ended

theorem cmaStep_quiet (more : Int → Bool) (currBlks : Int) (readv : Int → Int → Nat) (liov riov : List IoVec) (s : CmaState) :
    ∀ act ∈ (cmaStep more currBlks readv liov riov s).acts, callKind act = none := by
  intro act member
  unfold cmaStep at member
  split at member
  · rw [List.mem_singleton.mp member]; rfl
  · cases member

theorem cma_handshake {limit nblocks : Int} {readv : Int → Int → Nat} {riov : List IoVec}
    (ended : (cmaIteration role limit readv liov riov nblocks bufsize).out = .ok ()) :
    Handshake role (.bcast .iov (iovecBytes nblocks)) (cmaIteration role limit readv liov riov nblocks bufsize).acts := by
  cases role with
  | sender => exact ⟨[],[],rfl,nofun,fun _ => rfl,fun _ => rfl⟩
  | receiver =>
      have quiet : ∀ act ∈ (loop .unfinished (benchStep limit nblocks readv liov riov) (cmaFuel nblocks)
          (CmaState.start bufsize)).acts, callKind act = none :=
        loop_acts (fun act => callKind act = none) Fault.unfinished (cmaStep_quiet _ _ readv liov riov) _ _
      exact copying_handshake quiet ended

theorem segmentPass_quiet (pageSize : Nat) (segments : List SegPtr) (i : Nat) (offset : Int) :
    ∀ act ∈ (segmentPass pageSize lbuf liov segments i offset).acts, callKind act = none := by
  intro act member
  unfold segmentPass at member
  cases known : liov[i]? with
  | none => simp [readAt,known] at member
  | some v =>
      cases held : segments[i]? with
      | none => rw [readAt_some known] at member; simp [readAt,held] at member
      | some segment =>
          rw [readAt_some known,readAt_some held,Run.pure_chain,Run.pure_chain,Run.emit_chain] at member
          rw [List.mem_singleton.mp member]
          rfl

theorem detachPass_quiet (segments : List SegPtr) (i : Nat) (s : Unit) :
    ∀ act ∈ (detachPass segments i s).acts, callKind act = none := by
  intro act member
  unfold detachPass at member
  cases held : segments[i]? with
  | none => simp [readAt,held] at member
  | some segment =>
      rw [readAt_some held,Run.pure_chain] at member
      split at member
      · rw [List.mem_singleton.mp member]; rfl
      · cases member

theorem xpmem_handshake {attachNow detachNow : Bool} {pageSize : Nat} {driver : XpmemDriver} {nblocks : Int} {j : Nat}
    {s t : XpmemState} (ended : (xpmemIteration role attachNow detachNow pageSize lbuf driver liov nblocks j s).out = .ok t) :
    Handshake role (.bcast .iov (iovecBytes nblocks))
      (xpmemIteration role attachNow detachNow pageSize lbuf driver liov nblocks j s).acts := by
  cases role with
  | sender => exact ⟨[],[],rfl,fun _ member => absurd member List.not_mem_nil,fun _ => rfl,fun _ => rfl⟩
  | receiver =>
      simp only [xpmemIteration] at ended ⊢
      obtain ⟨_,_,attached,acts⟩ := Run.chain_parts ended
      obtain ⟨u,_,copied,more⟩ := Run.chain_parts attached
      obtain ⟨_,_,detached,others⟩ := Run.chain_parts copied
      obtain ⟨_,_,_,last⟩ := Run.chain_parts detached
      rw [acts,more,others,last]
      refine ⟨[],(attachSegments attachNow pageSize driver liov nblocks j s).acts ++
        ((copySegments pageSize lbuf liov nblocks u.attachedSeglist).acts ++
          (detachSegments detachNow nblocks u.attachedSeglist).acts),?_,?_,(fun sends => by cases sends),fun _ => rfl⟩
      · simp
      · intro act member
        simp only [List.nil_append,List.mem_append] at member
        rcases member with attach | copy | detach
        · exact attaching_quiet (attachSegments_quiet attachNow pageSize driver liov nblocks j s) act attach
        · exact forFrom_acts (fun act => callKind act = none) (segmentPass_quiet pageSize u.attachedSeglist) act copy
        · unfold detachSegments at detach
          split at detach
          · exact forFrom_acts (fun act => callKind act = none) (detachPass_quiet u.attachedSeglist) act detach
          · cases detach

theorem shmem_rounds {ptr : Nat} (ended : (benchmarkShmem role iters ptr lbuf liov bufsize blocksize).out = .ok ()) :
    Rounds role iters (.bcast .dummy 1) [(none,.memset lbuf (initByte role) bufsize)] [(none,.barrier)]
      (benchmarkShmem role iters ptr lbuf liov bufsize blocksize).acts := by
  unfold benchmarkShmem at ended ⊢
  rw [initBuffer_run] at ended ⊢
  obtain ⟨_,_,looped,acts⟩ := Run.chain_parts ended
  obtain ⟨_,passed,_,more⟩ := Run.chain_parts looped
  obtain ⟨blocks,same,shapes⟩ := loop_rounds (fun _ _ _ iterated => shmem_handshake iterated) passed
  rw [acts,more,same]
  exact ⟨blocks,rfl,shapes⟩

theorem cma_rounds {limit : Int} {readv : Nat → Int → Int → Nat} {riov : Nat → List IoVec}
    (ended : (benchmarkCma role iters limit readv riov liov lbuf bufsize blocksize).out = .ok ()) :
    Rounds role iters (.bcast .iov (iovecBytes (toInt (bufsize / blocksize))))
      [(none,.bcast .rpid 4),(none,.memset lbuf (initByte role) bufsize)] [(none,.barrier)]
      (benchmarkCma role iters limit readv riov liov lbuf bufsize blocksize).acts := by
  unfold benchmarkCma at ended ⊢
  generalize toInt (bufsize / blocksize) = nblocks at ended ⊢
  rw [initBuffer_run] at ended ⊢
  obtain ⟨_,_,filled,acts⟩ := Run.chain_parts ended
  obtain ⟨_,_,looped,others⟩ := Run.chain_parts filled
  obtain ⟨_,passed,_,more⟩ := Run.chain_parts looped
  obtain ⟨blocks,same,shapes⟩ := loop_rounds (fun _ _ _ iterated => cma_handshake iterated) passed
  rw [acts,others,more,same]
  exact ⟨blocks,rfl,shapes⟩

-- A jump to cleanup shows as a failed attach.
def refused : Act → Bool
  | .xpmemAttach _ _ .failed => true
  | _ => false
def stops (fault : Fault) : Prop := ∃ apid, fault = .cleanup apid

theorem readAt_signals (list : List τ) (i : Int) : Signals stops (refused ·) (readAt list i : Run Fault Act τ) := by
  intro fault stopped jumped
  obtain ⟨apid,rfl⟩ := jumped
  unfold readAt at stopped
  split at stopped
  · split at stopped <;> cases stopped
  · cases stopped

theorem writeAt_signals (list : List τ) (i : Nat) (entry : τ) : Signals stops (refused ·) (writeAt list i entry : Run Fault Act (List τ)) := by
  intro fault stopped jumped
  obtain ⟨apid,rfl⟩ := jumped
  unfold writeAt at stopped
  split at stopped <;> cases stopped

theorem attachPass_signals (pageSize : Nat) (attach : Nat → Nat → Nat → Option Nat) (i : Nat) (s : XpmemState) :
    Signals stops (refused ·) (attachPass pageSize attach liov i s) := by
  unfold attachPass
  apply signals_chain (readAt_signals _ _)
  intro v
  split
  · dsimp only
    split
    · by_cases failed : attachResult (pageBase pageSize v.iovBase) pageSize (attach i (pageBase pageSize v.iovBase) pageSize) = .failed
      · rw [failed]
        exact fun _ _ _ => ⟨_,List.mem_cons_self,rfl⟩
      · rw [if_neg failed]
        exact signals_chain (signals_ok rfl) fun _ => signals_chain (writeAt_signals _ _ _) fun _ => signals_ok rfl
    · exact signals_chain (writeAt_signals _ _ _) fun _ => signals_ok rfl
  · exact signals_chain (signals_ok rfl) fun _ => signals_chain (writeAt_signals _ _ _) fun _ => signals_ok rfl

theorem iteration_signals (attachNow detachNow : Bool) (pageSize : Nat) (driver : XpmemDriver) (nblocks : Int) (j : Nat)
    (s : XpmemState) : Signals stops (refused ·) (xpmemIteration role attachNow detachNow pageSize lbuf driver liov nblocks j s) := by
  cases role with
  | sender => exact signals_ok rfl
  | receiver =>
      unfold xpmemIteration
      refine signals_chain (signals_ok rfl) fun _ => signals_chain ?_ fun t => signals_chain ?_ fun _ => signals_chain ?_ fun _ =>
        signals_chain (signals_ok rfl) fun _ => signals_ok rfl
      · unfold attachSegments
        split
        · exact signals_chain (signals_ok rfl) fun _ => signals_forFrom (attachPass_signals _ _) _ _ _
        · exact signals_ok rfl
      · exact signals_forFrom (fun i offset => signals_chain (readAt_signals _ _) fun _ => signals_chain (readAt_signals _ _)
          fun _ => signals_chain (signals_ok rfl) fun _ => signals_ok rfl) _ _ _
      · unfold detachSegments
        split
        · refine signals_forFrom (fun i _ => signals_chain (readAt_signals _ _) fun segment => ?_) _ _ _
          split <;> exact signals_ok rfl
        · exact signals_ok rfl

theorem loop_signals {attachNow detachNow : Nat → Bool} {pageSize apid : Nat} {driver : XpmemDriver} {iov : Nat → List IoVec}
    {nblocks : Int} : Signals stops (fun event => refused event.2)
      (xpmemLoop role attachNow detachNow iters pageSize lbuf driver iov nblocks apid) := by
  refine signals_forFrom (fun j s => ?_) _ _ _
  intro fault stopped jumped
  obtain ⟨act,member,caused⟩ := iteration_signals (attachNow j) (detachNow j) pageSize driver nblocks j s fault stopped jumped
  exact ⟨_,List.mem_map.mpr ⟨act,member,rfl⟩,caused⟩

theorem xpmem_rounds {attachNow detachNow : Nat → Bool} {pageSize apid : Nat} {driver : XpmemDriver} {iov : Nat → List IoVec}
    (version : 0 ≤ driver.version)
    (ended : (benchmarkXpmem role attachNow detachNow iters pageSize lbuf driver iov bufsize blocksize apid).out = .ok ())
    (granted : ∀ event ∈ (benchmarkXpmem role attachNow detachNow iters pageSize lbuf driver iov bufsize blocksize apid).acts,
      refused event.2 = false) :
    ∃ last, Rounds role iters (.bcast .iov (iovecBytes (toInt (bufsize / blocksize))))
      [(none,.memset lbuf (initByte role) bufsize),(none,.bcast .segid 8)] ((none,.barrier) :: release last)
      (benchmarkXpmem role attachNow detachNow iters pageSize lbuf driver iov bufsize blocksize apid).acts := by
  cases reached : (xpmemLoop role attachNow detachNow iters pageSize lbuf driver iov (toInt (bufsize / blocksize)) apid).out with
  | ok s =>
      obtain ⟨blocks,same,shapes⟩ := loop_rounds (fun j s t iterated => xpmem_handshake iterated) reached
      rw [benchmark_ended version reached]
      refine ⟨s.apid,blocks,?_,shapes⟩
      rw [xpmemLoop,same]
      rfl
  | error fault =>
      have working : ¬ driver.version < 0 := by omega
      cases fault with
      | cleanup last =>
          obtain ⟨event,member,caused⟩ := loop_signals _ reached ⟨last,rfl⟩
          rw [granted event (benchmark_keeps version member)] at caused
          cases caused
      | _ =>
          simp only [benchmarkXpmem,if_neg working,initBuffer_run,Run.label,Run.ok_chain,Run.emit_chain,Run.chain_error reached,
            cleanup] at ended
          cases ended

-- An iteration of benchmark_shmem_pip that ends has copied the whole buffer in full chunks.
theorem pip_complete {full ptr : Nat} (small : bufsize ≤ intMax) (bytes : 0 < blocksize) (nonzero : 0 < full) (sized : full < sizeMod)
    (ended : (pipIteration role full ptr (initIov lbuf (bufsize / blocksize) blocksize) bufsize blocksize).out = .ok ()) :
    total (initIov lbuf (bufsize / blocksize) blocksize) = bufsize ∧ full ∣ bufsize := by
  have positive := @initIov_positive blocksize lbuf (bufsize / blocksize) bytes
  have bound : total (initIov lbuf (bufsize / blocksize) blocksize) ≤ intMax := by
    rw [initIov_total]
    exact Nat.le_trans (Nat.div_mul_le_self _ _) small
  have niov : toInt (bufsize / blocksize) = ((initIov lbuf (bufsize / blocksize) blocksize).length : Int) := by
    rw [nblocks_exact _ _ small,initIov_length]
  unfold pipIteration at ended
  rw [niov,roleStep_pip] at ended
  dsimp only at ended
  generalize initIov lbuf (bufsize / blocksize) blocksize = liov at ended positive bound ⊢
  obtain ⟨s,looped,rest,_⟩ := Run.chain_parts ended
  rw [Run.emit_chain] at rest
  have summed := (assert_parts rest).2
  rw [summed] at rest
  have read : s.nread = bufsize := by
    cases checked : s.nread == bufsize with
    | true => exact beq_iff_eq.mp checked
    | false => rw [assert,checked] at rest; cases rest
  have stopped := loop_sound looped
  have divides := (ends_iff positive bound nonzero sized role ptr).mp ⟨_,s,stopped⟩
  obtain ⟨t,whole,complete⟩ := complete_run positive bound nonzero sized divides role ptr
  obtain ⟨_,rfl⟩ := stopped.unique whole
  have filled : total liov = bufsize := complete.nread.symm.trans read
  exact ⟨filled,filled ▸ divides⟩

theorem pip_run {full ptr : Nat} (small : bufsize ≤ intMax) (bytes : 0 < blocksize) (nonzero : 0 < full) (sized : full < sizeMod)
    (some_iteration : 0 < iters)
    (ended : (benchmarkShmemPip role iters full ptr lbuf (initIov lbuf (bufsize / blocksize) blocksize) bufsize blocksize).out =
      .ok ()) :
    (benchmarkShmemPip role iters full ptr lbuf (initIov lbuf (bufsize / blocksize) blocksize) bufsize blocksize).acts =
        programActs role iters full ptr lbuf bufsize (initIov lbuf (bufsize / blocksize) blocksize) ∧
      total (initIov lbuf (bufsize / blocksize) blocksize) = bufsize := by
  have first : (pipIteration role full ptr (initIov lbuf (bufsize / blocksize) blocksize) bufsize blocksize).out = .ok () := by
    unfold benchmarkShmemPip at ended
    rw [initBuffer_run] at ended
    obtain ⟨_,_,looped,_⟩ := Run.chain_parts ended
    obtain ⟨_,passed,_,_⟩ := Run.chain_parts looped
    generalize pipIteration role full ptr (initIov lbuf (bufsize / blocksize) blocksize) bufsize blocksize = iteration at passed ⊢
    obtain ⟨_,_,each⟩ := forRange_blocks (fun _ _ => iteration.out = .ok ())
      (fun j _ _ (ended : (iteration.label (Prod.mk (some j))).out = _) => ended) passed
    exact each 0 some_iteration
  obtain ⟨whole,divides⟩ := pip_complete small bytes nonzero sized first
  have ran := @benchmarkShmemPip_run role full ptr lbuf bufsize blocksize (initIov lbuf (bufsize / blocksize) blocksize) iters
    (initIov_positive bytes) whole initIov_length small nonzero sized divides
  exact ⟨congrArg Run.acts ran,whole⟩

end
end MpidtBench.SweepShape
