import Mathlib.Algebra.Ring.Int.Defs
import MpidtBench.Model.Effects
import MpidtBench.Proofs.CmaLoops
import MpidtBench.Proofs.Delivery
import MpidtBench.Proofs.PipelineBounds
import MpidtBench.Proofs.PlainCopy
import MpidtBench.Proofs.SweepShape

namespace MpidtBench.IntExact
open Traced CInteger ScatterGather Pages MpidtBench PipelineLoops PipelineBounds PlainCopy CmaBatches CmaLoops XpmemLoops
  PipelineProtocol SweepShape Delivery

-- The bytes that the memcpy calls of a piece of code copied, and the iovec entries that it
-- asked process_vm_readv for.
def copyLength : Act → Nat
  | .memcpy _ _ len => len
  | .memcpySegment _ _ _ len => len
  | _ => 0
def copied (acts : List Act) : Nat := (acts.map copyLength).sum

def batchLength : Act → Int
  | .processVmReadv _ _ _ currBlks _ => currBlks
  | _ => 0
def handed (acts : List Act) : Int := (acts.map batchLength).sum

-- A Bcast of the iovec list that brings all `nblocks` entries.
def WholeList (nblocks : Nat) : Act → Prop
  | .bcast .iov count => count = 16 * nblocks ∧ ∀ sent own : List IoVec, sent.length = nblocks → own.length = nblocks →
      delivered count sent own = sent
  | _ => True

section
variable {role : Role} {ptr full pageSize lbuf : Nat} {liov : List IoVec} {s t : PipState}

@[simp] theorem copied_append (first second : List Act) : copied (first ++ second) = copied first + copied second := by
  simp [copied]
@[simp] theorem handed_append (first second : List Act) : handed (first ++ second) = handed first + handed second := by
  simp [handed]

theorem copied_copies (role : Role) (ptr offset : Nat) (blocks : List IoVec) :
    copied ((copies role ptr offset blocks).map ofCopy) = total blocks := by
  induction blocks generalizing offset with
  | nil => cases role <;> rfl
  | cons v rest ih =>
      have parts := copies_append role ptr offset [v] rest
      rw [List.singleton_append] at parts
      rw [parts,List.map_append,copied_append,ih,total_cons]
      cases role <;> rfl

theorem copied_segments (offset : Int) (blocks : List (IoVec × SegPtr)) :
    copied (segmentCopies pageSize lbuf offset blocks) = total (blocks.map Prod.fst) := by
  induction blocks generalizing offset with
  | nil => rfl
  | cons block rest ih =>
      rw [segmentCopies,List.map_cons,total_cons,← ih (nextOffset offset block.1)]
      rfl

-- Wherever the loops of benchmark_shmem_pip stand, nread is what was copied.
theorem step_copied (positive : Positive liov) (small : total liov ≤ intMax) (aligned : Aligned full liov s)
    (stepped : pipStep role (chunkCopy role ptr) full liov liov.length s = ⟨acts,.ok (.inl t)⟩) :
    t.nread = s.nread + copied acts := by
  rcases step_cases stepped with ⟨_,_,rfl,rfl⟩ | ⟨_,_,rfl,rfl⟩ | ⟨inner,room,passed⟩
  · cases role <;> rfl
  · cases role <;> rfl
  · obtain ⟨⟨blocks,moved,tracks,chunk⟩,sized⟩ := aligned
    rw [inner] at chunk
    cases blocks with
    | nil =>
        have enough := chunk.2
        rw [total_nil] at enough; omega
    | cons w rest =>
        obtain ⟨_,len,rfl,next,_,_,_⟩ := pass_tracks positive small sized tracks passed
        rw [copied_copies,next.read,tracks.read]
        rfl

-- Blocks of one size: the cursor divides what was moved by it.
theorem uniform_total {blocks : List IoVec} (uniform : ∀ v ∈ blocks, v.iovLen = blocksize) : total blocks = blocks.length * blocksize := by
  induction blocks with
  | nil => simp
  | cons v rest ih =>
      rw [total_cons,ih fun other member => uniform other (List.mem_cons_of_mem _ member),uniform v (by simp),List.length_cons,
        Nat.succ_mul,Nat.add_comm]

theorem cursor_divides (bytes : 0 < blocksize) (uniform : ∀ v ∈ liov, v.iovLen = blocksize) {blocks : List IoVec}
    (tracks : Tracks liov s blocks moved) : s.iovcnt = (moved / blocksize : Nat) ∧ s.iovOff = (moved % blocksize : Nat) := by
  obtain ⟨_,_,sum,i,off,count,offset,choice⟩ := tracks
  have place : moved = i * blocksize + off ∧ off < blocksize := by
    rcases choice with ⟨rfl,rfl,rfl⟩ | ⟨v,known,inside,rfl⟩
    · rw [total_nil,uniform_total uniform] at sum
      exact ⟨sum,bytes⟩
    · have member := List.mem_of_getElem? known
      have length := uniform v member
      have bound := (List.getElem?_eq_some_iff.mp known).1
      have front := uniform_total fun w present => uniform w (List.mem_of_mem_take (i := i) present)
      rw [List.length_take,Nat.min_eq_left (Nat.le_of_lt bound)] at front
      have parts : total (liov.take (i+1)) + total (liov.drop (i+1)) = total liov := by
        rw [← total_append,List.take_append_drop]
      rw [total_take_succ known,front] at parts
      rw [total_cons] at sum
      dsimp only at sum
      omega
  rw [count,offset,place.1,Nat.mul_comm,Nat.mul_add_div bytes,Nat.mul_add_mod,Nat.div_eq_of_lt place.2,Nat.mod_eq_of_lt place.2]
  exact ⟨rfl,rfl⟩

end
-- The ints of copy_to_shmem and copy_from_shmem behind every block, and what they return.
structure PlainInts (copy : IoVec → Int → Act) (liov : List IoVec) (bufsize blocksize : Nat) : Prop where
  offset : ∀ i ≤ bufsize / blocksize, ∃ s, (forRange i (copyPass copy liov) ⟨0,0⟩).out = .ok s ∧
    s.offset = copied (forRange i (copyPass copy liov) ⟨0,0⟩).acts
  result : (copyShmem copy liov blocksize bufsize).out = .ok (bufsize : Int) ∧
    copied (copyShmem copy liov blocksize bufsize).acts = bufsize

-- The ints of benchmark_shmem_pip at every head: the bytes moved, the blocks done, and the
-- bytes done of the next one.
def PipInts (blocksize : Nat) (step : PipState → Run Fault Act (PipState ⊕ PipState)) : Prop :=
  ∀ k acts s, Visits step k (PipState.start shmemPipelineDepth) acts s →
    s.shmOff = copied acts ∧ s.iovcnt = (copied acts / blocksize : Nat) ∧ s.iovOff = (copied acts % blocksize : Nat) ∧
      copied acts ≤ intMax

-- Every int of a sweep step over the bytes and blocks it counts.
structure IntsExact (limit : Int) (iters bufsize blocksize : Nat) : Prop where
  nblocks : toInt (bufsize / blocksize) = (bufsize / blocksize : Nat)
  plain : ∀ lbuf ptr, PlainInts (toShmem ptr) (initIov lbuf (bufsize / blocksize) blocksize) bufsize blocksize ∧
    PlainInts (fromShmem ptr) (initIov lbuf (bufsize / blocksize) blocksize) bufsize blocksize
  pipelined : ∀ role lbuf ptr, PipInts blocksize (roleStep role ptr shmemPipelineDepth (initIov lbuf (bufsize / blocksize) blocksize)
    (toInt (bufsize / blocksize)))
  batches : ∀ readv liov riov k acts s, Visits (benchStep limit (toInt (bufsize / blocksize)) readv liov riov) k
    (CmaState.start bufsize) acts s → s.iovOff = handed acts ∧ IsInt s.iovOff
  segments : ∀ pageSize lbuf base segments, segments.length = bufsize / blocksize → ∀ i ≤ bufsize / blocksize,
    (forRange i (segmentPass pageSize lbuf (initIov base (bufsize / blocksize) blocksize) segments) 0).out =
      .ok (copied (forRange i (segmentPass pageSize lbuf (initIov base (bufsize / blocksize) blocksize) segments) 0).acts : Int)
  cma : ∀ role readv riov liov lbuf, ∀ event ∈ (benchmarkCma role iters limit readv riov liov lbuf bufsize blocksize).acts,
    WholeList (bufsize / blocksize) event.2
  nocache : ∀ role pageSize lbuf driver iov apid,
    ∀ event ∈ (benchmarkXpmemNocache role iters pageSize lbuf driver iov bufsize blocksize apid).acts,
      WholeList (bufsize / blocksize) event.2
  cached : ∀ role pageSize lbuf driver iov apid,
    ∀ event ∈ (benchmarkXpmemCached role iters pageSize lbuf driver iov bufsize blocksize apid).acts,
      WholeList (bufsize / blocksize) event.2

section
variable {bufsize blocksize nblocks iters : Nat} {limit : Int}

theorem initIov_uniform {lbuf : Nat} : ∀ v ∈ initIov lbuf nblocks blocksize, v.iovLen = blocksize := by
  intro v member
  obtain ⟨i,_,rfl⟩ := List.mem_map.mp member
  rfl

theorem plain_ints (small : bufsize ≤ intMax) (divides : blocksize ∣ bufsize) (role : Role) (lbuf ptr : Nat) :
    PlainInts (plainCopy role ptr) (initIov lbuf (bufsize / blocksize) blocksize) bufsize blocksize := by
  have whole : total (initIov lbuf (bufsize / blocksize) blocksize) = bufsize := by rw [initIov_total,Nat.div_mul_cancel divides]
  constructor
  · intro i below
    rw [copy_upto role ptr _ (by rw [whole]; exact small) i (by rw [initIov_length]; exact below)]
    exact ⟨_,rfl,congrArg Nat.cast (copied_copies role ptr 0 _).symm⟩
  · rw [copyShmem_run role ptr initIov_length (Nat.le_of_eq whole) small]
    dsimp only
    rw [copied_copies,whole]
    exact ⟨rfl,rfl⟩

theorem pip_ints (small : bufsize ≤ intMax) (bytes : 0 < blocksize) (divides : blocksize ∣ bufsize)
    (depth : shmemPipelineDepth ∣ bufsize) (role : Role) (lbuf ptr : Nat) :
    PipInts blocksize (roleStep role ptr shmemPipelineDepth (initIov lbuf (bufsize / blocksize) blocksize)
      (toInt (bufsize / blocksize))) := by
  intro k acts s visit
  have whole : total (initIov lbuf (bufsize / blocksize) blocksize) = bufsize := by rw [initIov_total,Nat.div_mul_cancel divides]
  have count : toInt (bufsize / blocksize) = ((initIov lbuf (bufsize / blocksize) blocksize).length : Int) := by
    rw [initIov_length]
    exact nblocks_exact bufsize blocksize small
  have positive := @initIov_positive blocksize lbuf (bufsize / blocksize) bytes
  have uniform := @initIov_uniform blocksize (bufsize / blocksize) lbuf
  rw [roleStep_pip,count] at visit
  generalize initIov lbuf (bufsize / blocksize) blocksize = liov at whole positive uniform visit
  have listed : total liov ≤ intMax := by rw [whole]; exact small
  obtain ⟨aligned,read⟩ := visit.invariant (fun acts s => Aligned shmemPipelineDepth liov s ∧ s.nread = copied acts)
    (by
      intro acts t more u given stepped
      obtain ⟨aligned,read⟩ := given
      refine ⟨step_aligned positive listed (by decide) (by rw [whole]; exact depth) aligned stepped,?_⟩
      rw [step_copied positive listed aligned stepped,read,copied_append])
    ⟨start_aligned positive (by decide),rfl⟩
  obtain ⟨⟨blocks,moved,tracks,_⟩,_⟩ := aligned
  have sum := tracks.sum
  obtain rfl : moved = copied acts := tracks.read.symm.trans read
  have cursor := cursor_divides bytes uniform tracks
  exact ⟨tracks.shm,cursor.1,cursor.2,by omega⟩

theorem batches_handed {readv : Int → Int → Nat} {liov riov : List IoVec} {nblocks : Int} {s : CmaState}
    (visit : Visits (benchStep limit nblocks readv liov riov) k (CmaState.start bufsize) acts s) : s.iovOff = handed acts := by
  refine visit.invariant (fun acts s => s.iovOff = handed acts) ?_ rfl
  intro acts t more u given stepped
  unfold benchStep cmaStep at stepped
  split at stepped
  · cases stepped
    rw [handed_append,← given]
    exact congrArg (t.iovOff + ·) (Int.add_zero _).symm
  · cases stepped

-- Without a definite limit, and with every batch of -1 entries refused, it runs down for ever.
theorem refused_visits (liov riov : List IoVec) (some_blocks : 0 < nblocks) (some_bytes : 0 < bufsize) (k : Nat)
    (room : bufsize + k < sizeMod) : ∃ acts total, Visits (benchStep (-1) nblocks (fun _ _ => sizeMod - 1) liov riov) k
      (CmaState.start bufsize) acts ⟨-(k : Int),bufsize+k,total⟩ := by
  induction k with
  | zero => exact ⟨[],0,.enter⟩
  | succ k ih =>
      obtain ⟨acts,total,visit⟩ := ih (by omega)
      have size : (if (nblocks : Int) < -1 then (nblocks : Int) else longToInt (-1)) = -1 := by
        rw [if_neg (by omega)]
        rfl
      have going : decide (-(k : Int) < nblocks) = true := by simp only [decide_eq_true_eq]; omega
      have left : subSize (bufsize + k) (sizeMod - 1) = bufsize + (k+1) := by
        simp only [subSize,sizeMod] at *
        omega
      have stepped := @cmaStep_more (fun iovOff => decide (iovOff < (nblocks : Int))) (fun _ _ => sizeMod - 1) liov riov
        ⟨-(k : Int),bufsize+k,total⟩ (-1) going (by dsimp only; omega)
      rw [left,show -(k : Int) + -1 = -((k+1 : Nat) : Int) by omega] at stepped
      rw [benchStep,size] at visit ⊢
      exact ⟨_,_,visit.pass stepped⟩

theorem batches_ints (positive : 1 ≤ limit) (long : limit < 9223372036854775808) (some_blocks : 1 ≤ nblocks) (lists : 16 * nblocks ≤ intMax)
    {readv : Int → Int → Nat} {liov riov : List IoVec} {s : CmaState}
    (visit : Visits (benchStep limit nblocks readv liov riov) k (CmaState.start (nblocks * blocksize)) acts s) : IsInt s.iovOff := by
  obtain ⟨count,rfl⟩ : ∃ count : Nat, limit = count := ⟨limit.toNat,by omega⟩
  have most : min nblocks count ≤ nblocks := Nat.min_le_left _ _
  have rounded : covered (min nblocks count) nblocks ≤ intMax := by
    have bound : covered (min nblocks count) nblocks ≤ nblocks + (min nblocks count - 1) := Nat.div_mul_le_self _ _
    omega
  exact (agree_positive (by omega) (by omega) some_blocks (by omega) rounded readv liov riov).benchInts k acts s visit

theorem segments_ints (small : bufsize ≤ intMax) (divides : blocksize ∣ bufsize) (pageSize lbuf base : Nat) {segments : List SegPtr}
    (length : segments.length = bufsize / blocksize) (i : Nat) (below : i ≤ bufsize / blocksize) :
    (forRange i (segmentPass pageSize lbuf (initIov base (bufsize / blocksize) blocksize) segments) 0).out =
      .ok (copied (forRange i (segmentPass pageSize lbuf (initIov base (bufsize / blocksize) blocksize) segments) 0).acts : Int) := by
  have whole : total (initIov base (bufsize / blocksize) blocksize) = bufsize := by rw [initIov_total,Nat.div_mul_cancel divides]
  have same : (initIov base (bufsize / blocksize) blocksize).length = segments.length := by rw [initIov_length,length]
  have bound := total_take_le (initIov base (bufsize / blocksize) blocksize) i
  rw [segment_upto (Nat.le_of_eq same) i (by rw [initIov_length]; exact below)]
  dsimp only
  rw [copied_segments,List.map_take,List.map_fst_zip (Nat.le_of_eq same)]
  have offset := @offset_exact 0 ((initIov base (bufsize / blocksize) blocksize).take i) (by omega)
  rw [Nat.zero_add] at offset
  exact congrArg _ offset

def Announces (count : Int) : Act → Prop
  | .bcast .iov given => given = count
  | _ => True

theorem quiet_announces {count : Int} {act : Act} (quiet : callKind act = none) : Announces count act := by
  cases act with
  | bcast what given => cases quiet
  | _ => trivial

theorem labelled {property : Act → Prop} {run : Run Fault Act β} (each : ∀ act ∈ run.acts, property act) (stamp : Option Nat) :
    ∀ event ∈ (run.label (Prod.mk stamp)).acts, property event.2 := by
  intro event member
  obtain ⟨act,issued,rfl⟩ := List.mem_map.mp member
  exact each act issued

theorem cma_announces (role : Role) (readv : Int → Int → Nat) (riov liov : List IoVec) (nblocks : Int) :
    ∀ act ∈ (cmaIteration role limit readv liov riov nblocks bufsize).acts, Announces (iovecBytes nblocks) act := by
  cases role with
  | sender =>
      refine Run.chain_acts _ (Run.emit_each rfl) fun _ => ?_
      exact Run.emit_each trivial
  | receiver =>
      refine Run.chain_acts _ (Run.emit_each rfl) fun _ => Run.chain_acts _ ?_ fun s => Run.chain_acts _ ?_ fun _ => Run.emit_each trivial
      · intro act member
        exact quiet_announces (loop_acts (fun act => callKind act = none) Fault.unfinished
          (cmaStep_quiet _ _ readv liov riov) _ _ act member)
      · intro act member
        unfold assert at member
        split at member <;> cases member

theorem xpmem_announces (role : Role) (attachNow detachNow : Bool) (pageSize lbuf : Nat) (driver : XpmemDriver) (iov : List IoVec)
    (nblocks : Int) (j : Nat) (s : XpmemState) :
    ∀ act ∈ (xpmemIteration role attachNow detachNow pageSize lbuf driver iov nblocks j s).acts, Announces (iovecBytes nblocks) act := by
  cases role with
  | sender =>
      refine Run.chain_acts _ (Run.emit_each rfl) fun _ => Run.chain_acts _ (Run.emit_each trivial) fun _ => ?_
      exact nofun
  | receiver =>
      refine Run.chain_acts _ (Run.emit_each rfl) fun _ => Run.chain_acts _ ?_ fun t => Run.chain_acts _ ?_ fun _ =>
        Run.chain_acts _ ?_ fun _ => Run.chain_acts _ (Run.emit_each trivial) fun _ => nofun
      · intro act member
        exact quiet_announces (attaching_quiet (attachSegments_quiet attachNow pageSize driver iov nblocks j s) act member)
      · exact forFrom_acts _ fun i offset act member => quiet_announces (segmentPass_quiet pageSize t.attachedSeglist i offset act member)
      · unfold detachSegments
        split
        · exact forFrom_acts _ fun i none act member => quiet_announces (detachPass_quiet t.attachedSeglist i none act member)
        · exact nofun

theorem cleanup_acts {property : Stamped → Prop} {body : Run Fault Stamped XpmemState} (each : ∀ event ∈ body.acts, property event)
    (released : ∀ apid, property (none,.xpmemRelease apid)) : ∀ event ∈ (cleanup body).acts, property event := by
  have more : ∀ apid, ∀ event ∈ body.acts ++ release apid, property event := by
    intro apid event member
    rcases List.mem_append.mp member with issued | last
    · exact each event issued
    · rw [release_mem last]
      exact released apid
  unfold cleanup
  split
  · exact more _
  · exact more _
  · exact each

theorem benchmarkCma_announces (role : Role) (readv : Nat → Int → Int → Nat) (riov : Nat → List IoVec) (liov : List IoVec) (lbuf : Nat) :
    ∀ event ∈ (benchmarkCma role iters limit readv riov liov lbuf bufsize blocksize).acts,
      Announces (iovecBytes (toInt (bufsize / blocksize))) event.2 := by
  unfold benchmarkCma
  rw [initBuffer_run]
  refine Run.chain_acts _ ?_ fun _ => Run.chain_acts _ ?_ fun _ => Run.chain_acts _ ?_ fun _ => ?_
  · exact Run.emit_each trivial
  · exact Run.emit_each trivial
  · exact forFrom_acts _ fun j _ => labelled (cma_announces role (readv j) (riov j) liov _) (some j)
  · exact Run.emit_each trivial

theorem benchmarkXpmem_announces (role : Role) (attachNow detachNow : Nat → Bool) (pageSize lbuf : Nat) (driver : XpmemDriver)
    (iov : Nat → List IoVec) (apid : Nat) :
    ∀ event ∈ (benchmarkXpmem role attachNow detachNow iters pageSize lbuf driver iov bufsize blocksize apid).acts,
      Announces (iovecBytes (toInt (bufsize / blocksize))) event.2 := by
  unfold benchmarkXpmem
  dsimp only
  split
  · exact nofun
  · rw [initBuffer_run]
    apply @cleanup_acts (fun event => Announces (iovecBytes (toInt (bufsize / blocksize))) event.2) _ ?_ (fun _ => trivial)
    refine Run.chain_acts _ ?_ fun _ => Run.chain_acts _ ?_ fun _ => Run.chain_acts _ ?_ fun _ => Run.chain_acts _ ?_ fun _ => nofun
    · exact Run.emit_each trivial
    · exact Run.emit_each trivial
    · exact forFrom_acts _ fun j s => labelled (xpmem_announces role _ _ pageSize lbuf driver (iov j) _ j s) (some j)
    · exact Run.emit_each trivial

-- A count that is right brings the whole list.
theorem announces_whole (lists : 16 * nblocks ≤ intMax) {act : Act} (announces : Announces (iovecBytes nblocks) act) : WholeList nblocks act := by
  cases act with
  | bcast what count =>
      cases what with
      | iov =>
          have bytes := @iovecBytes_exact nblocks (by omega)
          have given : count = iovecBytes nblocks := announces
          rw [given,bytes]
          refine ⟨by rw [Nat.mul_comm,Int.natCast_mul]; rfl,fun sent own entries room => ?_⟩
          rw [delivered,Int.toNat_natCast,Nat.mul_div_cancel _ (by decide),List.take_of_length_le (by omega),
            List.drop_eq_nil_of_le (by omega),List.append_nil]
      | _ => trivial
  | _ => trivial

theorem sender_announces (some_iteration : 0 < iters) (readv : Nat → Int → Int → Nat) (riov : Nat → List IoVec) (liov : List IoVec)
    (lbuf : Nat) : (some 0,.bcast .iov (iovecBytes (toInt (bufsize / blocksize)))) ∈
      (benchmarkCma .sender iters limit readv riov liov lbuf bufsize blocksize).acts := by
  obtain ⟨count,rfl⟩ : ∃ count, iters = count + 1 := ⟨iters-1,by omega⟩
  unfold benchmarkCma
  rw [initBuffer_run]
  refine List.mem_cons_of_mem _ (List.mem_cons_of_mem _ (Run.chain_keeps _ _ (Run.chain_keeps _ _ ?_)))
  exact List.mem_cons_self

end

-- Every sweep step of a buffer that main admits and benchmark_shmem_pip can move, with both
-- values that sysconf(_SC_IOV_MAX) can have.
theorem ints_exact {bufsize blocksize iters : Nat} (filled : 0 < bufsize) (small : bufsize ≤ intMax) (depth : shmemPipelineDepth ∣ bufsize)
    (bytes : 0 < blocksize) (divides : blocksize ∣ bufsize) (some_iteration : 0 < iters) (limit : Int) (posix : limit = -1 ∨ 1 ≤ limit)
    (long : limit < 9223372036854775808) :
    IntsExact limit iters bufsize blocksize ↔ 16 * (bufsize / blocksize) ≤ intMax ∧ 1 ≤ limit := by
  have count := nblocks_exact bufsize blocksize small
  have some_blocks : 1 ≤ bufsize / blocksize := Nat.div_pos (Nat.le_of_dvd filled divides) bytes
  constructor
  · intro ints
    constructor
    · have whole := (ints.cma .sender (fun _ _ _ => 0) (fun _ => []) [] 0 _ (sender_announces some_iteration _ _ _ _)).1
      have bound := (toInt_isInt (mulSize (toSize (toInt (bufsize / blocksize))) 16)).2
      change iovecBytes (toInt (bufsize / blocksize)) ≤ _ at bound
      omega
    · rcases posix with rfl | positive
      · obtain ⟨acts,total,visit⟩ := @refused_visits bufsize (bufsize / blocksize) [] [] some_blocks filled (intMax + 2)
          (by simp only [sizeMod,intMax] at *; omega)
        rw [← count] at visit
        have bound := (ints.batches _ _ _ _ _ _ visit).2.1
        simp only [intMax] at bound
        omega
      · exact positive
  · rintro ⟨lists,positive⟩
    have whole := Nat.div_mul_cancel divides
    have lists_whole : ∀ act, Announces (iovecBytes (toInt (bufsize / blocksize))) act → WholeList (bufsize / blocksize) act := by
      rw [count]
      exact fun act => announces_whole lists
    exact {
      nblocks := count
      plain := fun lbuf ptr => ⟨plain_ints small divides .sender lbuf ptr,plain_ints small divides .receiver lbuf ptr⟩
      pipelined := pip_ints small bytes divides depth
      batches := fun readv liov riov k acts s visit => by
        refine ⟨batches_handed visit,?_⟩
        rw [count,← whole,Nat.mul_div_cancel _ bytes] at visit
        exact batches_ints positive long some_blocks lists visit
      segments := fun pageSize lbuf base segments length i below => segments_ints small divides pageSize lbuf base length i below
      cma := fun role readv riov liov lbuf event member =>
        lists_whole _ (benchmarkCma_announces role readv riov liov lbuf event member)
      nocache := fun role pageSize lbuf driver iov apid event member =>
        lists_whole _ (benchmarkXpmem_announces role _ _ pageSize lbuf driver iov apid event member)
      cached := fun role pageSize lbuf driver iov apid event member =>
        lists_whole _ (benchmarkXpmem_announces role _ _ pageSize lbuf driver iov apid event member)}

theorem ints_exact_one_mebibyte : IntsExact 1024 110 1048576 64 :=
  (@ints_exact 1048576 64 110 (by decide) (by decide) (by decide) (by decide) (by decide) (by decide) 1024 (.inr (by decide))
    (by decide)).mpr ⟨by decide,by decide⟩

-- 2^27 blocks of one byte: the count of the list is -2^31.
theorem ints_inexact : ¬ IntsExact 1024 110 134217728 1 := by
  intro ints
  have whole := (ints.cma .sender (fun _ _ _ => 0) (fun _ => []) [] 0 _ (sender_announces (by decide) _ _ _ _)).1
  revert whole
  decide

end MpidtBench.IntExact
