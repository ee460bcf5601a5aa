import MpidtBench.Proofs.AttachSplits
import MpidtBench.Proofs.SweepShape
import MpidtBench.Proofs.SweepArithmetic

namespace MpidtBench.StandaloneProgress
open Traced CInteger ScatterGather Collective MpidtBench PipelineProtocol XpmemLoops XpmemFailure AttachSplits SweepShape

def Served (iters : Nat) (node : Node) (bench : Bench) : Prop := bench = .xpmemNocache ∨ bench = .xpmemCached →
  ∀ j < iters, attachNow bench j = true → Granted (attachNow bench) node.pageSize node.driver (fun _ => node.received) j

-- A run that returns and that no call stops, a receiver's list having an entry for each block.
structure Orderly (role : Role) (iters full : Nat) (node : Node) (source : Nat) (bench : Bench) (blocksize bufsize : Int) : Prop where
  ended : (standalone bench role iters full node blocksize bufsize).out = .ok ()
  faultless : Faultless node.pageSize node.lbuf source (toSize bufsize)
    ((standalone bench role iters full node blocksize bufsize).acts.map Prod.snd)
  lists : role = .receiver → node.received.length = toSize bufsize / toSize blocksize

-- The calls of a program that is not left early.
def iterKinds (full bufsize : Nat) : Bench → List Kind
  | .shmemPip => List.replicate (bufsize / full) .bcast ++ [.gather]
  | _ => [.bcast,.gather]
def openKinds : Bench → List Kind
  | .shmem => [.barrier]
  | .shmemPip => [.barrier]
  | _ => [.bcast,.barrier]
def programKinds (bench : Bench) (iters full bufsize : Nat) : List Kind :=
  openKinds bench ++ ((List.range iters).flatMap (fun _ => iterKinds full bufsize bench) ++ [.barrier])

section
variable {role : Role} {iters full lbuf bufsize blocksize nblocks : Nat} {liov : List IoVec} {node : Node} {bench : Bench}

def freedBuffer (lbuf : Nat) : List Stamped := if lbuf ≠ 0 then [(none,.free lbuf)] else []

theorem freeBuffer_run (lbuf : Nat) : freeBuffer lbuf = ⟨freedBuffer lbuf,.ok ()⟩ := by
  unfold freeBuffer freedBuffer
  split <;> rfl

theorem freedBuffer_kinds (lbuf : Nat) : kinds stampedKind (freedBuffer lbuf) = [] := by
  unfold freedBuffer
  split <;> rfl

theorem loop_kinds {iteration : Nat → Run Fault Act Unit} {block : List Kind}
    (each : ∀ j, (iteration j).out = .ok () → kinds callKind (iteration j).acts = block)
    (ended : (forRange iters (fun j _ => (iteration j).label (Prod.mk (some j))) ()).out = .ok ()) :
    kinds stampedKind (forRange iters (fun j _ => (iteration j).label (Prod.mk (some j))) ()).acts = (List.range iters).flatMap fun _ => block := by
  obtain ⟨blocks,acts,shapes⟩ := forRange_blocks (fun _ list => kinds stampedKind list = block) (fun j _ _ passed => by
    rw [Run.label_acts,kinds,List.filterMap_map]
    exact each j passed) ended
  rw [acts,kinds_flatMap]
  exact List.flatMap_congr fun j member => shapes j (List.mem_range.mp member)

theorem handshake_kinds {rts : Act} {acts : List Act} (bcast : callKind rts = some .bcast) (shape : Handshake role rts acts) :
    kinds callKind acts = [.bcast,.gather] := by
  obtain ⟨lead,trail,rfl,quiet,_⟩ := shape
  rw [kinds_append,kinds_local fun act member => quiet act (List.mem_append_left _ member),kinds_call bcast,kinds_append,
    kinds_local fun act member => quiet act (List.mem_append_right _ member)]
  rfl

theorem cmaDt_handshake {limit : Int} {readv : Int → Int → Nat} {riov : List IoVec}
    (ended : (cmaDtIteration role limit readv liov riov nblocks bufsize).out = .ok ()) :
    Handshake role (.bcast .iov (iovecBytes nblocks)) (cmaDtIteration role limit readv liov riov nblocks bufsize).acts := by
  cases role with
  | sender => exact ⟨[],[],rfl,nofun,fun _ => rfl,fun _ => rfl⟩
  | receiver =>
      have quiet : ∀ act ∈ (loop .unfinished (cmaDtStep limit nblocks readv liov riov) (cmaFuel nblocks) (CmaState.start bufsize)).acts,
          callKind act = none := loop_acts (fun act => callKind act = none) Fault.unfinished (cmaStep_quiet _ _ readv liov riov) _ _
      exact copying_handshake quiet ended

theorem region_parts {iteration : Run Fault Act Unit} (ended : (regionProgram role iters lbuf bufsize iteration).out = .ok ()) :
    (forRange iters (fun j _ => iteration.label (Prod.mk (some j))) ()).out = .ok () ∧
      (regionProgram role iters lbuf bufsize iteration).acts = (none,.memset lbuf (initByte role) bufsize) :: (none,.barrier) ::
        ((forRange iters (fun j _ => iteration.label (Prod.mk (some j))) ()).acts ++ (none,.barrier) :: freedBuffer lbuf) := by
  unfold regionProgram at ended ⊢
  rw [initBuffer_run,freeBuffer_run] at ended ⊢
  generalize forRange iters (fun j _ => iteration.label (Prod.mk (some j))) () = looping at ended ⊢
  obtain ⟨_,_,barrier,first⟩ := Run.chain_parts ended
  obtain ⟨_,_,looped,second⟩ := Run.chain_parts barrier
  obtain ⟨_,passed,_,third⟩ := Run.chain_parts looped
  exact ⟨passed,by rw [first,second,third]; rfl⟩

theorem region_kinds {iteration : Run Fault Act Unit} {block : List Kind}
    (each : iteration.out = .ok () → kinds callKind iteration.acts = block) (ended : (regionProgram role iters lbuf bufsize iteration).out = .ok ()) :
    kinds stampedKind (regionProgram role iters lbuf bufsize iteration).acts =
      .barrier :: ((List.range iters).flatMap (fun _ => block) ++ [.barrier]) := by
  obtain ⟨looped,acts⟩ := region_parts ended
  have rounds := loop_kinds (fun _ => each) looped
  rw [acts]
  change .barrier :: kinds stampedKind (_ ++ _) = _
  rw [kinds_append,rounds]
  change .barrier :: (_ ++ .barrier :: kinds stampedKind (freedBuffer lbuf)) = _
  rw [freedBuffer_kinds]

theorem shmemDt_kinds {ptr : Nat} (ended : (shmemDt role iters ptr lbuf liov bufsize blocksize).out = .ok ()) :
    kinds stampedKind (shmemDt role iters ptr lbuf liov bufsize blocksize).acts = programKinds .shmem iters full bufsize :=
  region_kinds (fun passed => handshake_kinds rfl (shmem_handshake passed)) ended

theorem shmemPipelineDt_kinds {ptr : Nat} (small : bufsize ≤ intMax) (bytes : 0 < blocksize) (nonzero : 0 < full) (sized : full < sizeMod)
    (ended : (shmemPipelineDt role iters full ptr lbuf (initIov lbuf (bufsize / blocksize) blocksize) bufsize blocksize).out = .ok ()) :
    kinds stampedKind (shmemPipelineDt role iters full ptr lbuf (initIov lbuf (bufsize / blocksize) blocksize) bufsize blocksize).acts =
      programKinds .shmemPip iters full bufsize := by
  refine region_kinds (fun passed => ?_) ended
  obtain ⟨whole,divides⟩ := pip_complete small bytes nonzero sized passed
  rw [pipIteration_run (initIov_positive bytes) whole initIov_length small nonzero sized divides,iterationActs_kinds,whole]
  rfl

theorem cmaDt_kinds {limit : Int} {readv : Nat → Int → Int → Nat} {riov : List IoVec}
    (ended : (cmaDt role iters limit readv liov riov lbuf bufsize nblocks).out = .ok ()) :
    kinds stampedKind (cmaDt role iters limit readv liov riov lbuf bufsize nblocks).acts = programKinds .cma iters full bufsize := by
  unfold cmaDt at ended ⊢
  rw [freeBuffer_run] at ended ⊢
  have rounds := @loop_kinds iters (fun j => cmaDtIteration role limit (readv j) liov riov nblocks bufsize) [.bcast,.gather]
    fun j passed => handshake_kinds rfl (cmaDt_handshake passed)
  generalize forRange iters (fun j _ => (cmaDtIteration role limit (readv j) liov riov nblocks bufsize).label (Prod.mk (some j))) () = looping
    at ended rounds ⊢
  simp only [Run.emit_chain,Run.ok_chain] at ended ⊢
  obtain ⟨_,passed,_,acts⟩ := Run.chain_parts ended
  rw [acts]
  change .bcast :: .barrier :: kinds stampedKind (_ ++ (_ ++ _)) = _
  rw [kinds_append,kinds_append,freedBuffer_kinds,rounds passed]
  rfl

def detachNow (iters : Nat) : Bench → Nat → Bool
  | .xpmemCached => fun j => !useCache || j+1 == iters
  | _ => fun _ => true

-- The loop of an XPMEM program, and what it does around it.
def xpmemBody (bench : Bench) (role : Role) (iters : Nat) (node : Node) (nblocks : Nat) : Run Fault Stamped XpmemState :=
  xpmemLoop role (attachNow bench) (detachNow iters bench) iters node.pageSize node.lbuf node.driver (fun _ => node.received) nblocks node.apid
def xpmemActs (role : Role) (lbuf bufsize : Nat) (issued : List Stamped) : List Stamped :=
  (none,.bcast .segid 8) :: (none,.memset lbuf (initByte role) bufsize) :: (none,.barrier) :: (issued ++ [(none,.free lbuf),(none,.barrier)])

theorem xpmem_form (xpmem : bench = .xpmemNocache ∨ bench = .xpmemCached) :
    standaloneProgram bench role iters full node blocksize bufsize nblocks = (do
      Run.emit (none,.bcast .segid 8)
      (initBuffer role node.lbuf bufsize).label (Prod.mk none)
      Run.emit (none,.barrier)
      cleanup (xpmemBody bench role iters node (bufsize / blocksize))
      Run.emit (none,.free node.lbuf)
      Run.emit (none,.barrier)) := by
  rcases xpmem with rfl | rfl
  · rfl
  · have same := @empty_loop (fun j => useCache && j == 0) (detachNow iters .xpmemCached) node.pageSize node.lbuf (bufsize / blocksize) iters
      node.driver (fun _ => node.received) role rfl node.apid
    simp only [standaloneProgram,xpmemCacheDt]
    rw [show cleanup (xpmemBody .xpmemCached role iters node (bufsize / blocksize)) = _ from same.symm]
    rfl

theorem xpmem_run (xpmem : bench = .xpmemNocache ∨ bench = .xpmemCached) {issued : List Stamped}
    (cleaned : cleanup (xpmemBody bench role iters node (bufsize / blocksize)) = ⟨issued,.ok ()⟩) :
    standaloneProgram bench role iters full node blocksize bufsize nblocks = ⟨xpmemActs role node.lbuf bufsize issued,.ok ()⟩ := by
  rw [xpmem_form xpmem,cleaned,initBuffer_run]
  rfl

theorem xpmem_keeps (xpmem : bench = .xpmemNocache ∨ bench = .xpmemCached) {event : Stamped}
    (member : event ∈ (xpmemBody bench role iters node (bufsize / blocksize)).acts) :
    event ∈ (standaloneProgram bench role iters full node blocksize bufsize nblocks).acts := by
  have kept : event ∈ (cleanup (xpmemBody bench role iters node (bufsize / blocksize))).acts := by
    generalize xpmemBody bench role iters node (bufsize / blocksize) = body at member ⊢
    unfold cleanup
    split
    · exact List.mem_append_left _ member
    · exact List.mem_append_left _ member
    · exact member
  rw [xpmem_form xpmem,initBuffer_run]
  exact List.mem_cons_of_mem _ (List.mem_cons_of_mem _ (List.mem_cons_of_mem _ (Run.chain_keeps _ _ kept)))

theorem cleanup_kinds {body : Run Fault Stamped XpmemState} (ended : (∃ s, body.out = .ok s) ∨ ∃ last, body.out = .error (.cleanup last)) :
    ∃ issued, cleanup body = ⟨issued,.ok ()⟩ ∧ kinds stampedKind issued = kinds stampedKind body.acts := by
  have silent : ∀ apid, kinds stampedKind (body.acts ++ release apid) = kinds stampedKind body.acts := by
    intro apid
    rw [kinds_append]
    unfold release
    split <;> simp [kinds,stampedKind,callKind]
  rcases ended with ⟨s,ended⟩ | ⟨last,stopped⟩
  · exact ⟨_,by simp only [cleanup,ended],silent s.apid⟩
  · exact ⟨_,by simp only [cleanup,stopped],silent last⟩

theorem xpmemActs_kinds (issued : List Stamped) : kinds stampedKind (xpmemActs role lbuf bufsize issued) =
    .bcast :: .barrier :: (kinds stampedKind issued ++ [.barrier]) := by
  change .bcast :: .barrier :: kinds stampedKind (issued ++ _) = _
  rw [kinds_append]
  rfl

-- An XPMEM program is gone through to its end, or left at the first refused page.
theorem xpmem_calls (xpmem : bench = .xpmemNocache ∨ bench = .xpmemCached) (count : role = .receiver → node.received.length = bufsize / blocksize)
    (faultless : Faultless node.pageSize node.lbuf source bufsize
      ((standaloneProgram bench role iters full node blocksize bufsize nblocks).acts.map Prod.snd)) :
    ((role = .receiver → Served iters node bench) ∧
      kinds stampedKind (standaloneProgram bench role iters full node blocksize bufsize nblocks).acts = programKinds bench iters full bufsize) ∨
    (role = .receiver ∧ ¬ Served iters node bench ∧ ∃ j < iters,
      kinds stampedKind (standaloneProgram bench role iters full node blocksize bufsize nblocks).acts =
        .bcast :: .barrier :: (roundKinds j ++ [.bcast,.barrier])) := by
  have whole : ∀ {called}, kinds stampedKind (xpmemBody bench role iters node (bufsize / blocksize)).acts = called →
      ((∃ s, (xpmemBody bench role iters node (bufsize / blocksize)).out = .ok s) ∨
        ∃ last, (xpmemBody bench role iters node (bufsize / blocksize)).out = .error (.cleanup last)) →
      kinds stampedKind (standaloneProgram bench role iters full node blocksize bufsize nblocks).acts =
        .bcast :: .barrier :: (called ++ [.barrier]) := by
    intro called same ended
    obtain ⟨issued,cleaned,issuedKinds⟩ := cleanup_kinds ended
    rw [xpmem_run xpmem cleaned,xpmemActs_kinds,issuedKinds,same]
  have complete : programKinds bench iters full bufsize = .bcast :: .barrier :: (roundKinds iters ++ [.barrier]) := by
    rcases xpmem with rfl | rfl <;> rfl
  cases role with
  | sender =>
      obtain ⟨ended,called⟩ := @sender_kinds (attachNow bench) (detachNow iters bench) node.pageSize node.lbuf (bufsize / blocksize) iters
        node.driver (fun _ => node.received) node.apid
      exact .inl ⟨nofun,by rw [whole called (.inl ended),complete]⟩
  | receiver =>
      have kept : NoFailedCopy (xpmemBody bench .receiver iters node (bufsize / blocksize)).acts := by
        intro stamp dst pgOff len member
        exact faultless_attached faultless (List.mem_map.mpr ⟨_,xpmem_keeps xpmem member,rfl⟩)
      rcases loop_either (fun _ => count rfl) node.apid kept with ⟨granted,ended,called⟩ | ⟨refused,stopped,j,below,called⟩
      · exact .inl ⟨fun _ _ => granted,by rw [whole called (.inl ended),complete]⟩
      · refine .inr ⟨rfl,fun served => refused (served xpmem),j,below,?_⟩
        rw [whole called (.inr stopped),List.append_assoc]
        rfl

end
section
variable {size iters full : Nat} {bench : Bench} {blocksize bufsize : Int} {sender : Fin size} {node : Fin size → Node}

theorem standalone_sizes {role : Role} {own : Node} (bytes : 0 < toSize blocksize) (some_bytes : 0 < toSize bufsize) :
    standalone bench role iters full own blocksize bufsize =
      standaloneProgram bench role iters full own (toSize blocksize) (toSize bufsize) (toSize bufsize / toSize blocksize) := by
  unfold standalone standaloneSizes
  rw [divide_some bytes,Run.pure_chain,assert,if_pos (decide_eq_true bytes),Run.pure_chain,assert,if_pos (decide_eq_true some_bytes)]
  rfl

theorem standalone_parts {role : Role} {own : Node} (ended : (standalone bench role iters full own blocksize bufsize).out = .ok ()) :
    0 < toSize blocksize ∧ 0 < toSize bufsize ∧ standalone bench role iters full own blocksize bufsize =
      standaloneProgram bench role iters full own (toSize blocksize) (toSize bufsize) (toSize bufsize / toSize blocksize) := by
  by_cases bytes : 0 < toSize blocksize
  · by_cases some_bytes : 0 < toSize bufsize
    · exact ⟨bytes,some_bytes,standalone_sizes bytes some_bytes⟩
    · unfold standalone standaloneSizes at ended
      rw [divide_some bytes,Run.pure_chain,assert,if_pos (decide_eq_true bytes),Run.pure_chain,assert,if_neg (by simpa using some_bytes)] at ended
      cases ended
  · unfold standalone standaloneSizes at ended
    rw [divide,if_pos (by omega)] at ended
    cases ended

-- The calls of a rank are the sender's, or they part at its first refused page.
theorem standalone_follows (nonzero : 0 < full) (sized : full < sizeMod) (small : toSize bufsize ≤ intMax)
    (orderly : ∀ r, Orderly (roleOf sender r) iters full (node r) (node sender).lbuf bench blocksize bufsize) (r : Fin size) :
    SameOrSplit ((standaloneSystem bench sender iters full blocksize bufsize node).schedule r)
      ((standaloneSystem bench sender iters full blocksize bufsize node).schedule sender) (r ≠ sender → Served iters (node r) bench) := by
  have kinds_of : ∀ r, (standaloneSystem bench sender iters full blocksize bufsize node).schedule r =
      kinds stampedKind (standaloneProgram bench (roleOf sender r) iters full (node r) (toSize blocksize) (toSize bufsize)
        (toSize bufsize / toSize blocksize)).acts := fun r => by
    rw [← (standalone_parts (orderly r).ended).2.2]
    rfl
  have passed : ∀ r, (standaloneProgram bench (roleOf sender r) iters full (node r) (toSize blocksize) (toSize bufsize)
      (toSize bufsize / toSize blocksize)).out = .ok () := by
    intro r
    rw [← (standalone_parts (orderly r).ended).2.2]
    exact (orderly r).ended
  have bytes := (standalone_parts (orderly r).ended).1
  by_cases xpmem : bench = .xpmemNocache ∨ bench = .xpmemCached
  · have calls := fun q => @xpmem_calls (roleOf sender q) iters full (toSize bufsize) (toSize blocksize) (toSize bufsize / toSize blocksize)
      (node q) bench (node sender).lbuf xpmem (orderly q).lists (by
        rw [← (standalone_parts (orderly q).ended).2.2]
        exact (orderly q).faultless)
    have complete : (standaloneSystem bench sender iters full blocksize bufsize node).schedule sender =
        programKinds bench iters full (toSize bufsize) := by
      rw [kinds_of sender]
      rcases calls sender with ⟨_,same⟩ | ⟨receives,_⟩
      · exact same
      · rw [root_role] at receives
        cases receives
    rw [kinds_of r]
    rcases calls r with ⟨served,same⟩ | ⟨receives,refused,j,below,called⟩
    · exact .same (same.trans complete.symm) fun apart => served (other_role apart)
    · have apart : r ≠ sender := fun root => by
        rw [root,root_role] at receives
        cases receives
      obtain ⟨later,split⟩ := roundKinds_split below
      have last : Kind.barrier ∈ later ++ [.barrier] := by simp
      have splits := clashes_split (.bcast :: .barrier :: (roundKinds j ++ [.bcast])) (@Clashes.gather _ [] last)
      have whole : programKinds bench iters full (toSize bufsize) = .bcast :: .barrier :: (roundKinds iters ++ [.barrier]) := by
        rcases xpmem with rfl | rfl <;> rfl
      rw [complete,called,whole,split]
      exact .split (by simpa using splits) fun joins => refused (joins apart)
  · have same : ∀ r, (standaloneSystem bench sender iters full blocksize bufsize node).schedule r =
        programKinds bench iters full (toSize bufsize) := by
      intro r
      have ended := passed r
      rw [kinds_of r]
      cases bench with
      | shmem => exact shmemDt_kinds ended
      | shmemPip => exact shmemPipelineDt_kinds small bytes nonzero sized ended
      | cma => exact cmaDt_kinds ended
      | xpmemNocache => exact absurd (.inl rfl) xpmem
      | xpmemCached => exact absurd (.inr rfl) xpmem
    exact .same ((same r).trans (same sender).symm) fun _ given => absurd given xpmem

end

-- A program with one benchmark on any number of ranks: either in every order of steps all get
-- through it, or in no order does any rank, and a refused page decides which.
theorem standalone_finishes {size : Nat} (bench : Bench) (sender : Fin size) (iters full : Nat) (blocksize bufsize : Int)
    (node : Fin size → Node) (nonzero : 0 < full) (sized : full < sizeMod) (small : toSize bufsize ≤ intMax)
    (orderly : ∀ r, Orderly (roleOf sender r) iters full (node r) (node sender).lbuf bench blocksize bufsize) :
    (System.Finishes (standaloneSystem bench sender iters full blocksize bufsize node) ↔ ∀ r ≠ sender, Served iters (node r) bench) ∧
    ((¬ ∀ r ≠ sender, Served iters (node r) bench) →
      ∀ cfg, (standaloneSystem bench sender iters full blocksize bufsize node).Reached cfg →
        ∀ r, ¬ (standaloneSystem bench sender iters full blocksize bufsize node).Through cfg r) :=
  System.splits_finish fun r => standalone_follows nonzero sized small orderly r

-- Blocks of half a page on three ranks, with a driver that grants the page and with one that
-- refuses it to rank 1.
def tinyNode (rank : Nat) : Node where
  lbuf := 64 + 64 * rank
  pageSize := 8
  limit := 1024
  shmemPtr := 1024 + 64 * rank
  readv _ _ count := count.toNat * 4
  received := initIov 64 2 4
  driver := ⟨1,fun _ => 7,fun _ _ offset _ => some (4096 + offset)⟩
  apid := 0
def refusedNode (rank : Nat) : Node :=
  if rank = 1 then {tinyNode rank with driver := ⟨1,fun _ => 7,fun _ _ _ _ => none⟩} else tinyNode rank

theorem standalone_finishes_three_ranks :
    System.Finishes (standaloneSystem .xpmemCached (0 : Fin 3) 2 4 4 8 fun r => tinyNode r) ∧
    ∀ cfg, (standaloneSystem .xpmemCached (0 : Fin 3) 2 4 4 8 fun r => refusedNode r).Reached cfg →
      ∀ r, ¬ (standaloneSystem .xpmemCached (0 : Fin 3) 2 4 4 8 fun r => refusedNode r).Through cfg r := by
  have granted := standalone_finishes .xpmemCached (0 : Fin 3) 2 4 4 8 (fun r => tinyNode r) (by decide) (by decide) (by decide) (fun
    | 0 => ⟨by decide +kernel,⟨by decide,by decide +kernel,by decide +kernel⟩,fun _ => rfl⟩
    | 1 => ⟨by decide +kernel,⟨by decide,by decide +kernel,by decide +kernel⟩,fun _ => rfl⟩
    | 2 => ⟨by decide +kernel,⟨by decide,by decide +kernel,by decide +kernel⟩,fun _ => rfl⟩)
  have refused := standalone_finishes .xpmemCached (0 : Fin 3) 2 4 4 8 (fun r => refusedNode r) (by decide) (by decide) (by decide) (fun
    | 0 => ⟨by decide +kernel,⟨by decide,by decide +kernel,by decide +kernel⟩,fun _ => rfl⟩
    | 1 => ⟨by decide +kernel,⟨by decide,by decide +kernel,by decide +kernel⟩,fun _ => rfl⟩
    | 2 => ⟨by decide +kernel,⟨by decide,by decide +kernel,by decide +kernel⟩,fun _ => rfl⟩)
  refine ⟨granted.1.mpr fun r _ _ _ _ _ _ _ _ _ => rfl,refused.2 fun served => ?_⟩
  have asked := served 1 (by decide) (.inr rfl) 0 (by decide) rfl 0 ⟨64,4⟩ rfl (fun _ => by decide)
  cases asked

end MpidtBench.StandaloneProgress
