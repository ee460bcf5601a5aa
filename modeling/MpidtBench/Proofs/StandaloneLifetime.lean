import MpidtBench.Library.Marked
import MpidtBench.Proofs.StandaloneProgress
import MpidtBench.Proofs.SweepDelivery

namespace MpidtBench.StandaloneLifetime
open Traced CInteger ScatterGather MpidtBench SweepWindows PipelineProtocol XpmemLoops AttachSplits SweepShape SweepTrace SweepDelivery
  StandaloneProgress
open Collective hiding Place

def fin (act : Act) : Bool := callKind act == some .gather

section
variable {role : Role} {iters full lbuf bufsize blocksize nblocks : Nat} {liov : List IoVec} {acts : List Act}

theorem quiet_unmarked (quiet : ∀ act ∈ acts, callKind act = none) : ∀ act ∈ acts, fin act = false := by
  intro act member
  rw [fin,quiet act member]
  rfl

theorem assert_silent (condition : Bool) : ∀ act ∈ (assert condition : Run Fault Act Unit).acts, fin act = false := by
  unfold assert
  split <;> exact fun _ member => absurd member List.not_mem_nil

theorem rts_unmarked {rts : Act} (bcast : callKind rts = some .bcast) : ∀ act ∈ (Run.emit rts : Run Fault Act Unit).acts, fin act = false := by
  intro act member
  rw [List.mem_singleton.mp member,fin,bcast]
  rfl

-- Every iteration of every program sends its FIN once, behind all else, or stops in front of it.
theorem shmemIteration_marked {ptr : Nat} : Marked fin (shmemIteration role ptr liov bufsize blocksize) := by
  cases role with
  | sender =>
      simp only [shmemIteration,if_true,ne_eq,not_true_eq_false,if_false]
      refine marked_chain (quiet_unmarked (copy_quiet (fun _ _ => rfl) blocksize bufsize)) fun _ => marked_chain (assert_silent _) fun _ => ?_
      exact marked_chain (rts_unmarked rfl) fun _ => marked_last rfl rfl
  | receiver =>
      simp only [shmemIteration,reduceCtorEq,if_false,ne_eq,not_false_eq_true,if_true]
      refine marked_chain (rts_unmarked rfl) fun _ => marked_chain (quiet_unmarked (copy_quiet (fun _ _ => rfl) blocksize bufsize)) fun _ => ?_
      exact marked_chain (assert_silent _) fun _ => marked_last rfl rfl

theorem pipPass_unmarked {copy : IoVec → Int → Int → Nat → Act} (quiet : ∀ v a b len, callKind (copy v a b len) = none) (s : PipState) :
    ∀ act ∈ (pipPass copy liov s).acts, fin act = false := by
  refine Run.chain_acts _ (fun act member => ?_) fun v act member => ?_
  · rw [readAt_silent] at member
    cases member
  · split at member
    · rw [List.mem_singleton.mp member,fin,quiet]
      rfl
    · rw [List.mem_singleton.mp member,fin,quiet]
      rfl

theorem pipStep_unmarked {copy : IoVec → Int → Int → Nat → Act} (quiet : ∀ v a b len, callKind (copy v a b len) = none) (niov : Int)
    (s : PipState) : ∀ act ∈ (pipStep role copy full liov niov s).acts, fin act = false := by
  have step : ∀ (rts : Prop) [Decidable rts] (next : PipState), ∀ act ∈ (if rts then Run.emit (.bcast .dummy 1) >>= fun _ => pure (.inl next)
      else pure (.inl next) : Run Fault Act (PipState ⊕ PipState)).acts, fin act = false := by
    intro rts _ next act member
    split at member
    · exact rts_unmarked rfl act member
    · cases member
  unfold pipStep
  cases s.head with
  | outer =>
      by_cases more : s.iovcnt < niov
      · simp only [more,if_true]
        exact step _ _
      · simp only [more,if_false]
        exact fun _ member => absurd member List.not_mem_nil
  | inner =>
      by_cases room : 0 < s.capacity
      · simp only [room,if_true]
        exact Run.chain_acts _ (pipPass_unmarked quiet s) fun _ _ member => absurd member List.not_mem_nil
      · simp only [room,if_false]
        exact step _ _

theorem asserts_acts (first second : Bool) : (assert first >>= fun _ => assert second : Run Fault Act Unit).acts = [] := by
  cases first <;> cases second <;> rfl

theorem pipIteration_marked {ptr : Nat} : Marked fin (pipIteration role full ptr liov bufsize blocksize) := by
  unfold pipIteration
  refine marked_chain (loop_acts (fun act => fin act = false) Fault.unfinished (fun s => ?_) _ _) fun s => ?_
  · cases role with
    | sender => exact pipStep_unmarked (fun _ _ _ _ => rfl) _ s
    | receiver => exact pipStep_unmarked (fun _ _ _ _ => rfl) _ s
  · exact marked_last rfl (congrArg (List.cons Act.gather) (asserts_acts _ _))

theorem cmaDtIteration_marked {limit : Int} {readv : Int → Int → Nat} {riov : List IoVec} :
    Marked fin (cmaDtIteration role limit readv liov riov nblocks bufsize) := by
  cases role with
  | sender => exact marked_chain (rts_unmarked rfl) fun _ => marked_last rfl rfl
  | receiver =>
      have quiet : ∀ act ∈ (loop .unfinished (cmaDtStep limit nblocks readv liov riov) (cmaFuel nblocks) (CmaState.start bufsize)).acts,
          callKind act = none := loop_acts (fun act => callKind act = none) Fault.unfinished (cmaStep_quiet _ _ readv liov riov) _ _
      refine marked_chain (rts_unmarked rfl) fun _ => marked_chain (quiet_unmarked quiet) fun _ => ?_
      exact marked_chain (assert_silent _) fun _ => marked_last rfl rfl

theorem xpmemIteration_marked {attachNow detachNow : Bool} {pageSize : Nat} {driver : XpmemDriver} {count : Int} {j : Nat} {s : XpmemState} :
    Marked fin (xpmemIteration role attachNow detachNow pageSize lbuf driver liov count j s) := by
  cases role with
  | sender => exact marked_chain (rts_unmarked rfl) fun _ => marked_last rfl rfl
  | receiver =>
      refine marked_chain (rts_unmarked rfl) fun _ => marked_chain (quiet_unmarked ?_) fun t => marked_chain (quiet_unmarked ?_) fun _ =>
        marked_chain (quiet_unmarked ?_) fun _ => marked_last rfl rfl
      · exact attaching_quiet (attachSegments_quiet attachNow pageSize driver liov count j s)
      · exact forFrom_acts (fun act => callKind act = none) (segmentPass_quiet pageSize t.attachedSeglist)
      · unfold detachSegments
        split
        · exact forFrom_acts (fun act => callKind act = none) (detachPass_quiet t.attachedSeglist)
        · exact fun _ member => absurd member List.not_mem_nil

def Frees (event : Stamped) : Prop := ∃ ptr, event = (none,.free ptr)
def Transfers (event : Stamped) : Prop := isTransfer event.2 = true
def finStamped (event : Stamped) : Bool := stampedKind event == some .gather

def OneBarrier (after : List Stamped) : Prop := after = [] ∨ after = [(none,.barrier)]

theorem one_barrier {after : List Stamped} (one : OneBarrier after) : ∀ event ∈ after, event = (none,.barrier) := by
  rcases one with rfl | rfl
  · exact fun _ member => absurd member List.not_mem_nil
  · exact fun _ member => List.mem_singleton.mp member

-- A program's transfers stand in front of its last FIN, and the sender's free behind so many.
structure Ordering (role : Role) (iters : Nat) (acts : List Stamped) : Prop where
  transfers : Early finStamped iters Transfers acts
  frees : role = .sender → Late finStamped iters Frees acts
  last : ∀ before event after, acts = before ++ event :: after → Frees event → OneBarrier after

theorem nothing_ordering : Ordering role iters [] := by
  refine ⟨?_,fun _ => late_none fun _ member => absurd member List.not_mem_nil,?_⟩
  · intro before event after split
    exact absurd split.symm (by simp)
  · intro before event after split
    exact absurd split.symm (by simp)

def Closing (back : List Stamped) : Prop := (∀ event ∈ back, ¬ Transfers event) ∧
  ∀ before event after, back = before ++ event :: after → Frees event → OneBarrier after

theorem closing_free {back tail : List Stamped} (calm : ∀ event ∈ back, ¬ Transfers event ∧ ¬ Frees event)
    (one : OneBarrier tail) (ptr : Nat) : Closing (back ++ (none,.free ptr) :: tail) := by
  constructor
  · intro event member moved
    rcases List.mem_append.mp member with before | later
    · exact (calm event before).1 moved
    · rcases List.mem_cons.mp later with rfl | behind
      · cases moved
      · rw [one_barrier one event behind] at moved
        cases moved
  · intro before event after split frees
    rcases append_split split with ⟨rest,here,_⟩ | ⟨rest,_,later⟩
    · exact absurd frees (calm event (by rw [here]; simp)).2
    · cases rest with
      | nil =>
          simp only [List.nil_append,List.cons.injEq] at later
          rw [← later.2]
          exact one
      | cons head more =>
          simp only [List.cons_append,List.cons.injEq] at later
          obtain ⟨ptr,rfl⟩ := frees
          have barrier := one_barrier one (none,.free ptr) (by rw [later.2]; simp)
          cases barrier

theorem closing_none {back : List Stamped} (calm : ∀ event ∈ back, ¬ Transfers event ∧ ¬ Frees event) : Closing back := by
  refine ⟨fun event member => (calm event member).1,fun before event after split frees => ?_⟩
  exact absurd frees (calm event (by rw [split]; simp)).2

theorem calm_barrier {acts : List Stamped} (one : OneBarrier acts) : ∀ event ∈ acts, ¬ Transfers event ∧ ¬ Frees event := by
  intro event member
  rw [one_barrier one event member]
  refine ⟨fun moved => ?_,?_⟩
  · cases moved
  · rintro ⟨ptr,same⟩
    cases same

theorem closing_buffer {back tail : List Stamped} (calm : ∀ event ∈ back, ¬ Transfers event ∧ ¬ Frees event)
    (one : OneBarrier tail) (lbuf : Nat) : Closing (back ++ (freedBuffer lbuf ++ tail)) := by
  unfold freedBuffer
  split
  · exact closing_free calm one lbuf
  · refine closing_none fun event member => ?_
    rcases List.mem_append.mp member with before | later
    · exact calm event before
    · exact calm_barrier one event later

-- Such a loop, with the free behind it.
theorem loop_ordering {front back : List Stamped} {iteration : Nat → σ → Run Fault Act σ} {s : σ} (each : ∀ j s, Marked fin (iteration j s))
    (ahead : ∀ event ∈ front, finStamped event = false ∧ ¬ Transfers event ∧ ¬ Frees event) (closing : Closing back)
    (whole : role = .sender → (∃ t, (forRange iters (fun j s => (iteration j s).label (Prod.mk (some j))) s).out = .ok t) ∨ back = []) :
    Ordering role iters (front ++ ((forRange iters (fun j s => (iteration j s).label (Prod.mk (some j))) s).acts ++ back)) := by
  have marks : ∀ j s, Marked finStamped ((iteration j s).label (Prod.mk (some j))) := fun j s => marked_label (each j s)
  obtain ⟨early,_,count⟩ := marked_loop marks 0 iters s
  have nothing : ∀ event ∈ front ++ (forRange iters (fun j s => (iteration j s).label (Prod.mk (some j))) s).acts, ¬ Frees event := by
    intro event member
    rcases List.mem_append.mp member with before | inside
    · exact (ahead event before).2.2
    · refine forFrom_acts (fun event : Stamped => ¬ Frees event) (fun j s event issued => ?_) event inside
      obtain ⟨act,_,rfl⟩ := List.mem_map.mp issued
      rintro ⟨ptr,free⟩
      cases free
  refine ⟨early_around early (fun event member => ⟨(ahead event member).1,(ahead event member).2.1⟩) closing.1,fun sends => ?_,?_⟩
  · rw [← List.append_assoc]
    rcases whole sends with ⟨t,ended⟩ | rfl
    · refine late_behind ?_ nothing back
      have all := count t ended
      rw [List.countP_append]
      unfold forRange
      omega
    · rw [List.append_nil]
      exact late_none nothing
  · intro before event after split frees
    rw [← List.append_assoc] at split
    rcases append_split split with ⟨rest,here,_⟩ | ⟨rest,rfl,later⟩
    · exact absurd frees (nothing event (by rw [here]; simp))
    · exact closing.2 rest event after later frees

-- A program that goes on behind its loop only if that ends.
theorem ended_ordering {front back acts : List Stamped} {iteration : Nat → Run Fault Act Unit} (each : ∀ j, Marked fin (iteration j))
    (ahead : ∀ event ∈ front, finStamped event = false ∧ ¬ Transfers event ∧ ¬ Frees event) (closing : Closing back)
    (shape : acts = front ++ ((forRange iters (fun j _ => (iteration j).label (Prod.mk (some j))) ()).acts ++
      match (forRange iters (fun j _ => (iteration j).label (Prod.mk (some j))) ()).out with
      | .ok _ => back
      | .error _ => [])) : Ordering role iters acts := by
  rw [shape]
  have marked : ∀ (j : Nat) (_ : Unit), Marked fin (iteration j) := fun j _ => each j
  cases reached : (forRange iters (fun j _ => (iteration j).label (Prod.mk (some j))) ()).out with
  | ok t => exact loop_ordering marked ahead closing fun _ => .inl ⟨t,reached⟩
  | error => exact loop_ordering marked ahead (closing_none fun _ member => absurd member List.not_mem_nil) fun _ => .inr rfl

theorem plain_event {act : Act} (free : ∀ ptr, act ≠ .free ptr) (gather : callKind act ≠ some .gather) (transfer : isTransfer act = false) :
    finStamped (none,act) = false ∧ ¬ Transfers (none,act) ∧ ¬ Frees (none,act) := by
  refine ⟨beq_eq_false_iff_ne.mpr gather,fun moved => ?_,?_⟩
  · rw [Transfers,transfer] at moved
    cases moved
  · rintro ⟨ptr,same⟩
    cases same
    exact free ptr rfl

theorem region_ordering {iteration : Run Fault Act Unit} (marked : Marked fin iteration) :
    Ordering role iters (regionProgram role iters lbuf bufsize iteration).acts := by
  refine @ended_ordering role iters [(none,.memset lbuf (initByte role) bufsize),(none,.barrier)] ((none,.barrier) :: freedBuffer lbuf) _
    (fun _ => iteration) (fun _ => marked) ?_ ?_ ?_
  · simp only [List.mem_cons,List.not_mem_nil,or_false,forall_eq_or_imp,forall_eq]
    exact ⟨plain_event nofun nofun rfl,plain_event nofun nofun rfl⟩
  · have closing := @closing_buffer [(none,.barrier)] [] (calm_barrier (.inr rfl)) (.inl rfl) lbuf
    rwa [List.append_nil] at closing
  · unfold regionProgram
    rw [initBuffer_run,freeBuffer_run]
    generalize forRange iters (fun j _ => iteration.label (Prod.mk (some j))) () = looping
    obtain ⟨issued,out⟩ := looping
    cases out with
    | ok => rfl
    | error => rw [List.append_nil]; rfl

theorem cmaDt_ordering {limit : Int} {readv : Nat → Int → Int → Nat} {riov : List IoVec} :
    Ordering role iters (cmaDt role iters limit readv liov riov lbuf bufsize nblocks).acts := by
  refine @ended_ordering role iters [(none,.memset lbuf 120 bufsize),(none,.bcast .rpid 4),(none,.barrier)]
    (freedBuffer lbuf ++ [(none,.barrier)]) _ (fun j => cmaDtIteration role limit (readv j) liov riov nblocks bufsize)
    (fun _ => cmaDtIteration_marked) ?_ ?_ ?_
  · simp only [List.mem_cons,List.not_mem_nil,or_false,forall_eq_or_imp,forall_eq]
    exact ⟨plain_event nofun nofun rfl,plain_event nofun nofun rfl,plain_event nofun nofun rfl⟩
  · exact @closing_buffer [] [(none,.barrier)] nofun (.inr rfl) lbuf
  · unfold cmaDt
    rw [freeBuffer_run]
    generalize forRange iters (fun j _ => (cmaDtIteration role limit (readv j) liov riov nblocks bufsize).label (Prod.mk (some j))) () = looping
    obtain ⟨issued,out⟩ := looping
    cases out with
    | ok => rfl
    | error => rw [List.append_nil]; rfl

theorem release_calm (apid : Nat) : ∀ event ∈ release apid, ¬ Transfers event ∧ ¬ Frees event := by
  intro event member
  rw [release_mem member]
  exact (@plain_event (.xpmemRelease apid) nofun nofun rfl).2

theorem xpmem_ordering {bench : Bench} {node : Node} (xpmem : bench = .xpmemNocache ∨ bench = .xpmemCached) :
    Ordering role iters (standaloneProgram bench role iters full node blocksize bufsize nblocks).acts := by
  have ahead : ∀ event ∈ [((none,.bcast .segid 8) : Stamped),(none,.memset node.lbuf (initByte role) bufsize),(none,.barrier)],
      finStamped event = false ∧ ¬ Transfers event ∧ ¬ Frees event := by
    simp only [List.mem_cons,List.not_mem_nil,or_false,forall_eq_or_imp,forall_eq]
    exact ⟨plain_event nofun nofun rfl,plain_event nofun nofun rfl,plain_event nofun nofun rfl⟩
  have ordering : ∀ {back}, Closing back → _ → Ordering role iters (_ ++ ((xpmemBody bench role iters node (bufsize / blocksize)).acts ++ back)) :=
    fun {back} closing whole => @loop_ordering role iters XpmemState _ back (fun j s => xpmemIteration role (attachNow bench j) (detachNow iters bench j)
      node.pageSize node.lbuf node.driver node.received (bufsize / blocksize : Nat) j s) (XpmemState.start (bufsize / blocksize : Nat) node.apid)
      (fun _ _ => xpmemIteration_marked) ahead closing whole
  have closing : ∀ apid, Closing (release apid ++ [(none,.free node.lbuf),(none,.barrier)]) :=
    fun apid => closing_free (release_calm apid) (.inr rfl) node.lbuf
  have sends : role = .sender → ∃ t, (xpmemBody bench role iters node (bufsize / blocksize)).out = .ok t := by
    rintro rfl
    exact (sender_kinds node.apid).1
  have cleaned : ∀ apid, cleanup (xpmemBody bench role iters node (bufsize / blocksize)) =
      ⟨(xpmemBody bench role iters node (bufsize / blocksize)).acts ++ release apid,.ok ()⟩ →
      Ordering role iters (standaloneProgram bench role iters full node blocksize bufsize nblocks).acts := by
    intro apid same
    rw [xpmem_run xpmem same,xpmemActs,List.append_assoc]
    exact ordering (closing apid) fun role => .inl (sends role)
  cases reached : (xpmemBody bench role iters node (bufsize / blocksize)).out with
  | ok s => exact cleaned s.apid (by simp only [cleanup,reached])
  | error error =>
      cases error with
      | cleanup apid => exact cleaned apid (by simp only [cleanup,reached])
      | _ =>
          have stopped := ordering (closing_none fun _ member => absurd member List.not_mem_nil) fun _ => .inr rfl
          rw [List.append_nil] at stopped
          rw [xpmem_form xpmem,initBuffer_run]
          simp only [cleanup,reached]
          exact stopped

theorem program_ordering (bench : Bench) (node : Node) :
    Ordering role iters (standaloneProgram bench role iters full node blocksize bufsize nblocks).acts := by
  cases bench with
  | shmem => exact region_ordering shmemIteration_marked
  | shmemPip => exact region_ordering pipIteration_marked
  | cma => exact cmaDt_ordering
  | xpmemNocache => exact xpmem_ordering (.inl rfl)
  | xpmemCached => exact xpmem_ordering (.inr rfl)

end

theorem standalone_ordering (bench : Bench) (role : Role) (iters full : Nat) (node : Node) (blocksize bufsize : Int) :
    Ordering role iters (standalone bench role iters full node blocksize bufsize).acts := by
  by_cases bytes : 0 < toSize blocksize
  · by_cases some_bytes : 0 < toSize bufsize
    · rw [standalone_sizes bytes some_bytes]
      exact program_ordering bench node
    · have nothing : (standalone bench role iters full node blocksize bufsize).acts = [] := by
        unfold standalone standaloneSizes
        rw [divide_some bytes,Run.pure_chain,assert,if_pos (decide_eq_true bytes),Run.pure_chain,assert,if_neg (by simpa using some_bytes)]
        rfl
      rw [nothing]
      exact nothing_ordering
  · have nothing : (standalone bench role iters full node blocksize bufsize).acts = [] := by
      unfold standalone standaloneSizes
      rw [divide,if_pos (by omega)]
      rfl
    rw [nothing]
    exact nothing_ordering

-- In every order of steps, whatever the sizes, the nodes and the drivers, and also where a rank is
-- refused a page: a receiver that is at a transfer finds the sender's buffer not yet freed, and a rank
-- that has freed its own has one Barrier left at most.
theorem buffers_outlive_transfers {size : Nat} (bench : Bench) (sender : Fin size) (iters full : Nat) (blocksize bufsize : Int)
    (node : Fin size → Node) (cfg : Config (Fin size)) (reach : (standaloneSystem bench sender iters full blocksize bufsize node).Reached cfg)
    (r : Fin size) (stamp : Option Nat) (act : Act)
    (here : (standaloneSystem bench sender iters full blocksize bufsize node).current cfg r = some (stamp,act)) :
    (r ≠ sender → isTransfer act = true → ∀ ptr,
      (none,.free ptr) ∉ (standaloneSystem bench sender iters full blocksize bufsize node).finished cfg sender) ∧
    ((∃ ptr, (none,.free ptr) ∈ (standaloneSystem bench sender iters full blocksize bufsize node).finished cfg r) →
      act = .barrier ∧ ((standaloneSystem bench sender iters full blocksize bufsize node).acts r).length = (cfg r).done + 1) := by
  have own := standalone_ordering bench (roleOf sender r) iters full (node r) blocksize bufsize
  have root := standalone_ordering bench (roleOf sender sender) iters full (node sender) blocksize bufsize
  constructor
  · intro apart transfer ptr freed
    have quiet : stampedKind (stamp,act) = none := by
      cases act with
      | memcpy => rfl
      | processVmReadv => rfl
      | memcpySegment => rfl
      | _ => cases transfer
    exact System.gather_keeps (System.reached_ordered reach) own.transfers (root.frees (root_role sender)) here quiet transfer _ freed ⟨ptr,rfl⟩
  · rintro ⟨ptr,freed⟩
    obtain ⟨before,after,split⟩ := List.append_of_mem freed
    obtain ⟨bound,same⟩ := List.getElem?_eq_some_iff.mp here
    have whole : (standalone bench (roleOf sender r) iters full (node r) blocksize bufsize).acts =
        before ++ (none,.free ptr) :: (after ++ (stamp,act) :: ((standaloneSystem bench sender iters full blocksize bufsize node).acts r).drop
          ((cfg r).done+1)) := by
      rw [← List.cons_append,← List.append_assoc,← split,System.finished,← same,← List.drop_eq_getElem_cons bound,List.take_append_drop]
      rfl
    have one := own.last before _ _ whole ⟨ptr,rfl⟩
    constructor
    · cases one_barrier one (stamp,act) (by simp)
      rfl
    · have few : (after ++ (stamp,act) :: ((standaloneSystem bench sender iters full blocksize bufsize node).acts r).drop
          ((cfg r).done+1)).length ≤ 1 := by
        rcases one with none | single
        · rw [none]; exact Nat.zero_le _
        · rw [single]; exact Nat.le_refl _
      rw [List.length_append,List.length_cons,List.length_drop] at few
      omega

theorem buffers_outlive_transfers_three_ranks : ∃ cfg, (standaloneSystem .cma (0 : Fin 3) 2 4 4 8 fun r => tinyNode r).Reached cfg ∧
    ∀ ptr, (none,.free ptr) ∉ (standaloneSystem .cma (0 : Fin 3) 2 4 4 8 fun r => tinyNode r).finished cfg 0 := by
  have moved : ((standaloneSystem .cma (0 : Fin 3) 2 4 4 8 fun r => tinyNode r).moves (fun _ => ⟨0,false⟩)
      [0,0,0,1,1,1,2,2,2,0,1,2,0,1,2,0,0,1,1]).any (fun cfg =>
        decide ((standaloneSystem .cma (0 : Fin 3) 2 4 4 8 fun r => tinyNode r).current cfg 1 =
          some (some 0,.processVmReadv (initIov 128 2 4) (initIov 64 2 4) 0 2 8))) = true := by
    decide +kernel
  obtain ⟨cfg,made,reading⟩ := (Option.any_eq_true _ _).mp moved
  have reach := System.moves_reached .start made
  exact ⟨cfg,reach,(buffers_outlive_transfers .cma (0 : Fin 3) 2 4 4 8 (fun r => tinyNode r) cfg reach 1 (some 0) _ (of_decide_eq_true reading)).1
    (by decide) rfl⟩

end MpidtBench.StandaloneLifetime
