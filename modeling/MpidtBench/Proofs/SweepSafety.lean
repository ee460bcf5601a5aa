import MpidtBench.Proofs.SweepTrace

namespace MpidtBench.SweepSafety
open Traced CInteger ScatterGather Collective MpidtBench PipelineProtocol SweepShape SweepWindows SweepTrace

-- Rank `r` is between the return of the RTS Bcast of iteration `j` and its entry into the
-- FIN Gather.
def Reading (sys : System (Fin size) Event) (cfg : Config (Fin size)) (r : Fin size) (q : Nat) (bench : Bench) (j : Nat) : Prop :=
  (∃ what count, (some (q,bench),some j,.bcast what count) ∈ sys.finished cfg r) ∧
  (some (q,bench),some j,.gather) ∉ sys.finished cfg r ∧
  ¬ ((cfg r).inside = true ∧ sys.current cfg r = some (some (q,bench),some j,.gather))

-- Meanwhile the sender stands at a collective call: it is not at a memset, at a memcpy
-- or at the free, nor done with its program. And a receiver copies only what is set.
structure TransferSafe (sys : System (Fin size) Event) (lbuf bufsize : Nat) (cfg : Config (Fin size)) : Prop where
  untouched : ∀ r ≠ sys.root, ∀ q bench j, bench ≠ .shmemPip → Reading sys cfg r q bench j →
    ∃ event kind, sys.current cfg sys.root = some event ∧ eventKind event = some kind
  initialised : ∀ r ≠ sys.root, ∀ q bench stamp act, sys.current cfg r = some (some (q,bench),stamp,act) → isTransfer act = true →
    (some (q,bench),none,.memset lbuf 120 bufsize) ∈ sys.finished cfg sys.root

section
variable {role : Role} {iters full bufsize minBs maxBs : Nat} {machine : Machine}

structure Completes (role : Role) (iters full : Nat) (machine : Machine) (bufsize minBs maxBs : Nat) : Prop where
  ended : (mainProgram role iters full machine bufsize minBs maxBs).out = .ok ()
  granted : ∀ event ∈ (mainProgram role iters full machine bufsize minBs maxBs).acts, refused event.2.2 = false

theorem completes_ready (completes : Completes role iters full machine bufsize minBs maxBs) (small : bufsize ≤ intMax)
    (nonzero : 0 < full) (sized : full < sizeMod) {step : Nat × Nat} (member : step ∈ visited maxBs sweepFuel (0,minBs))
    (bench : Bench) : Ready role iters full machine.lbuf bufsize step.2 (works machine step bench) (step.1,bench)
      (called role iters full bufsize machine step bench).acts := by
  obtain ⟨acts,steps⟩ := main_parts completes.ended
  obtain ⟨bytes,ended⟩ := steps step member
  apply called_ready small bytes nonzero sized bench (ended bench)
  intro event issued
  apply completes.granted (some (step.1,bench),event)
  have ordered : bench ∈ order := by cases bench <;> decide
  rw [acts]
  refine List.mem_cons_of_mem _ (List.mem_append_left _ (List.mem_flatMap.mpr ⟨step,member,List.mem_flatMap.mpr ⟨bench,ordered,?_⟩⟩))
  exact List.mem_append_left _ (List.mem_map.mpr ⟨event,issued,rfl⟩)

theorem freed_calm (machine : Machine) : ∀ event ∈ freed machine, Calm event := by
  intro event member
  unfold freed at member
  split at member
  · rw [List.mem_singleton.mp member]; exact ⟨rfl,rfl⟩
  · cases member

theorem main_disciplined (completes : Completes role iters full machine bufsize minBs maxBs) (small : bufsize ≤ intMax)
    (nonzero : 0 < full) (sized : full < sizeMod) :
    Disciplined role iters machine.lbuf bufsize (mainProgram role iters full machine bufsize minBs maxBs).acts := by
  have closed := fun first second => @disciplined_append role iters machine.lbuf bufsize first second
  have empty := @calm_disciplined role iters machine.lbuf bufsize [] fun _ member => absurd member List.not_mem_nil
  rw [(main_parts completes.ended).1,← List.singleton_append]
  refine disciplined_append (calm_single _ rfl rfl) (disciplined_append ?_ (calm_disciplined (freed_calm machine)))
  refine flatMap_closed empty closed fun step member => flatMap_closed empty closed fun bench _ => ?_
  exact disciplined_append (completes_ready completes small nonzero sized member bench).disciplined (calm_single _ rfl rfl)

def turnCalls (iters full bufsize : Nat) (machine : Machine) (step : Nat × Nat) (bench : Bench) : List Event :=
  (benchCalls iters full bufsize step.2 (works machine step bench) bench).map (Prod.mk (some (step.1,bench))) ++
    [(none,none,.barrier)]

theorem main_calls (completes : Completes role iters full machine bufsize minBs maxBs) (small : bufsize ≤ intMax)
    (nonzero : 0 < full) (sized : full < sizeMod) :
    calls eventKind (mainProgram role iters full machine bufsize minBs maxBs).acts = (none,none,.barrier) ::
      (visited maxBs sweepFuel (0,minBs)).flatMap fun step => order.flatMap (turnCalls iters full bufsize machine step) := by
  have last : calls eventKind (freed machine) = [] := by
    unfold freed
    split <;> rfl
  have turns : ∀ step ∈ visited maxBs sweepFuel (0,minBs), ∀ bench, calls eventKind (turn role iters full bufsize machine step bench) =
      turnCalls iters full bufsize machine step bench := by
    intro step member bench
    have ready := (completes_ready completes small nonzero sized member bench).calls
    rw [turn,calls_append,calls_map]
    change (calls stampedKind _).map _ ++ _ = _
    rw [ready]
    rfl
  rw [(main_parts completes.ended).1,← List.singleton_append,calls_append,calls_append,last,List.append_nil,calls_flatMap]
  refine congrArg (List.cons _) (List.flatMap_congr fun step member => ?_)
  rw [calls_flatMap]
  exact List.flatMap_congr fun bench _ => turns step member bench

end

-- Where only one of two drivers works, the ranks part at the Bcast of the segment id.
theorem xpmem_parts (some_iteration : 0 < iters) (nblocks : Int) (tag : Nat × Bench) (rest more : List Event) :
    Parts eventKind ((xpmemCalls iters nblocks true).map (Prod.mk (some tag)) ++ rest)
        ((xpmemCalls iters nblocks false).map (Prod.mk (some tag)) ++ ((none,none,.barrier) :: more)) ∧
      Parts eventKind ((xpmemCalls iters nblocks false).map (Prod.mk (some tag)) ++ ((none,none,.barrier) :: more))
        ((xpmemCalls iters nblocks true).map (Prod.mk (some tag)) ++ rest) := by
  obtain ⟨count,rfl⟩ : ∃ count, iters = count + 1 := ⟨iters-1,by omega⟩
  have working : xpmemCalls (count+1) nblocks true = (none,.bcast .segid 8) :: (some 0,.bcast .iov (iovecBytes nblocks)) ::
      (some 0,.gather) :: (((List.range count).map Nat.succ).flatMap (fun j => [(some j,.bcast .iov (iovecBytes nblocks)),
        (some j,.gather)]) ++ [(none,.barrier)]) := by
    simp only [xpmemCalls,if_true,rounds,List.range_succ_eq_map,List.flatMap_cons,List.cons_append,List.nil_append]
  have calling : ∃ others, kinds eventKind ((xpmemCalls (count+1) nblocks true).map (Prod.mk (some tag)) ++ rest) =
      .bcast :: .bcast :: .gather :: others := by
    rw [working]
    exact ⟨_,rfl⟩
  obtain ⟨others,calling⟩ := calling
  exact ⟨.barrier calling rfl,.bcast rfl calling⟩

theorem xpmem_alike (some_iteration : 0 < iters) (nblocks : Int) (tag : Nat × Bench) (ours root : Bool) :
    Alike eventKind ((xpmemCalls iters nblocks ours).map (Prod.mk (some tag)) ++ [(none,none,.barrier)])
      ((xpmemCalls iters nblocks root).map (Prod.mk (some tag)) ++ [(none,none,.barrier)]) := by
  cases ours with
  | true =>
      cases root with
      | true => exact .inl rfl
      | false =>
          apply Or.inr
          intro rest more
          rw [List.append_assoc,List.append_assoc]
          exact @Follows.parts _ _ _ _ [] (xpmem_parts some_iteration nblocks tag _ more).1
  | false =>
      cases root with
      | true =>
          apply Or.inr
          intro rest more
          rw [List.append_assoc,List.append_assoc]
          exact @Follows.parts _ _ _ _ [] (xpmem_parts some_iteration nblocks tag _ rest).2
      | false => exact .inl rfl

theorem turn_alike (some_iteration : 0 < iters) (full bufsize : Nat) (ours root : Machine) (step : Nat × Nat) (bench : Bench) :
    Alike eventKind (turnCalls iters full bufsize ours step bench) (turnCalls iters full bufsize root step bench) := by
  cases bench with
  | shmem => exact .inl rfl
  | shmemPip => exact .inl rfl
  | cma => exact .inl rfl
  | xpmemNocache => exact xpmem_alike some_iteration _ _ _ _
  | xpmemCached => exact xpmem_alike some_iteration _ _ _ _

section
variable {size iters full bufsize minBs maxBs : Nat} {sender : Fin size} {machine : Fin size → Machine}

theorem main_follows (completes : ∀ r, Completes (roleOf sender r) iters full (machine r) bufsize minBs maxBs)
    (small : bufsize ≤ intMax) (nonzero : 0 < full) (sized : full < sizeMod) (some_iteration : 0 < iters) (r : Fin size) :
    Follows eventKind ((mainSystem sender iters full bufsize minBs maxBs machine).trace r)
      ((mainSystem sender iters full bufsize minBs maxBs machine).trace sender) := by
  have trace : ∀ rank, (mainSystem sender iters full bufsize minBs maxBs machine).trace rank = (none,none,.barrier) ::
      (visited maxBs sweepFuel (0,minBs)).flatMap fun step => order.flatMap (turnCalls iters full bufsize (machine rank) step) :=
    fun rank => main_calls (completes rank) small nonzero sized
  have alike : Alike eventKind
      ((visited maxBs sweepFuel (0,minBs)).flatMap fun step => order.flatMap (turnCalls iters full bufsize (machine r) step))
      ((visited maxBs sweepFuel (0,minBs)).flatMap fun step => order.flatMap (turnCalls iters full bufsize (machine sender) step)) :=
    alike_flatMap fun step _ => alike_flatMap fun bench _ => turn_alike some_iteration full bufsize _ _ step bench
  rw [trace,trace]
  exact follows_append [(none,none,.barrier)] (alike_follows alike)

theorem reached_safe {cfg : Config (Fin size)} (completes : ∀ r, Completes (roleOf sender r) iters full (machine r) bufsize minBs maxBs)
    (small : bufsize ≤ intMax) (nonzero : 0 < full) (sized : full < sizeMod)
    (reach : (mainSystem sender iters full bufsize minBs maxBs machine).Reached cfg) :
    TransferSafe (mainSystem sender iters full bufsize minBs maxBs machine) (machine sender).lbuf bufsize cfg := by
  have ordered := System.reached_ordered reach
  have disciplined := fun r => main_disciplined (completes r) small nonzero sized
  have root := disciplined sender
  have agrees : 0 < iters → ∀ r ≠ sender, (mainSystem sender iters full bufsize minBs maxBs machine).Agrees cfg r :=
    fun some_iteration r apart => System.follows_agrees reach apart (main_follows completes small nonzero sized some_iteration r)
  have sends := root_role sender
  constructor
  · intro r apart q bench j windowed reading
    obtain ⟨⟨what,count,opened⟩,pending,outside⟩ := reading
    have some_iteration := (disciplined r).iterated _ (List.mem_of_mem_take opened) nofun
    have pair : closing (some (q,bench),some j,.bcast what count) = some (some (q,bench),some j,.gather) := if_neg windowed
    exact System.window_guarded ordered apart (agrees some_iteration r apart) (disciplined r).paired root.paired
      (root.unbroken sends) pair rfl rfl opened pending outside
  · intro r apart q bench stamp act here transfer
    have announced := (disciplined r).announced (other_role apart)
    have prepared := root.prepared sends
    have some_iteration : 0 < iters := by
      obtain ⟨s,c,_,known,⟨tag,j,_,_,rfl⟩,_⟩ := announced _ _ (System.current_located here) transfer
      exact (disciplined r).iterated _ (List.mem_filter.mp (List.mem_of_getElem? known)).1 nofun
    obtain ⟨c,e,⟨_,same,_⟩,⟨tag,tagged,rfl⟩,done⟩ := System.read_prepared ordered apart (agrees some_iteration r apart) announced
      prepared (fun c e announce => by
        obtain ⟨⟨tag,j,what,count,rfl⟩,_⟩ := announce
        exact ⟨rfl,⟨tag,j,what,count,rfl⟩⟩)
      (fun e c ready => by
        obtain ⟨tag,_,rfl⟩ := ready
        rfl) here transfer
    rw [tagged] at same
    cases same
    exact done

end

-- Main on any number of ranks, in every order of steps that MPI allows. `completes` is
-- that on every rank the asserts hold, the indices stay inside and the attaches succeed.
theorem transfers_safe {size : Nat} (sender : Fin size) (iters full bufsize minBs maxBs : Nat) (machine : Fin size → Machine)
    (nonzero : 0 < full) (sized : full < sizeMod) (small : bufsize ≤ intMax)
    (completes : ∀ r, Completes (roleOf sender r) iters full (machine r) bufsize minBs maxBs) :
    ∀ cfg, (mainSystem sender iters full bufsize minBs maxBs machine).Reached cfg →
      TransferSafe (mainSystem sender iters full bufsize minBs maxBs machine) (machine sender).lbuf bufsize cfg :=
  fun _ reach => reached_safe completes small nonzero sized reach

-- Three ranks, a buffer of two pages of 4 bytes, block sizes 4 and 8.
def tinyMachine (rank : Nat) : Machine where
  lbuf := 64 + 64 * rank
  pageSize := 4
  limit := 1024
  shmemPtr _ := 1024 + 64 * rank
  readv q _ _ count := count.toNat * (4 * 2 ^ q)
  received q _ := initIov 64 (8 / (4 * 2 ^ q)) (4 * 2 ^ q)
  driver _ _ := ⟨1,fun _ => 7,fun _ _ offset _ => some (4096 + offset)⟩
  apid _ _ := 0

-- In the first step, while the receiver with rank 1 reads the region.
theorem transfers_safe_three_ranks : ∃ cfg, (mainSystem (0 : Fin 3) 2 4 8 4 8 fun r => tinyMachine r).Reached cfg ∧
    Reading (mainSystem (0 : Fin 3) 2 4 8 4 8 fun r => tinyMachine r) cfg 1 0 .shmem 0 ∧
    TransferSafe (mainSystem (0 : Fin 3) 2 4 8 4 8 fun r => tinyMachine r) 64 8 cfg := by
  have moved : ((mainSystem (0 : Fin 3) 2 4 8 4 8 fun r => tinyMachine r).moves (fun _ => ⟨0,false⟩)
      [0,1,2,0,1,2,0,0,0,0,0,1,1,1]).any (fun cfg =>
        decide ((some (0,.shmem),some 0,.bcast .dummy 1) ∈ (mainSystem (0 : Fin 3) 2 4 8 4 8 fun r => tinyMachine r).finished cfg 1) &&
        decide ((some (0,.shmem),some 0,.gather) ∉ (mainSystem (0 : Fin 3) 2 4 8 4 8 fun r => tinyMachine r).finished cfg 1) &&
        !(cfg 1).inside) = true := by decide +kernel
  obtain ⟨cfg,made,reading⟩ := (Option.any_eq_true _ _).mp moved
  simp only [Bool.and_eq_true,decide_eq_true_eq,Bool.not_eq_true'] at reading
  obtain ⟨⟨opened,pending⟩,outside⟩ := reading
  have reach := System.moves_reached .start made
  refine ⟨cfg,reach,⟨⟨_,_,opened⟩,pending,by rw [outside]; exact nofun⟩,?_⟩
  exact transfers_safe (0 : Fin 3) 2 4 8 4 8 (fun r => tinyMachine r) (by decide) (by decide) (by decide) (fun
    | 0 => ⟨by decide +kernel,by decide +kernel⟩
    | 1 => ⟨by decide +kernel,by decide +kernel⟩
    | 2 => ⟨by decide +kernel,by decide +kernel⟩) cfg reach

end MpidtBench.SweepSafety
