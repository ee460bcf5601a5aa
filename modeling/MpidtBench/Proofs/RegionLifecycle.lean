import MpidtBench.Library.Ledger
import MpidtBench.Model.Region

namespace MpidtBench.RegionLifecycle
open Traced Ledger MpidtBench

def Succeeds (outcome : Outcome) : Prop := outcome.opened.isSome ∧ outcome.truncated = true ∧ outcome.mapping.isSome

-- The regions mapped and not unmapped since, each with the step it was mapped in.
def mappedStep (live : List (Nat × Nat)) : Nat × Call → List (Nat × Nat)
  | (q,.mmap _ _ (.mapped address)) => (q,address) :: live
  | (_,.munmap (.mapped address) _) => live.filter fun region => region.2 ≠ address
  | _ => live

-- A benchmark gets a region mapped in its own step, munmap any region that is mapped.
def Allowed (live : List (Nat × Nat)) : Nat × Call → Prop
  | (q,.benchmark _ ptr) => ∃ address, ptr = .mapped address ∧ (q,address) ∈ live
  | (_,.munmap ptr _) => ∃ q address, ptr = .mapped address ∧ (q,address) ∈ live
  | _ => True

def RegionSafe : List (Nat × Nat) → List (Nat × Call) → Prop
  | _,[] => True
  | live,event :: rest => Allowed live event ∧ RegionSafe (mappedStep live event) rest

def descriptorEntry : Call → Option (Entry Int)
  | .open fd => if fd < 0 then none else some (.acquire fd)
  | .close fd => some (.release fd)
  | _ => none
def descriptors (calls : List Call) : List (Entry Int) := calls.filterMap descriptorEntry

structure Lifecycle (steps : Nat) (acts : List (Nat × Call)) : Prop where
  regions : RegionSafe [] acts
  closed : ∀ q < steps, Settled (descriptors (carrying q acts))

theorem regionSafe_append (live : List (Nat × Nat)) (first second : List (Nat × Call)) :
    RegionSafe live (first ++ second) ↔ RegionSafe live first ∧ RegionSafe (first.foldl mappedStep live) second := by
  induction first generalizing live with
  | nil => simp [RegionSafe]
  | cons event rest ih => rw [List.cons_append,RegionSafe,RegionSafe,ih,and_assoc,List.foldl_cons]

def initCalls (outcome : Outcome) (bufsize : Nat) : List Call :=
  match outcome with
  | ⟨none,_,_⟩ => [.open (-1)]
  | ⟨some fd,false,_⟩ => [.open fd,.ftruncate fd bufsize false]
  | ⟨some fd,true,mapping⟩ => [.open fd,.ftruncate fd bufsize true,.mmap bufsize fd (mapResult mapping)]
def after (outcome : Outcome) (s : Region) : Region :=
  match outcome with
  | ⟨none,_,_⟩ => ⟨-1,s.shmemPtr⟩
  | ⟨some fd,false,_⟩ => ⟨fd,s.shmemPtr⟩
  | ⟨some fd,true,mapping⟩ => ⟨fd,mapResult mapping⟩
def closing (fd : Int) : List Call := if fd ≠ -1 then [.close fd] else []
def stepCalls (outcome : Outcome) (bufsize : Nat) (s : Region) : List Call :=
  initCalls outcome bufsize ++ [.benchmark .shmem (after outcome s).shmemPtr,.benchmark .shmemPip (after outcome s).shmemPtr,
    .munmap (after outcome s).shmemPtr bufsize] ++ closing (after outcome s).fd

section
variable {outcome : Outcome} {bufsize : Nat} {s : Region}

theorem mapResult_failed {mapping : Option Nat} : mapResult mapping = .failed ↔ mapping = none := by
  cases mapping <;> simp [mapResult]

theorem initShmem_run (outcome : Outcome) (bufsize : Nat) (s : Region) : ∃ code,
    initShmem outcome bufsize s = ⟨initCalls outcome bufsize,.ok (after outcome s,code)⟩ ∧ (code = 0 ↔ Succeeds outcome) := by
  obtain ⟨opened,truncated,mapping⟩ := outcome
  cases opened with
  | none => exact ⟨-1,rfl,by simp [Succeeds]⟩
  | some fd =>
      have valid : ¬ ((fd : Nat) : Int) < 0 := Int.not_lt.mpr (Int.natCast_nonneg fd)
      cases truncated with
      | false => exact ⟨-2,by simp [initShmem,descriptor,valid,initCalls,after],by simp [Succeeds]⟩
      | true =>
          by_cases failed : mapping = none
          · exact ⟨-3,by simp [initShmem,descriptor,valid,initCalls,after,mapResult_failed,failed],by simp [Succeeds,failed]⟩
          · exact ⟨0,by simp [initShmem,descriptor,valid,initCalls,after,mapResult_failed,failed],
              by simp [Succeeds,Option.isSome_iff_ne_none,failed]⟩

theorem regionStep_run (outcome : Outcome) (bufsize : Nat) (s : Region) :
    regionStep outcome bufsize s = ⟨stepCalls outcome bufsize s,.ok (after outcome s)⟩ := by
  obtain ⟨code,ran,_⟩ := initShmem_run outcome bufsize s
  rw [regionStep,ran]
  by_cases none : (after outcome s).fd = -1
  · simp [cleanupShmem,stepCalls,closing,none]
  · simp [cleanupShmem,stepCalls,closing,none]

-- A step closes what it opened, however its calls come out.
theorem step_closes (outcome : Outcome) (bufsize : Nat) (s : Region) : Settled (descriptors (stepCalls outcome bufsize s)) := by
  obtain ⟨opened,truncated,mapping⟩ := outcome
  cases opened with
  | none => rfl
  | some fd =>
      have valid : ¬ ((fd : Nat) : Int) < 0 := Int.not_lt.mpr (Int.natCast_nonneg fd)
      have other : ((fd : Nat) : Int) ≠ -1 := by omega
      have entries : descriptors (stepCalls ⟨some fd,truncated,mapping⟩ bufsize s) = [.acquire (fd : Int)] ++ [.release (fd : Int)] := by
        cases truncated with
        | false => simp [descriptors,stepCalls,initCalls,after,closing,descriptorEntry,List.filterMap_cons,valid,other]
        | true => simp [descriptors,stepCalls,initCalls,after,closing,descriptorEntry,List.filterMap_cons,valid,other]
      rw [entries]
      exact settled_released [(fd : Int)]

theorem granted_step (succeeds : Succeeds outcome) (q : Nat) :
    RegionSafe [] ((stepCalls outcome bufsize s).map (Prod.mk q)) ∧
      ((stepCalls outcome bufsize s).map (Prod.mk q)).foldl mappedStep [] = [] := by
  obtain ⟨opened,truncated,mapping⟩ := outcome
  obtain ⟨some_fd,rfl,some_address⟩ := succeeds
  obtain ⟨fd,rfl⟩ := Option.isSome_iff_exists.mp some_fd
  obtain ⟨address,rfl⟩ := Option.isSome_iff_exists.mp some_address
  have other : ((fd : Nat) : Int) ≠ -1 := by omega
  simp [stepCalls,initCalls,after,mapResult,closing,other,RegionSafe,Allowed,mappedStep]

-- Otherwise nothing is mapped, and the benchmarks get what `shmem_ptr` held or MAP_FAILED.
theorem refused_step {live : List (Nat × Nat)} (fails : ¬ Succeeds outcome) (earlier : ∀ region ∈ live, region.1 < q) :
    ¬ RegionSafe live ((stepCalls outcome bufsize s).map (Prod.mk q)) := by
  have nothing : ((initCalls outcome bufsize).map (Prod.mk q)).foldl mappedStep live = live := by
    obtain ⟨_ | fd,_ | _,_ | address⟩ := outcome
    all_goals first | rfl | exact absurd ⟨rfl,rfl,rfl⟩ fails
  intro safe
  rw [stepCalls,List.append_assoc,List.map_append,regionSafe_append,nothing] at safe
  obtain ⟨_,⟨address,_,mapped⟩,_⟩ := safe
  exact Nat.lt_irrefl q (earlier _ mapped)

end

section
variable {live : List (Nat × Nat)} {acts : List (Nat × Call)}

theorem mappedStep_before (event : Nat × Call) (here : event.1 < q) (earlier : ∀ region ∈ live, region.1 < q) :
    ∀ region ∈ mappedStep live event, region.1 < q := by
  obtain ⟨step,call⟩ := event
  intro region member
  cases call with
  | mmap bufsize fd result =>
      cases result with
      | mapped address =>
          rcases List.mem_cons.mp member with rfl | old
          · exact here
          · exact earlier region old
      | _ => exact earlier region member
  | munmap ptr bufsize =>
      cases ptr with
      | mapped address => exact earlier region (List.mem_of_mem_filter member)
      | _ => exact earlier region member
  | _ => exact earlier region member

theorem mapped_before (before : ∀ event ∈ acts, event.1 < q) (earlier : ∀ region ∈ live, region.1 < q) :
    ∀ region ∈ acts.foldl mappedStep live, region.1 < q := by
  induction acts generalizing live with
  | nil => exact earlier
  | cons event rest ih =>
      exact ih (fun other member => before other (List.mem_cons_of_mem _ member)) (mappedStep_before event (before event (by simp)) earlier)

theorem safe_blocks {indices : List Nat} {block : Nat → List (Nat × Call)}
    (each : ∀ q ∈ indices, RegionSafe [] (block q) ∧ (block q).foldl mappedStep [] = []) : RegionSafe [] (indices.flatMap block) := by
  induction indices with
  | nil => trivial
  | cons q rest ih =>
      obtain ⟨safe,unmapped⟩ := each q (by simp)
      rw [List.flatMap_cons,regionSafe_append,unmapped]
      exact ⟨safe,ih fun other member => each other (List.mem_cons_of_mem _ member)⟩

end

section
variable {outcomes : Nat → Outcome} {bufsize steps : Nat}

def stateAt (outcomes : Nat → Outcome) : Nat → Region
  | 0 => Region.start
  | q+1 => after (outcomes q) (stateAt outcomes q)
def block (outcomes : Nat → Outcome) (bufsize q : Nat) : List (Nat × Call) :=
  (stepCalls (outcomes q) bufsize (stateAt outcomes q)).map (Prod.mk q)

theorem sweep_run (outcomes : Nat → Outcome) (bufsize steps : Nat) : regionSweep outcomes bufsize steps =
    ⟨(List.range steps).flatMap (block outcomes bufsize),.ok (stateAt outcomes steps)⟩ := by
  apply forRange_exact (block outcomes bufsize) (stateAt outcomes)
  intro q _
  rw [regionStep_run]
  rfl

theorem carrying_step (below : q < steps) : carrying q (regionSweep outcomes bufsize steps).acts =
    stepCalls (outcomes q) bufsize (stateAt outcomes q) := by
  rw [sweep_run]
  exact carrying_blocks (fun _ _ same => same) List.nodup_range (List.mem_range.mpr below) fun q => stepCalls (outcomes q) bufsize (stateAt outcomes q)

-- Over every run every descriptor is closed in the step that opened it.
theorem descriptors_closed (outcomes : Nat → Outcome) (bufsize steps : Nat) :
    ∀ q < steps, Settled (descriptors (carrying q (regionSweep outcomes bufsize steps).acts)) := by
  intro q below
  rw [carrying_step below]
  exact step_closes _ _ _

end

-- The regions are handled as they should be just when init_shmem succeeds in every step.
theorem region_lifecycle (outcomes : Nat → Outcome) (bufsize steps : Nat) :
    Lifecycle steps (regionSweep outcomes bufsize steps).acts ↔ ∀ q < steps, Succeeds (outcomes q) := by
  constructor
  · intro lifecycle q below
    apply Classical.byContradiction
    intro fails
    have safe := lifecycle.regions
    rw [sweep_run] at safe
    dsimp only at safe
    rw [range_split below,List.flatMap_append,List.flatMap_cons,regionSafe_append,regionSafe_append] at safe
    refine refused_step fails ?_ safe.2.1
    apply mapped_before _ (fun region member => absurd member List.not_mem_nil)
    intro event member
    obtain ⟨earlier,present,issued⟩ := List.mem_flatMap.mp member
    obtain ⟨call,_,rfl⟩ := List.mem_map.mp issued
    exact List.mem_range.mp present
  · intro succeeds
    refine ⟨?_,descriptors_closed outcomes bufsize steps⟩
    rw [sweep_run]
    exact safe_blocks fun q member => granted_step (succeeds q (List.mem_range.mp member)) q

-- ftruncate fails in the second step: the benchmarks get the region that the first one unmapped.
theorem region_stale : ¬ Lifecycle 2 (regionSweep (fun q => ⟨some 3,q == 0,some 1048576⟩) 65536 2).acts := by
  intro lifecycle
  have acts : (regionSweep (fun q => ⟨some 3,q == 0,some 1048576⟩) 65536 2).acts = [(0,.open 3),(0,.ftruncate 3 65536 true),
      (0,.mmap 65536 3 (.mapped 1048576)),(0,.benchmark .shmem (.mapped 1048576)),(0,.benchmark .shmemPip (.mapped 1048576)),
      (0,.munmap (.mapped 1048576) 65536),(0,.close 3)] ++ [(1,.open 3),(1,.ftruncate 3 65536 false)] ++
      [(1,.benchmark .shmem (.mapped 1048576)),(1,.benchmark .shmemPip (.mapped 1048576)),(1,.munmap (.mapped 1048576) 65536),
        (1,.close 3)] := rfl
  have safe := lifecycle.regions
  rw [acts,regionSafe_append] at safe
  obtain ⟨_,⟨address,_,mapped⟩,_⟩ := safe
  revert mapped
  simp [mappedStep]

-- The pointer the benchmarks get is the one main's other calls are modelled with.
theorem region_handed (machine : Machine) (outcomes : Nat → Outcome) (bufsize : Nat)
    (granted : ∀ q < steps, Succeeds (outcomes q) ∧ (outcomes q).mapping = some (machine.shmemPtr q)) :
    ∀ q bench ptr, (q,.benchmark bench ptr) ∈ (regionSweep outcomes bufsize steps).acts → ptr = .mapped (machine.shmemPtr q) := by
  intro q bench ptr member
  rw [sweep_run] at member
  obtain ⟨step,present,issued⟩ := List.mem_flatMap.mp member
  obtain ⟨call,made,same⟩ := List.mem_map.mp issued
  cases same
  obtain ⟨⟨some_fd,truncated,_⟩,mapping⟩ := granted q (List.mem_range.mp present)
  obtain ⟨fd,opened⟩ := Option.isSome_iff_exists.mp some_fd
  have outcome : outcomes q = ⟨some fd,true,some (machine.shmemPtr q)⟩ := by
    rw [← opened,← truncated,← mapping]
  have other : ((fd : Nat) : Int) ≠ -1 := by omega
  rw [outcome] at made
  have handed : (bench = .shmem ∧ ptr = .mapped (machine.shmemPtr q)) ∨ (bench = .shmemPip ∧ ptr = .mapped (machine.shmemPtr q)) := by
    simpa [stepCalls,initCalls,after,mapResult,closing,other] using made
  rcases handed with ⟨_,same⟩ | ⟨_,same⟩
  · exact same
  · exact same

end MpidtBench.RegionLifecycle
