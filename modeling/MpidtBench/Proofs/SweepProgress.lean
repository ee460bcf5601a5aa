import MpidtBench.Proofs.AttachSplits
import MpidtBench.Proofs.SweepAgreement

namespace MpidtBench.SweepProgress
open Traced CInteger ScatterGather Collective MpidtBench XpmemLoops XpmemFailure AttachSplits SweepShape SweepTrace SweepSafety SweepAgreement

def Attaches (iters : Nat) (own : Machine) (q : Nat) (bench : Bench) : Prop := ∀ j < iters, attachNow bench j = true →
  Granted (attachNow bench) own.pageSize (own.driver q bench) (fun _ => own.received q bench) j

-- A rank takes part in a call of an XPMEM benchmark where the sender does, and to its end.
def Joins (role : Role) (iters : Nat) (root own : Machine) (q : Nat) (bench : Bench) : Prop :=
  bench = .xpmemNocache ∨ bench = .xpmemCached →
    (Reaches own q bench ↔ Reaches root q bench) ∧ (role = .receiver → Reaches own q bench → Attaches iters own q bench)

-- A run of main that returns and that no call stops, each list having as many entries as there
-- are blocks.
structure Clean (role : Role) (iters full : Nat) (machine : Machine) (source bufsize minBs maxBs : Nat) : Prop where
  ended : (mainProgram role iters full machine bufsize minBs maxBs).out = .ok ()
  faultless : Faultless machine.pageSize machine.lbuf source bufsize
    ((mainProgram role iters full machine bufsize minBs maxBs).acts.map fun event => event.2.2)
  lists : role = .receiver → ∀ q, minBs * 2 ^ q ≤ maxBs → ∀ bench, (machine.received q bench).length = bufsize / (minBs * 2 ^ q)

section
variable {role : Role} {iters full bufsize minBs maxBs blocksize q : Nat} {own : Machine}

-- What a rank calls in a benchmark: nothing without a driver, otherwise all, or what comes in
-- front of the first refused page.
inductive Calls (iters : Nat) (reaches complete : Prop) : List Kind → Prop where
  | nothing : ¬ reaches → Calls iters reaches complete []
  | whole : reaches → complete → Calls iters reaches complete (.bcast :: (roundKinds iters ++ [.barrier]))
  | part : reaches → ¬ complete → j < iters → Calls iters reaches complete (.bcast :: (roundKinds j ++ [.bcast]))

theorem release_kinds (apid : Nat) : kinds stampedKind (release apid) = [] := by
  unfold release
  split <;> rfl

theorem benchmark_calls {attachNow detachNow : Nat → Bool} {pageSize lbuf apid : Nat} {driver : XpmemDriver} {iov : Nat → List IoVec}
    (count : bufsize / blocksize ≤ intMax) (lengths : role = .receiver → ∀ j, (iov j).length = bufsize / blocksize)
    (copies : NoFailedCopy (benchmarkXpmem role attachNow detachNow iters pageSize lbuf driver iov bufsize blocksize apid).acts) :
    Calls iters (0 ≤ driver.version)
      (role = .receiver → ∀ j < iters, attachNow j = true → Granted attachNow pageSize driver iov j)
      (kinds stampedKind (benchmarkXpmem role attachNow detachNow iters pageSize lbuf driver iov bufsize blocksize apid).acts) := by
  have narrow : toInt (bufsize / blocksize) = ((bufsize / blocksize : Nat) : Int) := toInt_exact count
  have complete : ∀ {s}, 0 ≤ driver.version → (xpmemLoop role attachNow detachNow iters pageSize lbuf driver iov
      (bufsize / blocksize : Nat) apid).out = .ok s → kinds stampedKind (xpmemLoop role attachNow detachNow iters pageSize lbuf driver iov
        (bufsize / blocksize : Nat) apid).acts = roundKinds iters →
      kinds stampedKind (benchmarkXpmem role attachNow detachNow iters pageSize lbuf driver iov bufsize blocksize apid).acts =
        .bcast :: (roundKinds iters ++ [.barrier]) := by
    intro s version ended called
    rw [← narrow] at ended called
    rw [benchmark_ended version ended]
    change .bcast :: kinds stampedKind (_ ++ _) = _
    rw [kinds_append,called]
    change .bcast :: (_ ++ .barrier :: kinds stampedKind (release _)) = _
    rw [release_kinds]
  by_cases version : 0 ≤ driver.version
  · cases role with
    | sender =>
        obtain ⟨⟨s,ended⟩,called⟩ := @sender_kinds attachNow detachNow pageSize lbuf (bufsize / blocksize) iters driver iov apid
        rw [complete version ended called]
        exact .whole version nofun
    | receiver =>
        have kept : NoFailedCopy (xpmemLoop .receiver attachNow detachNow iters pageSize lbuf driver iov (bufsize / blocksize : Nat) apid).acts := by
          intro stamp dst pgOff len member
          rw [← narrow] at member
          exact copies stamp dst pgOff len (benchmark_keeps version member)
        rcases loop_either (lengths rfl) apid kept with ⟨granted,⟨s,ended⟩,called⟩ | ⟨refused,⟨last,stopped⟩,j,below,called⟩
        · rw [complete version ended called]
          exact .whole version fun _ => granted
        · rw [← narrow] at stopped called
          have issued : kinds stampedKind (benchmarkXpmem .receiver attachNow detachNow iters pageSize lbuf driver iov bufsize blocksize apid).acts =
              .bcast :: (roundKinds j ++ [.bcast]) := by
            rw [benchmark_stopped version stopped]
            change .bcast :: kinds stampedKind (_ ++ _) = _
            rw [kinds_append,called,release_kinds,List.append_nil]
          rw [issued]
          exact .part version (fun all => refused (all rfl)) below
  · have broken : driver.version < 0 := by omega
    rw [benchmarkXpmem,if_pos broken]
    exact .nothing version

theorem plain_calls (small : bufsize ≤ intMax) (bytes : 0 < blocksize) (nonzero : 0 < full) (sized : full < sizeMod) {bench : Bench}
    (plain : ¬ (bench = .xpmemNocache ∨ bench = .xpmemCached)) (ended : (called role iters full bufsize own (q,blocksize) bench).out = .ok ()) :
    calls stampedKind (called role iters full bufsize own (q,blocksize) bench).acts = benchCalls iters full bufsize blocksize true bench := by
  cases bench with
  | shmem => exact (@shmem_ready role iters full bufsize blocksize _ own.lbuf (q,.shmem) true _ rfl ended).calls
  | shmemPip => exact (@pip_ready role iters full bufsize blocksize own.lbuf (q,.shmemPip) true _ rfl small bytes nonzero sized ended).calls
  | cma => exact (@cma_ready role iters full bufsize blocksize _ own.lbuf (q,.cma) true _ _ _ rfl ended).calls
  | xpmemNocache => exact absurd (.inl rfl) plain
  | xpmemCached => exact absurd (.inr rfl) plain

theorem xpmem_called (clean : Clean role iters full own source bufsize minBs maxBs) (small : bufsize ≤ intMax) (below : minBs * 2 ^ q ≤ maxBs)
    (visit : (q,minBs * 2 ^ q) ∈ visited maxBs sweepFuel (0,minBs)) {bench : Bench} (xpmem : bench = .xpmemNocache ∨ bench = .xpmemCached) :
    Calls iters (Reaches own q bench) (role = .receiver → Attaches iters own q bench)
      (kinds stampedKind (called role iters full bufsize own (q,minBs * 2 ^ q) bench).acts) := by
  have count : bufsize / (minBs * 2 ^ q) ≤ intMax := Nat.le_trans (Nat.div_le_self _ _) small
  have copies : NoFailedCopy (called role iters full bufsize own (q,minBs * 2 ^ q) bench).acts := by
    intro stamp dst pgOff len member
    have ordered : bench ∈ order := by cases bench <;> decide
    have issued : (some (q,bench),stamp,.memcpySegment dst .failed pgOff len) ∈
        (mainProgram role iters full own bufsize minBs maxBs).acts := by
      rw [(main_parts clean.ended).1]
      refine List.mem_cons_of_mem _ (List.mem_append_left _ (List.mem_flatMap.mpr ⟨_,visit,List.mem_flatMap.mpr ⟨bench,ordered,?_⟩⟩))
      exact List.mem_append_left _ (List.mem_map.mpr ⟨_,member,rfl⟩)
    exact faultless_attached clean.faultless (List.mem_map.mpr ⟨_,issued,rfl⟩)
  rcases xpmem with rfl | rfl
  · exact benchmark_calls count (fun receives _ => clean.lists receives q below _) copies
  · exact benchmark_calls count (fun receives _ => clean.lists receives q below _) copies

theorem turn_kinds (s : Nat × Nat) (bench : Bench) : kinds eventKind (turn role iters full bufsize own s bench) =
    kinds stampedKind (called role iters full bufsize own s bench).acts ++ [.barrier] := by
  rw [turn,kinds_append]
  refine congrArg (· ++ [Kind.barrier]) ?_
  rw [kinds,kinds,List.filterMap_map]
  rfl

-- Two ranks in a call of an XPMEM benchmark, with main's Barrier behind it.
theorem calls_split {ours root complete : Prop} {first second : List Kind} (some_iteration : 0 < iters) (mine : Calls iters ours complete first)
    (others : Calls iters root True second) :
    SameOrSplit (first ++ [.barrier]) (second ++ [.barrier]) ((ours ↔ root) ∧ (ours → complete)) := by
  obtain ⟨more,calls⟩ := @roundKinds_split 0 iters some_iteration
  replace calls : roundKinds iters = .bcast :: .gather :: more := calls
  cases others with
  | nothing without =>
      cases mine with
      | nothing stuck => exact .same rfl ⟨iff_of_false stuck without,fun working => absurd working stuck⟩
      | whole working _ => exact .split (clashes_split [] .barrier) fun both => without (both.1.mp working)
      | part working _ _ => exact .split (clashes_split [] .barrier) fun both => without (both.1.mp working)
  | part _ incomplete _ => exact absurd trivial incomplete
  | whole reaches _ =>
      cases mine with
      | nothing stuck =>
          refine .split ?_ fun both => stuck (both.1.mpr reaches)
          rw [calls]
          exact clashes_split [] (.bcast (by simp))
      | whole working all => exact .same rfl ⟨iff_of_true working reaches,fun _ => all⟩
      | @part j working incomplete below =>
          refine .split ?_ fun both => incomplete (both.2 working)
          obtain ⟨later,split⟩ := roundKinds_split below
          have last : Kind.barrier ∈ later ++ [.barrier,.barrier] := by simp
          have splits := clashes_split (.bcast :: (roundKinds j ++ [.bcast])) (@Clashes.gather _ [] last)
          rw [split]
          simpa using splits

end

section
variable {size iters full bufsize minBs maxBs : Nat} {sender : Fin size} {machine : Fin size → Machine}

theorem turn_follows (some_iteration : 0 < iters) (small : bufsize ≤ intMax) (nonzero : 0 < full) (sized : full < sizeMod)
    (clean : ∀ r, Clean (roleOf sender r) iters full (machine r) (machine sender).lbuf bufsize minBs maxBs) (r : Fin size) (first : 0 < minBs)
    (inside : maxBs ≤ intMax) {step : Nat × Nat} (visit : step ∈ visited maxBs sweepFuel (0,minBs)) (bench : Bench) :
    SameOrSplit (kinds eventKind (turn (roleOf sender r) iters full bufsize (machine r) step bench))
      (kinds eventKind (turn .sender iters full bufsize (machine sender) step bench))
      (Joins (roleOf sender r) iters (machine sender) (machine r) step.1 bench) := by
  have sends := clean sender
  rw [root_role] at sends
  rw [turn_kinds,turn_kinds]
  by_cases xpmem : bench = .xpmemNocache ∨ bench = .xpmemCached
  · obtain ⟨q,rfl,below⟩ := (visited_iff inside first step).mp visit
    have mine := xpmem_called (clean r) small below visit xpmem
    have others := xpmem_called sends small below visit xpmem
    rw [show (Role.sender = .receiver → Attaches iters (machine sender) q bench) = True from eq_true nofun] at others
    cases calls_split some_iteration mine others with
    | same alike both => exact .same alike fun _ => ⟨both.1,fun receives working => both.2 working receives⟩
    | split splits differ =>
        exact .split splits fun joins => differ ⟨(joins xpmem).1,fun working receives => (joins xpmem).2 receives working⟩
  · have plain : ∀ {role own}, Clean role iters full own (machine sender).lbuf bufsize minBs maxBs →
        kinds stampedKind (called role iters full bufsize own step bench).acts =
          kinds stampedKind (benchCalls iters full bufsize step.2 true bench) := by
      intro role own clean
      obtain ⟨bytes,ended⟩ := (main_parts clean.ended).2 step visit
      rw [← calls_kinds,plain_calls small bytes nonzero sized xpmem (ended bench)]
    rw [plain (clean r),plain sends]
    exact .same rfl fun given => absurd given xpmem

theorem main_asserts {role : Role} {own : Machine} (ended : (mainProgram role iters full own bufsize minBs maxBs).out = .ok ()) :
    0 < minBs ∧ minBs ≤ maxBs ∧ maxBs ≤ bufsize := by
  unfold mainProgram at ended
  rw [(assert_parts ended).2] at ended
  have checked := (assert_parts ended).1
  simp only [Bool.and_eq_true,decide_eq_true_eq] at checked
  obtain ⟨⟨⟨ordered,inside⟩,_⟩,positive⟩ := checked
  exact ⟨positive,ordered,inside⟩

theorem main_kinds {role : Role} {own : Machine} (ended : (mainProgram role iters full own bufsize minBs maxBs).out = .ok ()) :
    kinds eventKind (mainProgram role iters full own bufsize minBs maxBs).acts = .barrier ::
      (visited maxBs sweepFuel (0,minBs)).flatMap fun step => order.flatMap fun bench =>
        kinds eventKind (turn role iters full bufsize own step bench) := by
  have last : kinds eventKind (freed own) = [] := by
    unfold freed
    split <;> rfl
  rw [(main_parts ended).1,← List.singleton_append,kinds_append,kinds_append,last,List.append_nil,kinds_flatMap]
  exact congrArg (Kind.barrier :: ·) (List.flatMap_congr fun step _ => kinds_flatMap _ _)

-- The calls of main are the root's where the rank joins it in every call, and else they part.
theorem main_follows (some_iteration : 0 < iters) (small : bufsize ≤ intMax) (nonzero : 0 < full) (sized : full < sizeMod)
    (clean : ∀ r, Clean (roleOf sender r) iters full (machine r) (machine sender).lbuf bufsize minBs maxBs) (r : Fin size) :
    SameOrSplit ((mainSystem sender iters full bufsize minBs maxBs machine).schedule r)
      ((mainSystem sender iters full bufsize minBs maxBs machine).schedule sender)
      (∀ step ∈ visited maxBs sweepFuel (0,minBs), ∀ bench ∈ order, Joins (roleOf sender r) iters (machine sender) (machine r) step.1 bench) := by
  have sends := clean sender
  rw [root_role] at sends
  have parts := main_asserts sends.ended
  have own : (mainSystem sender iters full bufsize minBs maxBs machine).schedule r =
      kinds eventKind (mainProgram (roleOf sender r) iters full (machine r) bufsize minBs maxBs).acts := rfl
  have root : (mainSystem sender iters full bufsize minBs maxBs machine).schedule sender =
      kinds eventKind (mainProgram .sender iters full (machine sender) bufsize minBs maxBs).acts := by
    simp only [System.schedule,mainSystem,root_role]
  rw [own,root,main_kinds (clean r).ended,main_kinds sends.ended]
  refine follows_behind [.barrier] (flatMap_follows fun step visit => flatMap_follows fun bench _ => ?_)
  exact turn_follows some_iteration small nonzero sized clean r parts.1 (Nat.le_trans parts.2.2 small) visit bench

end

-- Main on any number of ranks: either in every order of steps all get through it, or in no order
-- does any rank. What decides is that all have the XPMEM driver together, and that no page is
-- refused to a receiver.
theorem main_finishes {size : Nat} (sender : Fin size) (iters full bufsize minBs maxBs : Nat) (machine : Fin size → Machine)
    (some_iteration : 0 < iters) (nonzero : 0 < full) (sized : full < sizeMod) (small : bufsize ≤ intMax)
    (clean : ∀ r, Clean (roleOf sender r) iters full (machine r) (machine sender).lbuf bufsize minBs maxBs) :
    (System.Finishes (mainSystem sender iters full bufsize minBs maxBs machine) ↔
      ∀ r q, minBs * 2 ^ q ≤ maxBs → ∀ bench, Joins (roleOf sender r) iters (machine sender) (machine r) q bench) ∧
    ((¬ ∀ r q, minBs * 2 ^ q ≤ maxBs → ∀ bench, Joins (roleOf sender r) iters (machine sender) (machine r) q bench) →
      ∀ cfg, (mainSystem sender iters full bufsize minBs maxBs machine).Reached cfg →
        ∀ r, ¬ (mainSystem sender iters full bufsize minBs maxBs machine).Through cfg r) := by
  have parts := main_asserts (clean sender).ended
  have visits := visited_iff (Nat.le_trans parts.2.2 small) parts.1
  have joins : (∀ r q, minBs * 2 ^ q ≤ maxBs → ∀ bench, Joins (roleOf sender r) iters (machine sender) (machine r) q bench) ↔
      ∀ r, ∀ step ∈ visited maxBs sweepFuel (0,minBs), ∀ bench ∈ order, Joins (roleOf sender r) iters (machine sender) (machine r) step.1 bench := by
    constructor
    · intro all r step visit bench _
      obtain ⟨q,rfl,below⟩ := (visits step).mp visit
      exact all r q below bench
    · intro all r q below bench
      exact all r (q,minBs * 2 ^ q) ((visits _).mpr ⟨q,rfl,below⟩) bench (by cases bench <;> decide)
  rw [joins]
  exact System.splits_finish fun r => main_follows some_iteration small nonzero sized clean r

-- Three ranks: with a driver on each, without one on rank 2, and with blocks of half a page of
-- which rank 1 is refused the page.
def mixedMachine (rank : Nat) : Machine :=
  if rank = 2 then {tinyMachine rank with driver := fun _ _ => ⟨-1,fun _ => 7,fun _ _ _ _ => none⟩} else tinyMachine rank
def refusedMachine (rank : Nat) : Machine :=
  if rank = 1 then {tinyMachine rank with pageSize := 8,driver := fun _ _ => ⟨1,fun _ => 7,fun _ _ _ _ => none⟩}
    else {tinyMachine rank with pageSize := 8}

theorem main_finishes_three_ranks :
    System.Finishes (mainSystem (0 : Fin 3) 2 4 8 4 8 fun r => tinyMachine r) ∧
    (∀ cfg, (mainSystem (0 : Fin 3) 2 4 8 4 8 fun r => mixedMachine r).Reached cfg →
      ∀ r, ¬ (mainSystem (0 : Fin 3) 2 4 8 4 8 fun r => mixedMachine r).Through cfg r) ∧
    ∀ cfg, (mainSystem (0 : Fin 3) 1 4 8 4 4 fun r => refusedMachine r).Reached cfg →
      ∀ r, ¬ (mainSystem (0 : Fin 3) 1 4 8 4 4 fun r => refusedMachine r).Through cfg r := by
  have alike := main_finishes (0 : Fin 3) 2 4 8 4 8 (fun r => tinyMachine r) (by decide) (by decide) (by decide) (by decide) (fun
    | 0 => ⟨by decide +kernel,⟨by decide,by decide +kernel,by decide +kernel⟩,fun _ _ _ _ => initIov_length⟩
    | 1 => ⟨by decide +kernel,⟨by decide,by decide +kernel,by decide +kernel⟩,fun _ _ _ _ => initIov_length⟩
    | 2 => ⟨by decide +kernel,⟨by decide,by decide +kernel,by decide +kernel⟩,fun _ _ _ _ => initIov_length⟩)
  have mixed := main_finishes (0 : Fin 3) 2 4 8 4 8 (fun r => mixedMachine r) (by decide) (by decide) (by decide) (by decide) (fun
    | 0 => ⟨by decide +kernel,⟨by decide,by decide +kernel,by decide +kernel⟩,fun _ _ _ _ => initIov_length⟩
    | 1 => ⟨by decide +kernel,⟨by decide,by decide +kernel,by decide +kernel⟩,fun _ _ _ _ => initIov_length⟩
    | 2 => ⟨by decide +kernel,⟨by decide,by decide +kernel,by decide +kernel⟩,fun _ _ _ _ => initIov_length⟩)
  have refused := main_finishes (0 : Fin 3) 1 4 8 4 4 (fun r => refusedMachine r) (by decide) (by decide) (by decide) (by decide) (fun
    | 0 => ⟨by decide +kernel,⟨by decide,by decide +kernel,by decide +kernel⟩,fun _ _ _ _ => initIov_length⟩
    | 1 => ⟨by decide +kernel,⟨by decide,by decide +kernel,by decide +kernel⟩,fun _ _ _ _ => initIov_length⟩
    | 2 => ⟨by decide +kernel,⟨by decide,by decide +kernel,by decide +kernel⟩,fun _ _ _ _ => initIov_length⟩)
  refine ⟨alike.1.mpr fun r q _ bench xpmem => ⟨?_,fun _ _ _ _ _ _ _ _ _ => rfl⟩,mixed.2 fun joins => ?_,refused.2 fun joins => ?_⟩
  · cases bench <;> exact Iff.rfl
  · have working : Reaches (mixedMachine 0) 0 .xpmemNocache := (by decide : (0 : Int) ≤ 1)
    exact absurd (((joins 2 0 (by decide) .xpmemNocache (.inl rfl)).1).mpr working) (by decide : ¬ (0 : Int) ≤ -1)
  · have working : Reaches (refusedMachine 1) 0 .xpmemNocache := (by decide : (0 : Int) ≤ 1)
    have granted := (joins 1 0 (by decide) .xpmemNocache (.inl rfl)).2 rfl working 0 (by decide) rfl 0 ⟨64,4⟩ rfl (fun _ => by decide)
    cases granted

end MpidtBench.SweepProgress
