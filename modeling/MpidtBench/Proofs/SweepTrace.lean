import MpidtBench.Proofs.SweepWindows

namespace MpidtBench.SweepTrace
open Traced CInteger ScatterGather Collective MpidtBench PipelineProtocol XpmemLoops SweepShape SweepWindows

-- The steps of the sweep: number and block size.
def visited (maxBs : Nat) : Nat → Nat × Nat → List (Nat × Nat)
  | 0,_ => []
  | fuel+1,s => if s.2 ≤ maxBs then s :: visited maxBs fuel (s.1+1,mulSize s.2 2) else []

-- The shift of a block size that an int can hold.
theorem shift_exact {maxBs blocksize : Nat} (small : maxBs ≤ intMax) (below : blocksize ≤ maxBs) :
    mulSize blocksize 2 = blocksize * 2 := by
  apply mulSize_exact
  simp only [intMax,sizeMod] at *
  omega

-- The block sizes are those that doubling makes, each one once.
theorem visited_at {maxBs : Nat} (small : maxBs ≤ intMax) {fuel : Nat} {s step : Nat × Nat} (member : step ∈ visited maxBs fuel s) :
    ∃ k, step = (s.1+k,s.2 * 2 ^ k) ∧ s.2 * 2 ^ k ≤ maxBs := by
  induction fuel generalizing s with
  | zero => cases member
  | succ fuel ih =>
      unfold visited at member
      split at member
      · rename_i more
        rcases List.mem_cons.mp member with rfl | later
        · exact ⟨0,by simp,by simpa using more⟩
        · rw [shift_exact small more] at later
          obtain ⟨k,rfl,below⟩ := ih later
          rw [Nat.mul_assoc,← Nat.pow_succ'] at below ⊢
          exact ⟨k+1,by rw [Nat.add_assoc,Nat.add_comm 1 k],below⟩
      · cases member

theorem at_visited {maxBs : Nat} (small : maxBs ≤ intMax) {fuel k : Nat} {s : Nat × Nat} (below : s.2 * 2 ^ k ≤ maxBs) (inside : k < fuel) :
    (s.1+k,s.2 * 2 ^ k) ∈ visited maxBs fuel s := by
  induction fuel generalizing s k with
  | zero => cases inside
  | succ fuel ih =>
      have more : s.2 ≤ maxBs := Nat.le_trans (Nat.le_mul_of_pos_right _ (Nat.two_pow_pos k)) below
      rw [visited,if_pos more]
      cases k with
      | zero => simp
      | succ k =>
          rw [Nat.pow_succ',← Nat.mul_assoc] at below ⊢
          have later := @ih k (s.1+1,s.2 * 2) below (by omega)
          rw [shift_exact small more,← Nat.add_assoc,Nat.add_right_comm]
          exact List.mem_cons_of_mem _ later

-- The fuel of main's sweep lasts for every size an int can hold.
theorem visited_iff {minBs maxBs : Nat} (small : maxBs ≤ intMax) (nonzero : 0 < minBs) (step : Nat × Nat) :
    step ∈ visited maxBs sweepFuel (0,minBs) ↔ ∃ k, step = (k,minBs * 2 ^ k) ∧ minBs * 2 ^ k ≤ maxBs := by
  constructor
  · intro member
    obtain ⟨k,rfl,below⟩ := visited_at small member
    exact ⟨k,by rw [Nat.zero_add],below⟩
  · rintro ⟨k,rfl,below⟩
    have early : k < sweepFuel := by
      apply Nat.lt_of_not_le
      intro late
      have power := Nat.pow_le_pow_right (n := 2) (by decide) late
      have first := Nat.le_mul_of_pos_left (2 ^ k) nonzero
      simp only [intMax,sweepFuel] at small power
      omega
    have visit := @at_visited maxBs small sweepFuel k (0,minBs) below early
    rwa [Nat.zero_add] at visit

theorem visited_nodup {maxBs : Nat} (small : maxBs ≤ intMax) (fuel : Nat) (s : Nat × Nat) : (visited maxBs fuel s).Nodup := by
  induction fuel generalizing s with
  | zero => exact List.nodup_nil
  | succ fuel ih =>
      unfold visited
      split
      · refine List.nodup_cons.mpr ⟨fun member => ?_,ih _⟩
        obtain ⟨k,same,_⟩ := visited_at small member
        have first := congrArg Prod.fst same
        simp only at first
        omega
      · exact List.nodup_nil

-- The list in liov when a benchmark is called.
def iovBefore (role : Role) (iters : Nat) (machine : Machine) (q : Nat) (liov : List IoVec) : Bench → List IoVec
  | .xpmemCached => iovAfter role iters machine q liov .xpmemNocache
  | _ => liov

section
variable {role : Role} {iters full bufsize minBs maxBs blocksize q : Nat} {machine : Machine} {liov : List IoVec}

def called (role : Role) (iters full bufsize : Nat) (machine : Machine) (s : Nat × Nat) (bench : Bench) : Run Fault Stamped Unit :=
  benchmark role iters full machine bufsize s.2 s.1
    (iovBefore role iters machine s.1 (initIov machine.lbuf (bufsize / s.2) s.2) bench) bench

-- What one call of a benchmark issues, with the Barrier behind it.
def turn (role : Role) (iters full bufsize : Nat) (machine : Machine) (s : Nat × Nat) (bench : Bench) : List Event :=
  (called role iters full bufsize machine s bench).acts.map (Prod.mk (some (s.1,bench))) ++ [(none,none,.barrier)]

theorem call_parts {bench : Bench} {rest : List Bench}
    (ended : (callBenchmarks role iters full machine bufsize blocksize q (bench :: rest) liov).out = .ok ()) :
    (benchmark role iters full machine bufsize blocksize q liov bench).out = .ok () ∧
      (callBenchmarks role iters full machine bufsize blocksize q rest (iovAfter role iters machine q liov bench)).out = .ok () ∧
      (callBenchmarks role iters full machine bufsize blocksize q (bench :: rest) liov).acts =
        ((benchmark role iters full machine bufsize blocksize q liov bench).acts.map (Prod.mk (some (q,bench))) ++
          [(none,none,.barrier)]) ++
        (callBenchmarks role iters full machine bufsize blocksize q rest (iovAfter role iters machine q liov bench)).acts := by
  rw [callBenchmarks] at ended ⊢
  obtain ⟨_,first,later,acts⟩ := Run.chain_parts ended
  rw [Run.emit_chain] at later
  refine ⟨first,later,?_⟩
  rw [acts,Run.emit_chain]
  simp

theorem order_parts {s : Nat × Nat}
    (ended : (callBenchmarks role iters full machine bufsize s.2 s.1 order (initIov machine.lbuf (bufsize / s.2) s.2)).out = .ok ()) :
    (callBenchmarks role iters full machine bufsize s.2 s.1 order (initIov machine.lbuf (bufsize / s.2) s.2)).acts =
        order.flatMap (turn role iters full bufsize machine s) ∧
      ∀ bench, (called role iters full bufsize machine s bench).out = .ok () := by
  obtain ⟨shmem,after,first⟩ := call_parts ended
  obtain ⟨pip,after,second⟩ := call_parts after
  obtain ⟨cma,after,third⟩ := call_parts after
  obtain ⟨nocache,after,fourth⟩ := call_parts after
  obtain ⟨cached,_,fifth⟩ := call_parts after
  constructor
  · simp only [order] at first ⊢
    rw [first,second,third,fourth,fifth]
    simp only [List.flatMap_cons,List.flatMap_nil,turn,called]
    rfl
  · intro bench
    cases bench with
    | shmem => exact shmem
    | shmemPip => exact pip
    | cma => exact cma
    | xpmemNocache => exact nocache
    | xpmemCached => exact cached

theorem call_ends {bench : Bench} {rest : List Bench}
    (first : (benchmark role iters full machine bufsize blocksize q liov bench).out = .ok ())
    (later : (callBenchmarks role iters full machine bufsize blocksize q rest (iovAfter role iters machine q liov bench)).out = .ok ()) :
    (callBenchmarks role iters full machine bufsize blocksize q (bench :: rest) liov).out = .ok () := by
  have labelled : ((benchmark role iters full machine bufsize blocksize q liov bench).label (Prod.mk (some (q,bench)))).out = .ok () :=
    first
  rw [callBenchmarks,Run.chain_ok labelled,Run.emit_chain]
  exact later

theorem order_ends {s : Nat × Nat} (each : ∀ bench, (called role iters full bufsize machine s bench).out = .ok ()) :
    (callBenchmarks role iters full machine bufsize s.2 s.1 order (initIov machine.lbuf (bufsize / s.2) s.2)).out = .ok () := by
  refine call_ends (each .shmem) (call_ends (each .shmemPip) (call_ends (each .cma) (call_ends (each .xpmemNocache) ?_)))
  exact call_ends (each .xpmemCached) rfl

theorem sweep_step {s : Nat × Nat} (more : s.2 ≤ maxBs) (bytes : 0 < s.2)
    (each : ∀ bench, (called role iters full bufsize machine s bench).out = .ok ()) :
    (sweepBody role iters full machine bufsize maxBs s).out = .ok (.inl (s.1+1,mulSize s.2 2)) := by
  rw [sweepBody,if_pos more,divide_some bytes,Run.pure_chain,assert,if_pos (decide_eq_true bytes),Run.pure_chain,
    Run.chain_ok (order_ends each)]
  rfl

theorem sweep_ends {fuel : Nat} {s : Nat × Nat} (small : maxBs ≤ intMax) (bytes : 0 < s.2) (enough : maxBs < s.2 * 2 ^ fuel)
    (each : ∀ k, s.2 * 2 ^ k ≤ maxBs → ∀ bench, (called role iters full bufsize machine (s.1+k,s.2 * 2 ^ k) bench).out = .ok ()) :
    (loop .unfinished (sweepBody role iters full machine bufsize maxBs) (fuel+1) s).out = .ok () := by
  induction fuel generalizing s with
  | zero =>
      have beyond : ¬ s.2 ≤ maxBs := by omega
      rw [loop,sweepBody,if_neg beyond]
      rfl
  | succ fuel ih =>
      by_cases more : s.2 ≤ maxBs
      · have shifted : ∀ k, s.2 * 2 * 2 ^ k = s.2 * 2 ^ (k+1) := fun k => by rw [Nat.pow_succ',Nat.mul_assoc]
        have benched := each 0 (by simpa using more)
        rw [Nat.pow_zero,Nat.mul_one,Nat.add_zero] at benched
        rw [loop,Run.chain_ok (sweep_step more bytes benched),shift_exact small more]
        apply ih (show 0 < s.2 * 2 by omega) (by rw [shifted]; exact enough)
        intro k below bench
        have next := each (k+1) (by rw [← shifted]; exact below) bench
        rw [← shifted,← Nat.add_assoc,Nat.add_right_comm] at next
        exact next
      · rw [loop,sweepBody,if_neg more]
        rfl

theorem sweepBody_parts {s u : Nat × Nat} (stepped : (sweepBody role iters full machine bufsize maxBs s).out = .ok (.inl u)) :
    s.2 ≤ maxBs ∧ 0 < s.2 ∧ u = (s.1+1,mulSize s.2 2) ∧
      (sweepBody role iters full machine bufsize maxBs s).acts = order.flatMap (turn role iters full bufsize machine s) ∧
      ∀ bench, (called role iters full bufsize machine s bench).out = .ok () := by
  by_cases more : s.2 ≤ maxBs
  · rw [sweepBody,if_pos more] at stepped ⊢
    obtain ⟨nblocks,divided,checked,_⟩ := Run.chain_parts stepped
    have bytes : 0 < s.2 := by
      apply Nat.pos_of_ne_zero
      intro zero
      rw [divide,if_pos zero] at divided
      cases divided
    rw [divide_some bytes,Run.pure_chain] at stepped ⊢
    rw [assert,if_pos (decide_eq_true bytes),Run.pure_chain] at stepped ⊢
    obtain ⟨_,benched,last,parts⟩ := Run.chain_parts stepped
    cases last
    obtain ⟨issued,passed⟩ := order_parts benched
    exact ⟨more,bytes,rfl,by rw [parts,Run.pure_acts,List.append_nil,issued],passed⟩
  · rw [sweepBody,if_neg more] at stepped
    cases stepped

theorem sweep_parts {fuel : Nat} {s : Nat × Nat}
    (ended : (loop .unfinished (sweepBody role iters full machine bufsize maxBs) fuel s).out = .ok ()) :
    (loop .unfinished (sweepBody role iters full machine bufsize maxBs) fuel s).acts =
        (visited maxBs fuel s).flatMap (fun step => order.flatMap (turn role iters full bufsize machine step)) ∧
      ∀ step ∈ visited maxBs fuel s, 0 < step.2 ∧ ∀ bench, (called role iters full bufsize machine step bench).out = .ok () := by
  induction fuel generalizing s with
  | zero => cases ended
  | succ fuel ih =>
      rw [loop] at ended ⊢
      by_cases more : s.2 ≤ maxBs
      · obtain ⟨choice,stepped,rest,acts⟩ := Run.chain_parts ended
        cases choice with
        | inr value =>
            rw [sweepBody,if_pos more] at stepped
            obtain ⟨_,_,checked,_⟩ := Run.chain_parts stepped
            obtain ⟨_,_,benched,_⟩ := Run.chain_parts checked
            obtain ⟨_,_,last,_⟩ := Run.chain_parts benched
            cases last
        | inl next =>
            obtain ⟨_,bytes,rfl,issued,passed⟩ := sweepBody_parts stepped
            obtain ⟨looped,others⟩ := ih rest
            rw [acts,visited,if_pos more,issued,List.flatMap_cons]
            refine ⟨congrArg _ looped,?_⟩
            intro step member
            rcases List.mem_cons.mp member with rfl | later
            · exact ⟨bytes,passed⟩
            · exact others step later
      · rw [sweepBody,if_neg more,visited,if_neg more]
        exact ⟨rfl,fun _ member => absurd member List.not_mem_nil⟩

def freed (machine : Machine) : List Event := if machine.lbuf ≠ 0 then [(none,none,.free machine.lbuf)] else []

theorem main_parts (ended : (mainProgram role iters full machine bufsize minBs maxBs).out = .ok ()) :
    (mainProgram role iters full machine bufsize minBs maxBs).acts = (none,none,.barrier) ::
        ((visited maxBs sweepFuel (0,minBs)).flatMap (fun step => order.flatMap (turn role iters full bufsize machine step)) ++
          freed machine) ∧
      ∀ step ∈ visited maxBs sweepFuel (0,minBs), 0 < step.2 ∧
        ∀ bench, (called role iters full bufsize machine step bench).out = .ok () := by
  unfold mainProgram at ended ⊢
  obtain ⟨_,some_bytes⟩ := assert_parts ended
  rw [some_bytes] at ended ⊢
  obtain ⟨_,sizes⟩ := assert_parts ended
  rw [sizes] at ended ⊢
  obtain ⟨_,_,swept,acts⟩ := Run.chain_parts ended
  obtain ⟨_,looped,_,more⟩ := Run.chain_parts swept
  obtain ⟨issued,steps⟩ := sweep_parts looped
  refine ⟨?_,steps⟩
  rw [acts,more,issued]
  unfold freed
  split <;> rfl

-- Main itself only synchronizes and frees its buffer; all else is a benchmark's.
theorem main_mem (ended : (mainProgram role iters full machine bufsize minBs maxBs).out = .ok ()) {event : Event}
    (member : event ∈ (mainProgram role iters full machine bufsize minBs maxBs).acts) :
    event = (none,none,.barrier) ∨ event = (none,none,.free machine.lbuf) ∨
      ∃ step ∈ visited maxBs sweepFuel (0,minBs), ∃ bench, ∃ act ∈ (called role iters full bufsize machine step bench).acts,
        event = (some (step.1,bench),act) := by
  rw [(main_parts ended).1] at member
  rcases List.mem_cons.mp member with first | later
  · exact .inl first
  · rcases List.mem_append.mp later with swept | last
    · obtain ⟨step,visit,turned⟩ := List.mem_flatMap.mp swept
      obtain ⟨bench,_,issued⟩ := List.mem_flatMap.mp turned
      rcases List.mem_append.mp issued with made | barrier
      · obtain ⟨act,inside,same⟩ := List.mem_map.mp made
        exact .inr (.inr ⟨step,visit,bench,act,inside,same.symm⟩)
      · exact .inl (List.mem_singleton.mp barrier)
    · unfold freed at last
      split at last
      · exact .inr (.inl (List.mem_singleton.mp last))
      · cases last

theorem main_ends (some_bytes : 0 < bufsize) (nonzero : 0 < minBs) (ordered : minBs ≤ maxBs) (inside : maxBs ≤ bufsize)
    (small : bufsize ≤ intMax)
    (each : ∀ k, minBs * 2 ^ k ≤ maxBs → ∀ bench, (called role iters full bufsize machine (k,minBs * 2 ^ k) bench).out = .ok ()) :
    (mainProgram role iters full machine bufsize minBs maxBs).out = .ok () := by
  have checked : (minBs ≤ maxBs && maxBs ≤ bufsize && 0 < maxBs && 0 < minBs) = true := by simp; omega
  have enough : maxBs < minBs * 2 ^ 65 := by simp only [intMax] at small; omega
  have swept := @sweep_ends role iters full bufsize maxBs machine 65 (0,minBs) (Nat.le_trans inside small) nonzero enough
    fun k below bench => by rw [Nat.zero_add]; exact each k below bench
  rw [mainProgram,assert,if_pos (decide_eq_true some_bytes),Run.pure_chain,checked,assert,if_pos rfl,Run.pure_chain,Run.emit_chain,
    sweepFuel,Run.chain_ok swept]
  dsimp only
  split <;> rfl

-- The calls of a benchmark, the same on every rank whose XPMEM driver works.
def rounds (iters : Nat) (rts : Act) : List Stamped := (List.range iters).flatMap fun j => [(some j,rts),(some j,.gather)]
def xpmemCalls (iters : Nat) (nblocks : Int) (works : Bool) : List Stamped :=
  if works then (none,.bcast .segid 8) :: (rounds iters (.bcast .iov (iovecBytes nblocks)) ++ [(none,.barrier)]) else []
def benchCalls (iters full bufsize blocksize : Nat) (works : Bool) : Bench → List Stamped
  | .shmem => rounds iters (.bcast .dummy 1) ++ [(none,.barrier)]
  | .shmemPip => PipelineProtocol.schedule iters (bufsize / full)
  | .cma => (none,.bcast .rpid 4) :: (rounds iters (.bcast .iov (iovecBytes (toInt (bufsize / blocksize)))) ++ [(none,.barrier)])
  | .xpmemNocache => xpmemCalls iters (toInt (bufsize / blocksize)) works
  | .xpmemCached => xpmemCalls iters (toInt (bufsize / blocksize)) works

theorem handshake_calls {block : List Act} {rts : Act} (call : (callKind rts).isSome) (shape : Handshake role rts block) (j : Nat) :
    calls stampedKind (block.map (Prod.mk (some j))) = [(some j,rts),(some j,.gather)] := by
  obtain ⟨lead,trail,rfl,quiet,_⟩ := shape
  rw [calls_map]
  have two := @window_calls _ (stampedKind ∘ Prod.mk (some j)) rts .gather lead trail quiet call rfl
  rw [two]
  rfl

theorem rounds_calls {rts : Act} {front back acts : List Stamped} (call : (callKind rts).isSome)
    (shape : Rounds role iters rts front back acts) :
    calls stampedKind acts = calls stampedKind front ++ (rounds iters rts ++ calls stampedKind back) := by
  obtain ⟨blocks,rfl,shapes⟩ := shape
  have passes : calls stampedKind ((List.range iters).flatMap fun j => (blocks j).map (Prod.mk (some j))) = rounds iters rts := by
    rw [calls_flatMap,rounds]
    exact List.flatMap_congr fun j member => handshake_calls call (shapes j (List.mem_range.mp member)) j
  rw [calls_append,calls_append,passes]

theorem release_calls (apid : Nat) : calls stampedKind (release apid) = [] := by
  unfold release
  split <;> rfl

-- What is needed of a benchmark: its windows and its calls.
structure Ready (role : Role) (iters full lbuf bufsize blocksize : Nat) (works : Bool) (tag : Nat × Bench)
    (acts : List Stamped) : Prop where
  disciplined : Disciplined role iters lbuf bufsize (acts.map (Prod.mk (some tag)))
  calls : calls stampedKind acts = benchCalls iters full bufsize blocksize works tag.2

section
variable {lbuf : Nat} {tag : Nat × Bench} {works : Bool}

theorem rounds_disciplined {front back acts : List Stamped} (windowed : tag.2 ≠ .shmemPip)
    (shape : Rounds role iters (.bcast what count) front back acts)
    (calm : ∀ event ∈ front ++ back, event.1 = none ∧ isTransfer event.2 = false)
    (set : (none,.memset lbuf (initByte role) bufsize) ∈ front) :
    Disciplined role iters lbuf bufsize (acts.map (Prod.mk (some tag))) := by
  obtain ⟨blocks,rfl,shapes⟩ := shape
  exact benchmark_disciplined (fun j below => handshake_opened windowed (shapes j below)) calm set

theorem shmem_ready {ptr : Nat} (bench : tag.2 = .shmem)
    (ended : (benchmarkShmem role iters ptr lbuf liov bufsize blocksize).out = .ok ()) :
    Ready role iters full lbuf bufsize blocksize works tag (benchmarkShmem role iters ptr lbuf liov bufsize blocksize).acts := by
  have shape := shmem_rounds ended
  refine ⟨rounds_disciplined (by rw [bench]; exact nofun) shape (by simp [isTransfer]) (by simp),?_⟩
  rw [rounds_calls rfl shape,bench]
  rfl

theorem cma_ready {limit : Int} {readv : Nat → Int → Int → Nat} {riov : Nat → List IoVec} (bench : tag.2 = .cma)
    (ended : (benchmarkCma role iters limit readv riov liov lbuf bufsize blocksize).out = .ok ()) :
    Ready role iters full lbuf bufsize blocksize works tag
      (benchmarkCma role iters limit readv riov liov lbuf bufsize blocksize).acts := by
  have shape := cma_rounds ended
  refine ⟨rounds_disciplined (by rw [bench]; exact nofun) shape (by simp [isTransfer]) (by simp),?_⟩
  rw [rounds_calls rfl shape,bench]
  rfl

theorem xpmem_ready {attachNow detachNow : Nat → Bool} {pageSize apid : Nat} {driver : XpmemDriver} {iov : Nat → List IoVec}
    (bench : tag.2 = .xpmemNocache ∨ tag.2 = .xpmemCached)
    (ended : (benchmarkXpmem role attachNow detachNow iters pageSize lbuf driver iov bufsize blocksize apid).out = .ok ())
    (granted : ∀ event ∈ (benchmarkXpmem role attachNow detachNow iters pageSize lbuf driver iov bufsize blocksize apid).acts,
      refused event.2 = false) :
    Ready role iters full lbuf bufsize blocksize (0 ≤ driver.version) tag
      (benchmarkXpmem role attachNow detachNow iters pageSize lbuf driver iov bufsize blocksize apid).acts := by
  have windowed : tag.2 ≠ .shmemPip := by
    rcases bench with same | same
    all_goals rw [same]; decide
  have both : benchCalls iters full bufsize blocksize (0 ≤ driver.version) tag.2 =
      xpmemCalls iters (toInt (bufsize / blocksize)) (0 ≤ driver.version) := by
    rcases bench with same | same
    all_goals rw [same]; rfl
  by_cases version : 0 ≤ driver.version
  · obtain ⟨last,shape⟩ := xpmem_rounds version ended granted
    refine ⟨rounds_disciplined windowed shape ?_ (by simp),?_⟩
    · intro event member
      simp only [List.cons_append,List.nil_append,List.mem_cons] at member
      rcases member with rfl | rfl | rfl | released
      · exact ⟨rfl,rfl⟩
      · exact ⟨rfl,rfl⟩
      · exact ⟨rfl,rfl⟩
      · rw [release_mem released]; exact ⟨rfl,rfl⟩
    · have last_call : calls stampedKind ((none,.barrier) :: release last) = [(none,.barrier)] := by
        rw [← List.singleton_append,calls_append,release_calls]
        rfl
      rw [rounds_calls rfl shape,last_call,both,xpmemCalls,if_pos (decide_eq_true version)]
      rfl
  · have broken : driver.version < 0 := by omega
    have nothing : benchmarkXpmem role attachNow detachNow iters pageSize lbuf driver iov bufsize blocksize apid = pure () := by
      rw [benchmarkXpmem,if_pos broken]
    rw [nothing]
    refine ⟨calm_disciplined fun _ member => absurd member List.not_mem_nil,?_⟩
    rw [both,xpmemCalls,if_neg (by simpa using broken)]
    rfl

theorem pip_ready {ptr : Nat} (bench : tag.2 = .shmemPip) (small : bufsize ≤ intMax) (bytes : 0 < blocksize) (nonzero : 0 < full)
    (sized : full < sizeMod) (ended : (benchmarkShmemPip role iters full ptr lbuf (initIov lbuf (bufsize / blocksize) blocksize)
      bufsize blocksize).out = .ok ()) :
    Ready role iters full lbuf bufsize blocksize works tag
      (benchmarkShmemPip role iters full ptr lbuf (initIov lbuf (bufsize / blocksize) blocksize) bufsize blocksize).acts := by
  have disciplined : ∀ liov, Disciplined role iters lbuf bufsize
      ((programActs role iters full ptr lbuf bufsize liov).map (Prod.mk (some tag))) := fun liov =>
    @benchmark_disciplined role iters lbuf bufsize tag [(none,.memset lbuf (initByte role) bufsize)] [(none,.barrier)]
      (fun _ => iterationActs role full ptr liov) (fun _ _ => pip_opened bench) (by simp [isTransfer]) (by simp)
  rcases Nat.eq_zero_or_pos iters with rfl | some_iteration
  · have empty : benchmarkShmemPip role 0 full ptr lbuf (initIov lbuf (bufsize / blocksize) blocksize) bufsize blocksize =
        ⟨programActs role 0 full ptr lbuf bufsize [],.ok ()⟩ := by
      unfold benchmarkShmemPip
      rw [initBuffer_run]
      rfl
    rw [empty]
    refine ⟨disciplined [],?_⟩
    rw [programActs_calls,bench]
    rfl
  · obtain ⟨acts,whole⟩ := pip_run small bytes nonzero sized some_iteration ended
    rw [acts]
    refine ⟨disciplined _,?_⟩
    rw [programActs_calls,whole,bench]
    rfl

end

-- Whether the rank takes part in an XPMEM benchmark.
def works (machine : Machine) (s : Nat × Nat) (bench : Bench) : Bool := 0 ≤ (machine.driver s.1 bench).version

theorem called_ready {s : Nat × Nat} (small : bufsize ≤ intMax) (bytes : 0 < s.2) (nonzero : 0 < full) (sized : full < sizeMod)
    (bench : Bench) (ended : (called role iters full bufsize machine s bench).out = .ok ())
    (granted : ∀ event ∈ (called role iters full bufsize machine s bench).acts, refused event.2 = false) :
    Ready role iters full machine.lbuf bufsize s.2 (works machine s bench) (s.1,bench)
      (called role iters full bufsize machine s bench).acts := by
  cases bench with
  | shmem => exact shmem_ready rfl ended
  | shmemPip => exact pip_ready rfl small bytes nonzero sized ended
  | cma => exact cma_ready rfl ended
  | xpmemNocache => exact xpmem_ready (.inl rfl) ended granted
  | xpmemCached => exact xpmem_ready (.inr rfl) ended granted

end
end MpidtBench.SweepTrace
