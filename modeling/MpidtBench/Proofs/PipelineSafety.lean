import MpidtBench.Proofs.SharedDelivery

namespace MpidtBench.PipelineSafety
open Traced CInteger ScatterGather Collective MpidtBench PipelineLoops PipelineProtocol PipelineRefinement SharedDelivery
open MpidtBench.Delivery (Apart copy_inside iterationActs_mem)

-- What holds of the region whenever some rank is about to act.
structure RegionSafe (sys : System (Fin size) Stamped) (lbuf ptr : Fin size → Nat) (full bufsize : Nat) (cfg : Config (Fin size)) : Prop where
  announced : ∀ j k, sys.current cfg sys.root = some (some j,.bcast .dummy 1) →
    (sys.finished cfg sys.root).count (some j,.bcast .dummy 1) + 1 = k → ∀ b,
    ((∃ act, (some j,act) ∈ sys.finished cfg sys.root ∧ touches .sender (ptr sys.root) b act) ↔ b < k * full)
  fresh : ∀ r ≠ sys.root, ∀ j act b, sys.current cfg r = some (some j,act) → touches .receiver (ptr r) b act →
    (∃ sent, (some j,sent) ∈ sys.finished cfg sys.root ∧ touches .sender (ptr sys.root) b sent) ∧
    ∀ i sent, (some i,sent) ∈ sys.finished cfg sys.root → touches .sender (ptr sys.root) b sent → i ≤ j
  released : ∀ i j act b, i < j → sys.current cfg sys.root = some (some j,act) → touches .sender (ptr sys.root) b act →
    ∀ r ≠ sys.root, ∃ got, (some i,got) ∈ sys.finished cfg r ∧ touches .receiver (ptr r) b got
  kept : ∀ r ≠ sys.root, Apart (lbuf r) (ptr r) bufsize → ∀ stamp act, sys.current cfg r = some (stamp,act) →
    ∀ b < bufsize, ¬ Written act (ptr r + b)

theorem touches_local (touch : touches role ptr b act) : callKind act = none := by
  cases act <;> first | rfl | cases touch

theorem schedule_kind (below : j < iters) (inside : i ≤ rounds) :
    ((List.range iters).flatMap (fun _ => List.replicate rounds Kind.bcast ++ [.gather]) ++ [.barrier])[j * (rounds+1) + i]? =
      if i < rounds then some .bcast else some .gather := by
  obtain ⟨rest,split,front⟩ := @flatMap_range_split _ (rounds+1) j iters
    (fun _ => List.replicate rounds Kind.bcast ++ [.gather]) (by simp) below
  rw [split,← front,List.append_assoc,List.append_assoc,List.getElem?_append_right (by omega),Nat.add_sub_cancel_left,
    List.getElem?_append_left (by simp; omega)]
  by_cases early : i < rounds
  · rw [if_pos early,List.getElem?_append_left (by simpa using early),List.getElem?_replicate,if_pos early]
  · obtain rfl : i = rounds := by omega
    rw [if_neg early,List.getElem?_append_right (by simp)]
    simp

theorem program_written {iters full ptr lbuf a : Nat} {liov : List IoVec} (positive : Positive liov) (divides : full ∣ total liov)
    (named : ∀ a ∈ addrs liov, lbuf ≤ a ∧ a < lbuf + total liov) {event : Stamped}
    (member : event ∈ programActs .receiver iters full ptr lbuf (total liov) liov) (written : Written event.2 a) :
    lbuf ≤ a ∧ a < lbuf + total liov := by
  rcases List.mem_cons.mp member with rfl | inside
  · exact written
  rcases List.mem_append.mp inside with moved | last
  · obtain ⟨j,_,issued⟩ := List.mem_flatMap.mp moved
    obtain ⟨act,listed,rfl⟩ := List.mem_map.mp issued
    rcases iterationActs_mem listed with rfl | rfl | copied
    · cases written
    · cases written
    · have bounds := @copy_inside .receiver ptr _ ⟨.receiver,0,lbuf,ptr,0,total liov,0⟩ rfl rfl
        (Nat.le_of_eq (rounds_total positive divides)) (by rw [rounds_addrs positive divides]; exact named) act copied
      obtain ⟨copy,_,rfl⟩ := List.mem_map.mp copied
      have low : copy.dst ≤ a ∧ a < copy.dst + copy.len := written
      obtain ⟨k,below,rfl⟩ := within_inside bounds.1 low
      exact ⟨Nat.le_add_right _ _,Nat.add_lt_add_left below _⟩
  · rw [List.mem_singleton.mp last] at written
    cases written

-- Ranks that run the complete program on blocks of their own buffers, the root as the sender.
structure PipRanks (sys : System (Fin size) Stamped) (lbuf ptr : Fin size → Nat) (iters full rounds : Nat) : Prop where
  kind : sys.kind = stampedKind
  filled : 0 < full
  acts : ∀ r, ∃ liov, Positive liov ∧ total liov = rounds * full ∧ (∀ a ∈ addrs liov, lbuf r ≤ a ∧ a < lbuf r + total liov) ∧
    sys.acts r = programActs (roleOf sys.root r) iters full (ptr r) (lbuf r) (rounds * full) liov

section
variable {sys : System (Fin size) Stamped} {lbuf ptr : Fin size → Nat} {iters full rounds : Nat} {cfg : Config (Fin size)}
  {r : Fin size}

-- Byte `b` is touched in iteration `j` behind the Bcast of its chunk on a receiver, in
-- front of it on the sender.
theorem touched_at (ranks : PipRanks sys lbuf ptr iters full rounds) (r : Fin size) (j b s : Nat) :
    (∃ act, touches (roleOf sys.root r) (ptr r) b act ∧ Located sys.kind (sys.acts r) (some j,act) s) ↔
      j < iters ∧ b < rounds * full ∧ s = j * (rounds+1) + (b / full + shift (roleOf sys.root r)) := by
  obtain ⟨liov,_,whole,_,acts⟩ := ranks.acts r
  have count : total liov / full = rounds := by rw [whole,Nat.mul_div_cancel _ ranks.filled]
  have divides : full ∣ total liov := by rw [whole]; exact Nat.dvd_mul_left _ _
  rw [ranks.kind,acts]
  simp only [programActs_located,count]
  constructor
  · intro given
    obtain ⟨act,touch,below,t,located,rfl⟩ := given
    obtain ⟨range,rfl⟩ := (iterationActs_touch ranks.filled divides b t).mp ⟨act,touch,located⟩
    exact ⟨below,whole ▸ range,rfl⟩
  · intro given
    obtain ⟨below,range,rfl⟩ := given
    obtain ⟨act,touch,located⟩ := (@iterationActs_touch (roleOf sys.root r) full (ptr r) liov ranks.filled divides b _).mpr
      ⟨whole ▸ range,rfl⟩
    exact ⟨act,touch,below,_,located,rfl⟩

theorem ranks_schedule (ranks : PipRanks sys lbuf ptr iters full rounds) (r : Fin size) : sys.schedule r =
    (List.range iters).flatMap (fun _ => List.replicate rounds Kind.bcast ++ [.gather]) ++ [.barrier] := by
  obtain ⟨liov,_,whole,_,acts⟩ := ranks.acts r
  have count : total liov / full = rounds := by rw [whole,Nat.mul_div_cancel _ ranks.filled]
  rw [System.schedule,ranks.kind,acts,programActs_kinds,count]

theorem ranks_calls (ranks : PipRanks sys lbuf ptr iters full rounds) (r : Fin size) :
    calls sys.kind (sys.acts r) = schedule iters rounds := by
  obtain ⟨liov,_,whole,_,acts⟩ := ranks.acts r
  have count : total liov / full = rounds := by rw [whole,Nat.mul_div_cancel _ ranks.filled]
  rw [ranks.kind,acts,programActs_calls,count]

theorem chunk_of (ranks : PipRanks sys lbuf ptr iters full rounds) (range : b < rounds * full) : b / full < rounds :=
  (Nat.div_lt_iff_lt_mul ranks.filled).mpr range

theorem prefixes_agree (ranks : PipRanks sys lbuf ptr iters full rounds) (r q : Fin size) (n : Nat) :
    (sys.schedule r).take n = (sys.schedule q).take n := by
  rw [ranks_schedule ranks r,ranks_schedule ranks q]

-- A sender past iteration `i` has every receiver past its copies of iteration `i`.
theorem gather_passed (ranks : PipRanks sys lbuf ptr iters full rounds) (ordered : System.Ordered sys cfg) (below : i < iters)
    (past : i * (rounds+1) + rounds < sys.left cfg sys.root) (r : Fin size) : i * (rounds+1) + rounds < sys.begun cfg r := by
  refine System.gather_lag ordered (prefixes_agree ranks _ _ _) ?_ past
  rw [ranks_schedule ranks,schedule_kind below (Nat.le_refl _),if_neg (Nat.lt_irrefl _)]

theorem later_iteration (i j rounds : Nat) (before : i < j) : i * (rounds+1) + rounds < j * (rounds+1) := by
  have step : (i+1) * (rounds+1) ≤ j * (rounds+1) := Nat.mul_le_mul_right _ before
  rw [Nat.succ_mul] at step
  omega

theorem bcast_number (ranks : PipRanks sys lbuf ptr iters full rounds)
    (here : sys.current cfg sys.root = some (some j,.bcast .dummy 1)) :
    ∃ i < rounds, j < iters ∧ sys.left cfg sys.root = j * (rounds+1) + i ∧
      (sys.finished cfg sys.root).count (some j,.bcast .dummy 1) = i := by
  obtain ⟨liov,_,whole,_,acts⟩ := ranks.acts sys.root
  have count : total liov / full = rounds := by rw [whole,Nat.mul_div_cancel _ ranks.filled]
  have located := System.current_located here
  rw [ranks.kind,acts,programActs_located,count] at located
  obtain ⟨below,i,inner,position⟩ := located
  have known := located_call (show callKind (.bcast .dummy 1) = some .bcast from rfl) inner
  rw [iterationActs_kinds,count] at known
  have early : i < rounds := by
    apply Classical.byContradiction
    intro late
    rw [List.getElem?_append_right (by simpa using late),List.length_replicate] at known
    cases rest : i - rounds <;> simp [rest] at known
  refine ⟨i,early,below,position,?_⟩
  have taken : calls sys.kind (sys.finished cfg sys.root) = (schedule iters rounds).take (j * (rounds+1) + i) := by
    rw [System.finished,calls_take,ranks_calls ranks,← position]
    rfl
  rw [← schedule_count below (Nat.le_of_lt early),← taken,calls,List.count_filter]
  rw [ranks.kind]
  rfl

theorem touch_quiet (ranks : PipRanks sys lbuf ptr iters full rounds) {act : Act} (touch : touches role place b act) :
    sys.kind (some j,act) = none := by
  rw [ranks.kind]
  exact touches_local touch

-- About to announce its k-th chunk, the sender has written the first k chunks.
theorem reached_announced (ranks : PipRanks sys lbuf ptr iters full rounds)
    (here : sys.current cfg sys.root = some (some j,.bcast .dummy 1))
    (number : (sys.finished cfg sys.root).count (some j,.bcast .dummy 1) + 1 = k) (b : Nat) :
    (∃ act, (some j,act) ∈ sys.finished cfg sys.root ∧ touches .sender (ptr sys.root) b act) ↔ b < k * full := by
  obtain ⟨i,early,below,position,count⟩ := bcast_number ranks here
  have written := fun s => touched_at ranks sys.root j b s
  rw [root_role,shift] at written
  have call : sys.kind (some j,.bcast .dummy 1) = some .bcast := by rw [ranks.kind]; rfl
  have bound : b < k * full ↔ b / full < k := (Nat.div_lt_iff_lt_mul ranks.filled).symm
  rw [bound]
  constructor
  · intro given
    obtain ⟨act,done,touch⟩ := given
    obtain ⟨s,located,late⟩ := System.finished_located done
    obtain ⟨_,_,rfl⟩ := (written s).mp ⟨act,touch,located⟩
    omega
  · intro low
    have range : b < rounds * full := by
      rw [← Nat.div_lt_iff_lt_mul ranks.filled]
      omega
    obtain ⟨act,touch,located⟩ := (written _).mpr ⟨below,range,rfl⟩
    exact ⟨act,System.located_finished here call (touch_quiet ranks touch) located (by omega),touch⟩

-- What a receiver is about to read was written in this iteration and not overwritten since.
theorem reached_fresh (ranks : PipRanks sys lbuf ptr iters full rounds) (ordered : System.Ordered sys cfg) (apart : r ≠ sys.root)
    {act : Act} (here : sys.current cfg r = some (some j,act)) (touch : touches .receiver (ptr r) b act) :
    (∃ sent, (some j,sent) ∈ sys.finished cfg sys.root ∧ touches .sender (ptr sys.root) b sent) ∧
      ∀ i sent, (some i,sent) ∈ sys.finished cfg sys.root → touches .sender (ptr sys.root) b sent → i ≤ j := by
  have read := touched_at ranks r j b (sys.left cfg r)
  rw [other_role apart,shift] at read
  obtain ⟨below,range,position⟩ := read.mp ⟨act,touch,System.current_located here⟩
  have chunk := chunk_of ranks range
  have outside : (cfg r).inside = false := by
    cases inside : (cfg r).inside with
    | false => rfl
    | true =>
        obtain ⟨e,k,known,call⟩ := ordered.valid r inside
        rw [here] at known
        cases known
        rw [touch_quiet ranks touch] at call
        cases call
  constructor
  · have announced : (sys.schedule r)[j * (rounds+1) + b / full]? = some .bcast := by
      rw [ranks_schedule ranks,schedule_kind below (Nat.le_of_lt chunk),if_pos chunk]
    have sent := System.bcast_lag ordered apart (prefixes_agree ranks _ _ _) announced (by omega)
    have written := touched_at ranks sys.root j b (j * (rounds+1) + b / full)
    rw [root_role,shift] at written
    obtain ⟨act,touch,located⟩ := written.mpr ⟨below,range,rfl⟩
    exact ⟨act,System.begun_finished ordered (touch_quiet ranks touch) located sent,touch⟩
  · intro i act done touch
    apply Classical.byContradiction
    intro later
    obtain ⟨s,located,late⟩ := System.finished_located done
    have written := touched_at ranks sys.root i b s
    rw [root_role,shift] at written
    obtain ⟨_,_,rfl⟩ := written.mp ⟨act,touch,located⟩
    have separate := later_iteration j i rounds (by omega)
    have passed := gather_passed ranks ordered below
      (Nat.lt_of_lt_of_le separate (Nat.le_trans (Nat.le_add_right _ _) late)) r
    simp only [System.begun,outside,Bool.toNat_false] at passed
    omega

-- What the sender is about to overwrite, every receiver has read in the iterations before.
theorem reached_released (ranks : PipRanks sys lbuf ptr iters full rounds) (ordered : System.Ordered sys cfg) (before : i < j) {act : Act}
    (here : sys.current cfg sys.root = some (some j,act)) (touch : touches .sender (ptr sys.root) b act) (apart : r ≠ sys.root) :
    ∃ got, (some i,got) ∈ sys.finished cfg r ∧ touches .receiver (ptr r) b got := by
  have write := touched_at ranks sys.root j b (sys.left cfg sys.root)
  rw [root_role,shift] at write
  obtain ⟨below,range,position⟩ := write.mp ⟨act,touch,System.current_located here⟩
  have chunk := chunk_of ranks range
  have separate := later_iteration i j rounds before
  have passed := gather_passed ranks ordered (Nat.lt_trans before below)
    (Nat.lt_of_lt_of_le separate (position ▸ Nat.le_add_right _ _)) r
  have read := touched_at ranks r i b (i * (rounds+1) + (b / full + 1))
  rw [other_role apart,shift] at read
  obtain ⟨got,touch,located⟩ := read.mpr ⟨by omega,range,rfl⟩
  exact ⟨got,System.begun_finished ordered (touch_quiet ranks touch) located (by omega),touch⟩

theorem receiver_keeps (ranks : PipRanks sys lbuf ptr iters full rounds) (other : r ≠ sys.root) (apart : Apart (lbuf r) (ptr r) (rounds * full))
    {event : Stamped} (here : sys.current cfg r = some event) (inside : b < rounds * full) : ¬ Written event.2 (ptr r + b) := by
  obtain ⟨liov,positive,whole,named,acts⟩ := ranks.acts r
  intro written
  have member := current_acts here
  rw [acts,other_role other,← whole] at member
  have own := program_written positive (by rw [whole]; exact Nat.dvd_mul_left _ _) named member written
  rw [← whole] at apart inside
  rcases apart with below | above <;> omega

theorem reached_safe (ranks : PipRanks sys lbuf ptr iters full rounds) (reach : sys.Reached cfg) :
    RegionSafe sys lbuf ptr full (rounds * full) cfg := by
  have ordered := System.reached_ordered reach
  exact ⟨fun _ _ here number => reached_announced ranks here number,
    fun _ apart _ _ _ here touch => reached_fresh ranks ordered apart here touch,
    fun _ _ _ _ before here touch _ apart => reached_released ranks ordered before here touch apart,
    fun _ other apart _ _ here _ inside => receiver_keeps ranks other apart here inside⟩

end

-- One sender and any number of receivers inside benchmark_shmem_pip.
theorem pipelined_protocol_safe {size : Nat} (sender : Fin size) (iters full bufsize blocksize : Nat)
    (lbuf shmemPtr : Fin size → Nat) (filled : 0 < bufsize) (small : bufsize ≤ intMax) (nonzero : 0 < blocksize)
    (divides : blocksize ∣ bufsize) (chunked : full ∣ bufsize) :
    let sys := pipSystem sender iters full bufsize blocksize lbuf shmemPtr
    (∀ r, calls sys.kind (sys.acts r) = schedule iters (bufsize / full) ∧
      (benchmarkShmemPip (roleOf sender r) iters full (shmemPtr r) (lbuf r)
        (initIov (lbuf r) (bufsize / blocksize) blocksize) bufsize blocksize).out = .ok ()) ∧
    ∀ cfg, sys.Reached cfg → RegionSafe sys lbuf shmemPtr full bufsize cfg := by
  intro sys
  have positive : 0 < full := Nat.pos_of_dvd_of_pos chunked filled
  have sized : full < sizeMod := intMax_lt_sizeMod (Nat.le_trans (Nat.le_of_dvd filled chunked) small)
  have product := Nat.div_mul_cancel chunked
  have whole : ∀ r, total (initIov (lbuf r) (bufsize / blocksize) blocksize) = bufsize := fun r => by
    rw [initIov_total,Nat.div_mul_cancel divides]
  have ran := fun r => @benchmarkShmemPip_run (roleOf sender r) full (shmemPtr r) (lbuf r) bufsize blocksize
    (initIov (lbuf r) (bufsize / blocksize) blocksize) iters (initIov_positive nonzero) (whole r) initIov_length small
    positive sized chunked
  have ranks : PipRanks sys lbuf shmemPtr iters full (bufsize / full) := by
    refine ⟨rfl,positive,fun r => ⟨initIov (lbuf r) (bufsize / blocksize) blocksize,initIov_positive nonzero,?_,fun a member => ?_,?_⟩⟩
    · rw [product]; exact whole r
    · rw [whole r]
      rwa [Delivery.initIov_addrs (by rw [Nat.div_mul_cancel divides]; exact intMax_lt_sizeMod small),Nat.div_mul_cancel divides,
        List.mem_range'_1] at member
    · rw [product]; exact congrArg Run.acts (ran r)
  refine ⟨fun r => ⟨ranks_calls ranks r,?_⟩,fun cfg reach => ?_⟩
  · rw [ran r]
  · have safe := reached_safe ranks reach
    rwa [product] at safe

theorem pipelined_protocol_safe_three_ranks :
    let sys := pipSystem (0 : Fin 3) (numIter + skipIter) shmemPipelineDepth 131072 4096
      (fun r => 4096 + 1048576 * r) (fun r => 67108864 + 1048576 * r)
    (∀ r, calls sys.kind (sys.acts r) = schedule 110 2) ∧
      ∀ cfg, sys.Reached cfg → RegionSafe sys (fun r => 4096 + 1048576 * r) (fun r => 67108864 + 1048576 * r) shmemPipelineDepth 131072 cfg :=
  have safe := pipelined_protocol_safe (0 : Fin 3) (numIter + skipIter) shmemPipelineDepth 131072 4096
    (fun r => 4096 + 1048576 * r) (fun r => 67108864 + 1048576 * r) (by decide) (by decide) (by decide) (by decide) (by decide)
  ⟨fun r => (safe.1 r).1,safe.2⟩

end MpidtBench.PipelineSafety
