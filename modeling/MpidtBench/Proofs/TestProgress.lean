import Mathlib.Data.Nat.Log
import MpidtBench.Library.Marked
import MpidtBench.Library.Progress
import MpidtBench.Model.CopyTests
import MpidtBench.Proofs.SweepRuns

namespace MpidtBench.TestProgress
open Traced CInteger ScatterGather Collective MpidtBench SweepRuns

-- The sizes up to bufsize are the powers of two below this one.
def sizeCount (bufsize : Nat) : Nat := Nat.log 2 bufsize + 1

-- Every process_vm_readv of a rank returns the size it was asked for.
def Full (passes bufsize : Nat) (tester : Tester) : Prop := ∀ j < sizeCount bufsize, ∀ i < passes, tester.nbytes j i = 2 ^ j

section
variable {bufsize passes : Nat} {round : Nat → Nat → Run Fault Act Unit} {blocks : Nat → List Act}

theorem size_iff (some_bytes : 0 < bufsize) : 2 ^ j ≤ bufsize ↔ j < sizeCount bufsize := by
  rw [← Nat.le_log_iff_pow_le (by decide) (Nat.ne_of_gt some_bytes),sizeCount,Nat.lt_succ_iff]

theorem size_shift (long : bufsize < 2 ^ 63) (below : 2 ^ j ≤ bufsize) : mulSize (2 ^ j) 2 = 2 ^ (j+1) := by
  rw [mulSize,← Nat.pow_succ,Nat.mod_eq_of_lt]
  have small := Nat.lt_of_le_of_lt below long
  rw [Nat.pow_succ]
  unfold sizeMod
  omega

theorem sizes_fuelled (some_bytes : 0 < bufsize) (long : bufsize < 2 ^ 63) : sizeCount bufsize < sweepFuel := by
  have few := (Nat.log_lt_iff_lt_pow (b := 2) (x := 63) (by decide) (Nat.ne_of_gt some_bytes)).mpr long
  unfold sizeCount sweepFuel
  omega

theorem sizeStep_next (long : bufsize < 2 ^ 63) (below : 2 ^ j ≤ bufsize) (ran : round j (2 ^ j) = ⟨block,.ok ()⟩) :
    sizeStep bufsize round (j,2 ^ j) = ⟨block.map (Prod.mk (some j)),.ok (.inl (j+1,2 ^ (j+1)))⟩ := by
  rw [sizeStep,if_pos below,ran,← size_shift long below]
  change (⟨_ ++ [],_⟩ : Run Fault Stamped _) = _
  rw [List.append_nil]
  rfl

theorem sweep_visits (some_bytes : 0 < bufsize) (long : bufsize < 2 ^ 63) (each : ∀ j < sizeCount bufsize, round j (2 ^ j) = ⟨blocks j,.ok ()⟩)
    (upto : n ≤ sizeCount bufsize) : Visits (sizeStep bufsize round) n (0,1) (stampBlocks n blocks) (n,2 ^ n) := by
  induction n with
  | zero => exact .enter
  | succ n ih =>
      have visit := (ih (Nat.le_of_succ_le upto)).pass (sizeStep_next long ((size_iff some_bytes).mpr upto) (each n upto))
      rw [stampBlocks,List.range_succ,List.flatMap_append,List.flatMap_singleton]
      exact visit

theorem sweep_run (some_bytes : 0 < bufsize) (long : bufsize < 2 ^ 63) (each : ∀ j < sizeCount bufsize, round j (2 ^ j) = ⟨blocks j,.ok ()⟩) :
    sizeSweep bufsize round = ⟨stampBlocks (sizeCount bufsize) blocks,.ok ()⟩ := by
  have visit := sweep_visits some_bytes long each (Nat.le_refl _)
  have stop : sizeStep bufsize round (sizeCount bufsize,2 ^ sizeCount bufsize) = ⟨[],.ok (.inr ())⟩ := by
    rw [sizeStep,if_neg fun more => Nat.lt_irrefl _ ((size_iff some_bytes).mp more)]
    rfl
  have ended := loop_ends visit stop (sizes_fuelled some_bytes long) Fault.unfinished
  rwa [List.append_nil] at ended

theorem sweep_heads (long : bufsize < 2 ^ 63) (visit : Visits (sizeStep bufsize round) n (0,1) acts s) :
    s = (n,2 ^ n) ∧ ∀ j < n, (round j (2 ^ j)).out = .ok () := by
  generalize start : (0,1) = first at visit
  induction visit with
  | enter => subst start; exact ⟨rfl,fun j before => absurd before (Nat.not_lt_zero j)⟩
  | @pass n _ _ t _ u _ stepped ih =>
      obtain ⟨rfl,earlier⟩ := ih start
      rw [sizeStep] at stepped
      split at stepped
      · rename_i below
        obtain ⟨_,passed,next,_⟩ := Run.chain_parts (congrArg Run.out stepped)
        rw [size_shift long below] at next
        cases next
        refine ⟨rfl,fun j before => ?_⟩
        rcases Nat.lt_succ_iff_lt_or_eq.mp before with lower | rfl
        · exact earlier j lower
        · exact passed
      · cases congrArg Run.out stepped

theorem sweep_parts (some_bytes : 0 < bufsize) (long : bufsize < 2 ^ 63) (ended : (sizeSweep bufsize round).out = .ok ()) :
    ∀ j < sizeCount bufsize, (round j (2 ^ j)).out = .ok () := by
  obtain ⟨n,_,s,_,visit,stop,_⟩ := loop_sound ended
  obtain ⟨rfl,passed⟩ := sweep_heads long visit
  intro j below
  refine passed j (Nat.lt_of_lt_of_le below (Nat.le_of_not_lt fun more => ?_))
  rw [sizeStep,if_pos ((size_iff some_bytes).mpr more)] at stop
  obtain ⟨_,_,next,_⟩ := Run.chain_parts (congrArg Run.out stop)
  cases next

end

def sizeRead (tester : Tester) (j : Nat) : Act := .processVmReadv [⟨tester.localBuf,2 ^ j⟩] (tester.received j) 0 1 (2 ^ j)
def testBlock (role : Role) (passes : Nat) (tester : Tester) (j : Nat) : List Act :=
  .bcast .iov 16 :: match role with
    | .sender => []
    | .receiver => List.replicate passes (sizeRead tester j)

def testFront (role : Role) (bufsize : Nat) (tester : Tester) : List Stamped :=
  [(none,.memset tester.localBuf (testByte role) bufsize),(none,.bcast .rpid 4),(none,.barrier)]
def testBack (tester : Tester) : List Stamped := [(none,.barrier),(none,.free tester.localBuf)]

section
variable {role : Role} {bufsize passes j size : Nat} {tester : Tester}

theorem readOnce_full {liov riov : List IoVec} {nbytes : Nat} (ended : (readOnce liov riov size nbytes).out = .ok ()) : nbytes = size := by
  unfold readOnce assert at ended
  split at ended
  · rename_i same
    exact beq_iff_eq.mp same
  · cases ended

theorem repeat_run {body : Nat → Unit → Run Fault Act Unit} {act : Act} (each : ∀ i < passes, body i () = ⟨[act],.ok ()⟩) :
    forRange passes body () = ⟨List.replicate passes act,.ok ()⟩ := by
  have repeated : (List.range passes).flatMap (fun _ => [act]) = List.replicate passes act := by
    rw [← List.map_eq_flatMap,List.map_const',List.length_range]
  rw [forRange_exact (fun _ => [act]) (fun _ => ()) each,repeated]

theorem round_run (full : role = .receiver → ∀ i < passes, tester.nbytes j i = 2 ^ j) :
    cmaRound role passes tester j (2 ^ j) = ⟨testBlock role passes tester j,.ok ()⟩ := by
  cases role with
  | sender => rfl
  | receiver =>
      have reads := @repeat_run passes (fun i _ => readOnce [⟨tester.localBuf,2 ^ j⟩] (tester.received j) (2 ^ j) (tester.nbytes j i))
        (sizeRead tester j) fun i below => by rw [full rfl i below,readOnce,assert,if_pos (beq_self_eq_true _)]; rfl
      rw [cmaRound,if_pos rfl,reads]
      rfl

theorem round_full (ended : (cmaRound .receiver passes tester j size).out = .ok ()) : ∀ i < passes, tester.nbytes j i = size := by
  rw [cmaRound,if_pos rfl] at ended
  obtain ⟨_,_,passed,_⟩ := Run.chain_parts ended
  obtain ⟨_,_,full⟩ := forRange_blocks (fun i _ => tester.nbytes j i = size) (fun _ _ _ => readOnce_full) passed
  exact full

theorem testCma_shape : (testCma role passes bufsize tester).acts =
    testFront role bufsize tester ++ ((sizeSweep bufsize (cmaRound role passes tester)).acts ++
      match (sizeSweep bufsize (cmaRound role passes tester)).out with
      | .ok _ => testBack tester
      | .error _ => []) := by
  unfold testCma
  cases reached : (sizeSweep bufsize (cmaRound role passes tester)).out with
  | ok value => simp only [Run.emit_chain,Run.chain_ok reached]; rfl
  | error error => simp only [Run.emit_chain,Run.chain_error reached,List.append_nil]; rfl

theorem testCma_out : (testCma role passes bufsize tester).out = (sizeSweep bufsize (cmaRound role passes tester)).out := by
  unfold testCma
  cases reached : (sizeSweep bufsize (cmaRound role passes tester)).out with
  | ok value => simp only [Run.emit_chain,Run.chain_ok reached]; rfl
  | error error => simp only [Run.emit_chain,Run.chain_error reached]

theorem testCma_run (some_bytes : 0 < bufsize) (long : bufsize < 2 ^ 63) (full : role = .receiver → Full passes bufsize tester) :
    testCma role passes bufsize tester =
      ⟨testFront role bufsize tester ++ (stampBlocks (sizeCount bufsize) (testBlock role passes tester) ++ testBack tester),.ok ()⟩ := by
  have swept := @sweep_run bufsize (cmaRound role passes tester) (testBlock role passes tester) some_bytes long fun j below =>
    round_run fun receives => full receives j below
  unfold testCma
  rw [swept]
  rfl

theorem testCma_full (some_bytes : 0 < bufsize) (long : bufsize < 2 ^ 63) (ended : (testCma .receiver passes bufsize tester).out = .ok ()) :
    Full passes bufsize tester := by
  rw [testCma_out] at ended
  exact fun j below => round_full (sweep_parts some_bytes long ended j below)

theorem block_kinds : kinds stampedKind ((testBlock role passes tester j).map (Prod.mk (some j))) = [.bcast] := by
  rw [kinds,List.filterMap_map]
  change .bcast :: List.filterMap callKind _ = _
  refine congrArg (List.cons Kind.bcast) (kinds_local fun act member => ?_)
  cases role with
  | sender => cases member
  | receiver => rw [List.eq_of_mem_replicate member]; rfl

-- The calls of a rank whose reads are full.
theorem testCma_kinds (some_bytes : 0 < bufsize) (long : bufsize < 2 ^ 63) (full : role = .receiver → Full passes bufsize tester) :
    kinds stampedKind (testCma role passes bufsize tester).acts =
      [.bcast,.barrier] ++ ((List.range (sizeCount bufsize)).flatMap (fun _ => [.bcast]) ++ [.barrier]) := by
  rw [testCma_run some_bytes long full,kinds_append,kinds_append,stampBlocks,kinds_flatMap]
  refine congrArg (fun calls => [.bcast,.barrier] ++ (calls ++ [.barrier])) (List.flatMap_congr fun j _ => block_kinds)

def Frees (event : Stamped) : Prop := ∃ ptr, event = (none,.free ptr)
def Reads (event : Stamped) : Prop := ∃ liov riov off count bytes, event.2 = .processVmReadv liov riov off count bytes
def crosses (event : Stamped) : Bool := stampedKind event == some .barrier

theorem round_calm : ∀ act ∈ (cmaRound role passes tester j size).acts, callKind act ≠ some .barrier ∧ ∀ ptr, act ≠ .free ptr := by
  refine Run.chain_acts _ (Run.emit_each ⟨nofun,nofun⟩) fun _ act member => ?_
  split at member
  · refine forFrom_acts (fun act => callKind act ≠ some .barrier ∧ ∀ ptr, act ≠ .free ptr) (fun i s => ?_) act member
    refine Run.chain_acts _ (Run.emit_each ⟨nofun,nofun⟩) fun _ act member => ?_
    unfold assert at member
    split at member <;> cases member
  · cases member

theorem sweep_calm : ∀ event ∈ (sizeSweep bufsize (cmaRound role passes tester)).acts, crosses event = false ∧ ¬ Frees event := by
  refine loop_acts (fun event => crosses event = false ∧ ¬ Frees event) Fault.unfinished (fun s event member => ?_) sweepFuel (0,1)
  unfold sizeStep at member
  split at member
  · refine Run.chain_acts (fun event => crosses event = false ∧ ¬ Frees event) (fun event issued => ?_)
      (fun _ _ nothing => by cases nothing) event member
    obtain ⟨act,inside,rfl⟩ := List.mem_map.mp issued
    obtain ⟨calm,kept⟩ := round_calm act inside
    exact ⟨beq_eq_false_iff_ne.mpr calm,fun ⟨ptr,same⟩ => kept ptr (congrArg Prod.snd same)⟩
  · cases member

theorem front_plain (role : Role) (bufsize : Nat) (tester : Tester) : ∀ event ∈ testFront role bufsize tester, ¬ Reads event ∧ ¬ Frees event := by
  intro event member
  simp only [testFront,List.mem_cons,List.not_mem_nil,or_false] at member
  refine ⟨?_,?_⟩
  · rintro ⟨_,_,_,_,_,reads⟩
    rcases member with rfl | rfl | rfl <;> cases reads
  · rintro ⟨_,rfl⟩
    rcases member with frees | frees | frees <;> cases frees

-- Reads stand in front of the second Barrier, the free behind it.
theorem test_early : Early crosses 2 Reads (testCma role passes bufsize tester).acts := by
  have before : Early crosses 0 Reads (testFront role bufsize tester) := by
    intro front event after split reads
    exact absurd reads (front_plain role bufsize tester event (by rw [split]; simp)).1
  have quiet : Early crosses 1 (fun _ => True) (sizeSweep bufsize (cmaRound role passes tester)).acts := by
    intro front event after split _
    rw [unmarked_count fun event member => (sweep_calm event (by rw [split]; exact List.mem_append_left _ member)).1]
    exact Nat.one_pos
  have nothing : ∀ event ∈ (match (sizeSweep bufsize (cmaRound role passes tester)).out with
      | .ok _ => testBack tester
      | .error _ => []), ¬ Reads event := by
    rintro event member ⟨_,_,_,_,_,reads⟩
    split at member
    · simp only [testBack,List.mem_cons,List.not_mem_nil,or_false] at member
      rcases member with rfl | rfl <;> cases reads
    · cases member
  rw [testCma_shape]
  exact @early_append _ crosses Reads (testFront role bufsize tester) _ 0 1 1 before (Nat.le_refl 1)
    (@early_around _ crosses Reads [] _ 1 _ quiet (fun _ member => absurd member List.not_mem_nil) nothing) (Nat.zero_le _)

theorem test_late : Late crosses 2 Frees (testCma role passes bufsize tester).acts := by
  have kept : ∀ event ∈ testFront role bufsize tester ++ (sizeSweep bufsize (cmaRound role passes tester)).acts, ¬ Frees event := by
    intro event member
    rcases List.mem_append.mp member with before | inside
    · exact (front_plain role bufsize tester event before).2
    · exact (sweep_calm event inside).2
  rw [testCma_shape,← List.append_assoc]
  split
  · rw [testBack,List.append_cons]
    refine late_behind ?_ (fun event member => ?_) _
    · rw [List.countP_append,List.countP_append]
      exact Nat.add_le_add_right (Nat.le_add_right 1 _) 1
    · rcases List.mem_append.mp member with before | last
      · exact kept event before
      · rw [List.mem_singleton.mp last]
        rintro ⟨_,frees⟩
        cases frees
  · rw [List.append_nil]
    exact late_none kept

-- A rank that a short read stops has only crossed the first Barrier.
theorem stopped_crosses (stopped : (testCma role passes bufsize tester).out ≠ .ok ()) :
    (testCma role passes bufsize tester).acts.countP crosses = 1 := by
  rw [testCma_out] at stopped
  rw [testCma_shape,List.countP_append,List.countP_append,unmarked_count fun event member => (sweep_calm event member).1]
  split
  · rename_i ended
    exact absurd ended stopped
  · rfl

end

section
variable {size passes bufsize : Nat} {sender : Fin size} {tester : Fin size → Tester}

theorem test_uniform (some_bytes : 0 < bufsize) (long : bufsize < 2 ^ 63) {r : Fin size} (full : r ≠ sender → Full passes bufsize (tester r)) :
    (testSystem sender passes bufsize tester).schedule r =
      [.bcast,.barrier] ++ ((List.range (sizeCount bufsize)).flatMap (fun _ => [.bcast]) ++ [.barrier]) := by
  refine testCma_kinds some_bytes long fun receives => full fun root => ?_
  rw [root,root_role] at receives
  cases receives

theorem test_held (some_bytes : 0 < bufsize) (long : bufsize < 2 ^ 63) {q : Fin size} (apart : q ≠ sender) (short : ¬ Full passes bufsize (tester q))
    {cfg : Config (Fin size)} (reach : (testSystem sender passes bufsize tester).Reached cfg) (r : Fin size) (ptr : Nat) :
    (none,.free ptr) ∉ (testSystem sender passes bufsize tester).finished cfg r := by
  intro freed
  have ordered := System.reached_ordered reach
  have passed : 2 ≤ (testSystem sender passes bufsize tester).returned cfg r .barrier := System.late_returned test_late freed ⟨ptr,rfl⟩
  have waited := ordered.barrier r q
  have stopped : (testCma (roleOf sender q) passes bufsize (tester q)).out ≠ .ok () := by
    rw [other_role apart]
    exact fun ended => short (testCma_full some_bytes long ended)
  have few : (testSystem sender passes bufsize tester).entered cfg q .barrier ≤ 1 := by
    rw [System.entered_take ordered,← stopped_crosses stopped]
    refine Nat.le_trans (List.Sublist.count_le _ (List.take_sublist _ _)) ?_
    rw [System.schedule,kinds_count]
    exact Nat.le_refl _
  omega

end

-- test_cma.c on any number of ranks, whatever process_vm_readv returns: all ranks get through in every
-- order of steps or none gets to its free, and no read meets a buffer that the sender has freed.
theorem test_finishes {size : Nat} (sender : Fin size) (passes bufsize : Nat) (tester : Fin size → Tester) (some_bytes : 0 < bufsize)
    (long : bufsize < 2 ^ 63) :
    (System.Finishes (testSystem sender passes bufsize tester) ↔ ∀ r ≠ sender, Full passes bufsize (tester r)) ∧
    ∀ cfg, (testSystem sender passes bufsize tester).Reached cfg →
      ((¬ ∀ r ≠ sender, Full passes bufsize (tester r)) → ∀ r ptr, (none,.free ptr) ∉ (testSystem sender passes bufsize tester).finished cfg r) ∧
      ∀ r event, (testSystem sender passes bufsize tester).current cfg r = some event → Reads event →
        ∀ ptr, (none,.free ptr) ∉ (testSystem sender passes bufsize tester).finished cfg sender := by
  have held : ∀ cfg, (testSystem sender passes bufsize tester).Reached cfg → (¬ ∀ r ≠ sender, Full passes bufsize (tester r)) →
      ∀ r ptr, (none,.free ptr) ∉ (testSystem sender passes bufsize tester).finished cfg r := by
    intro cfg reach short
    simp only [not_forall] at short
    obtain ⟨q,apart,short⟩ := short
    exact test_held some_bytes long apart short reach
  refine ⟨⟨fun finishes => ?_,fun full => System.uniform_finishes fun r => ?_⟩,
    fun cfg reach => ⟨held cfg reach,fun r event here reads ptr freed => ?_⟩⟩
  · apply Classical.byContradiction
    intro short
    obtain ⟨n,cfg,leads,through⟩ := System.finishes_completes finishes .start
    refine held cfg (System.leads_reached .start leads) short sender (tester sender).localBuf ?_
    rw [System.finished,through sender,List.take_length]
    change _ ∈ (testCma (roleOf sender sender) passes bufsize (tester sender)).acts
    rw [root_role,testCma_run some_bytes long Role.noConfusion]
    simp [testBack]
  · exact (test_uniform some_bytes long (full r)).trans (test_uniform some_bytes long (full sender)).symm
  · have quiet : (testSystem sender passes bufsize tester).kind event = none := by
      obtain ⟨_,_,_,_,_,same⟩ := reads
      change callKind event.2 = none
      rw [same]
      rfl
    exact System.barrier_keeps (System.reached_ordered reach) test_early test_late here quiet reads _ freed ⟨ptr,rfl⟩

-- Three ranks, with full reads of the test's own sizes, and with a buffer of 5 bytes and a receiver whose second read
-- of 4 bytes is short.
def fullTester (rank : Nat) : Tester where
  localBuf := 64 + 64 * rank
  received j := [⟨64,2 ^ j⟩]
  nbytes j _ := 2 ^ j
def shortTester (rank : Nat) : Tester :=
  if rank = 2 then {fullTester rank with nbytes := fun j i => if j = 2 ∧ i = 1 then 3 else 2 ^ j} else fullTester rank

theorem test_finishes_three_ranks :
    System.Finishes (testSystem (0 : Fin 3) testPasses testBufsize fun r => fullTester r) ∧
    ∀ cfg, (testSystem (0 : Fin 3) 3 5 fun r => shortTester r).Reached cfg →
      ∀ r ptr, (none,.free ptr) ∉ (testSystem (0 : Fin 3) 3 5 fun r => shortTester r).finished cfg r := by
  have full := test_finishes (0 : Fin 3) testPasses testBufsize (fun r => fullTester r) (by decide) (by decide)
  have short := test_finishes (0 : Fin 3) 3 5 (fun r => shortTester r) (by decide) (by decide)
  refine ⟨full.1.mpr fun _ _ _ _ _ _ => rfl,fun cfg reach => (short.2 cfg reach).1 fun all => ?_⟩
  have read := all 2 (by decide) 2 (by decide) 1 (by decide)
  cases read

end MpidtBench.TestProgress
