import MpidtBench.Library.Tickets
import MpidtBench.Proofs.StandaloneLifetime
import MpidtBench.Proofs.SweepAgreement

namespace MpidtBench.SweepWaiting
open Traced CInteger ScatterGather MpidtBench SweepWindows PipelineProtocol XpmemLoops SweepShape SweepTrace SweepAgreement StandaloneLifetime
open Collective hiding Place

-- How often the FIN of a call is sent: in every iteration, or not at all where an XPMEM benchmark finds no driver.
def fins (iters : Nat) (machine : Machine) (c : Nat × Bench) : Nat := match c.2 with
  | .xpmemNocache => if 0 ≤ (machine.driver c.1 .xpmemNocache).version then iters else 0
  | .xpmemCached => if 0 ≤ (machine.driver c.1 .xpmemCached).version then iters else 0
  | _ => iters

abbrev Benched (iters : Nat) (acts : List Stamped) : Prop := Clocked finStamped Prod.fst Transfers iters acts

section
variable {role : Role} {iters full bufsize blocksize q : Nat} {machine : Machine} {liov : List IoVec} {acts front back : List Stamped}

-- Outside of the iterations.
def Outer (event : Stamped) : Prop := finStamped event = false ∧ event.1 = none ∧ ¬ Transfers event

theorem outer_event {act : Act} (gather : callKind act ≠ some .gather) (transfer : isTransfer act = false) : Outer (none,act) := by
  refine ⟨beq_eq_false_iff_ne.mpr gather,rfl,fun moved => ?_⟩
  rw [Transfers,transfer] at moved
  cases moved

theorem loop_benched {iteration : Nat → σ → Run Fault Act σ} {s : σ} (each : ∀ j s, Marked fin (iteration j s)) :
    Benched iters (forRange iters (fun j s => (iteration j s).label (Prod.mk (some j))) s).acts ∧
      ∀ t, (forRange iters (fun j s => (iteration j s).label (Prod.mk (some j))) s).out = .ok t →
        (forRange iters (fun j s => (iteration j s).label (Prod.mk (some j))) s).acts.countP finStamped = iters := by
  have labelled : ∀ j s, Marked finStamped ((iteration j s).label (Prod.mk (some j))) := fun j s => marked_label (each j s)
  refine ⟨clocked_loop labelled (fun j s event member => ?_) iters s,(marked_loop labelled 0 iters s).2.2⟩
  obtain ⟨act,_,rfl⟩ := List.mem_map.mp member
  rfl

theorem benched_around {middle : List Stamped} (benched : Benched iters middle) (ahead : ∀ event ∈ front, Outer event)
    (behind : ∀ event ∈ back, Outer event) : Benched iters (front ++ (middle ++ back)) := clocked_around benched ahead behind

theorem cmaIteration_marked {limit nblocks : Int} {readv : Int → Int → Nat} {riov : List IoVec} :
    Marked fin (cmaIteration role limit readv liov riov nblocks bufsize) := by
  cases role with
  | sender => exact marked_chain (rts_unmarked rfl) fun _ => marked_last rfl rfl
  | receiver =>
      have quiet : ∀ act ∈ (loop .unfinished (benchStep limit nblocks readv liov riov) (cmaFuel nblocks) (CmaState.start bufsize)).acts,
          callKind act = none := loop_acts (fun act => callKind act = none) Fault.unfinished (cmaStep_quiet _ _ readv liov riov) _ _
      refine marked_chain (rts_unmarked rfl) fun _ => marked_chain (quiet_unmarked quiet) fun _ => ?_
      exact marked_chain (assert_silent _) fun _ => marked_last rfl rfl

-- A benchmark: what it sends and copies, and that the sender sends all FINs if it gets through.
structure Fair (role : Role) (iters : Nat) (run : Run Fault Stamped Unit) : Prop where
  benched : Benched iters run.acts
  complete : role = .sender → run.out = .ok () → run.acts.countP finStamped = iters

theorem outer_count (outer : ∀ event ∈ acts, Outer event) : acts.countP finStamped = 0 :=
  unmarked_count fun event member => (outer event member).1

-- The loop with what stands around it, which for the sender it reaches only if it ends.
theorem fair_around {iteration : Nat → σ → Run Fault Act σ} {s : σ} {run : Run Fault Stamped Unit} (each : ∀ j s, Marked fin (iteration j s))
    (ahead : ∀ event ∈ front, Outer event) (behind : ∀ event ∈ back, Outer event)
    (shape : run.acts = front ++ ((forRange iters (fun j s => (iteration j s).label (Prod.mk (some j))) s).acts ++ back))
    (ended : role = .sender → run.out = .ok () → ∃ t, (forRange iters (fun j s => (iteration j s).label (Prod.mk (some j))) s).out = .ok t) :
    Fair role iters run := by
  obtain ⟨benched,count⟩ := @loop_benched iters σ iteration s each
  refine ⟨by rw [shape]; exact benched_around benched ahead behind,fun sends finished => ?_⟩
  obtain ⟨t,looped⟩ := ended sends finished
  rw [shape,List.countP_append,List.countP_append,outer_count ahead,outer_count behind,count t looped,Nat.zero_add,Nat.add_zero]

theorem single_outer {act : Act} (gather : callKind act ≠ some .gather) (transfer : isTransfer act = false) :
    ∀ event ∈ [((none,act) : Stamped)], Outer event := by
  intro event member
  rw [List.mem_singleton.mp member]
  exact outer_event gather transfer

theorem barrier_outer : ∀ event ∈ [((none,.barrier) : Stamped)], Outer event := single_outer nofun rfl

theorem nothing_outer : ∀ event ∈ ([] : List Stamped), Outer event := fun _ member => absurd member List.not_mem_nil

theorem region_fair {iteration : Nat → Run Fault Act Unit} (marked : ∀ j, Marked fin (iteration j)) (ahead : ∀ event ∈ front, Outer event) :
    Fair role iters ((⟨front,.ok ()⟩ : Run Fault Stamped Unit) >>= fun _ =>
      forRange iters (fun j _ => (iteration j).label (Prod.mk (some j))) () >>= fun _ => Run.emit (none,.barrier)) := by
  have each : ∀ (j : Nat) (_ : Unit), Marked fin (iteration j) := fun j _ => marked j
  cases reached : (forRange iters (fun j _ => (iteration j).label (Prod.mk (some j))) ()).out with
  | ok t =>
      refine @fair_around role iters front [(none,.barrier)] Unit (fun j _ => iteration j) () _ each ahead barrier_outer ?_ fun _ _ => ⟨t,reached⟩
      rw [Run.ok_chain,Run.chain_ok reached]
      rfl
  | error error =>
      refine @fair_around role iters front [] Unit (fun j _ => iteration j) () _ each ahead nothing_outer ?_ fun _ ended => ?_
      · rw [Run.ok_chain,Run.chain_error reached,List.append_nil]
      · rw [Run.ok_chain,Run.chain_error reached] at ended
        cases ended

theorem release_outer (apid : Nat) : ∀ event ∈ release apid, Outer event := by
  intro event member
  rw [release_mem member]
  exact outer_event nofun rfl

theorem init_outer (role : Role) (lbuf bufsize : Nat) : ∀ event ∈ [((none,.memset lbuf (initByte role) bufsize) : Stamped)], Outer event :=
  single_outer nofun rfl

theorem outer_append (first : ∀ event ∈ front, Outer event) (second : ∀ event ∈ back, Outer event) :
    ∀ event ∈ front ++ back, Outer event := by
  intro event member
  rcases List.mem_append.mp member with before | later
  · exact first event before
  · exact second event later

theorem sender_ends {attachNow detachNow : Nat → Bool} {pageSize lbuf apid : Nat} {driver : XpmemDriver} {iov : Nat → List IoVec}
    {nblocks : Int} :
    ∃ s, (xpmemLoop .sender attachNow detachNow iters pageSize lbuf driver iov nblocks apid).out = .ok s := by
  refine ⟨XpmemState.start nblocks apid,?_⟩
  rw [xpmemLoop,@forRange_exact XpmemState Fault Stamped iters _ (fun j => [(some j,.bcast .iov (iovecBytes nblocks)),(some j,.gather)])
    (fun _ => XpmemState.start nblocks apid) fun _ _ => rfl]

theorem xpmem_fair {attachNow detachNow : Nat → Bool} {pageSize lbuf apid : Nat} {driver : XpmemDriver} {iov : Nat → List IoVec}
    (version : 0 ≤ driver.version) :
    Fair role iters (benchmarkXpmem role attachNow detachNow iters pageSize lbuf driver iov bufsize blocksize apid) := by
  have working : ¬ driver.version < 0 := by omega
  have ahead : ∀ event ∈ [((none,.memset lbuf (initByte role) bufsize) : Stamped)] ++ [(none,.bcast .segid 8)], Outer event :=
    outer_append (init_outer role lbuf bufsize) (single_outer (by decide) rfl)
  have each : ∀ j s, Marked fin (xpmemIteration role (attachNow j) (detachNow j) pageSize lbuf driver (iov j) (toInt (bufsize / blocksize)) j s) :=
    fun _ _ => xpmemIteration_marked
  have sends : role = .sender → ∃ s, (xpmemLoop role attachNow detachNow iters pageSize lbuf driver iov (toInt (bufsize / blocksize))
      apid).out = .ok s := by
    rintro rfl
    exact sender_ends
  cases reached : (xpmemLoop role attachNow detachNow iters pageSize lbuf driver iov (toInt (bufsize / blocksize)) apid).out with
  | ok s =>
      rw [benchmark_ended version reached]
      exact fair_around each ahead (outer_append barrier_outer (release_outer s.apid)) rfl fun role _ => sends role
  | error error =>
      cases error with
      | cleanup last =>
          rw [benchmark_stopped version reached]
          exact fair_around each ahead (release_outer last) rfl fun role _ => sends role
      | _ =>
          refine fair_around each ahead nothing_outer ?_ fun role _ => sends role
          simp only [benchmarkXpmem,if_neg working,initBuffer_run,Run.label,Run.ok_chain,Run.emit_chain,Run.chain_error reached,cleanup,
            List.append_nil]
          rfl

theorem nothing_fair : Fair role 0 (pure ()) := ⟨clocked_none,fun _ _ => rfl⟩

theorem benchmark_fair (bench : Bench) :
    Fair role (fins iters machine (q,bench)) (benchmark role iters full machine bufsize blocksize q liov bench) := by
  have xpmem : ∀ (attachNow detachNow : Nat → Bool) (bench : Bench), Fair role (if 0 ≤ (machine.driver q bench).version then iters else 0)
      (benchmarkXpmem role attachNow detachNow iters machine.pageSize machine.lbuf (machine.driver q bench) (fun _ => machine.received q bench)
        bufsize blocksize (machine.apid q bench)) := by
    intro attachNow detachNow bench
    split
    · exact xpmem_fair ‹_›
    · rename_i broken
      rw [benchmarkXpmem,if_pos (Int.not_le.mp broken)]
      exact nothing_fair
  cases bench with
  | shmem =>
      rw [benchmark,benchmarkShmem,initBuffer_run]
      exact region_fair (fun _ => shmemIteration_marked) (init_outer role machine.lbuf bufsize)
  | shmemPip =>
      rw [benchmark,benchmarkShmemPip,initBuffer_run]
      exact region_fair (fun _ => pipIteration_marked) (init_outer role machine.lbuf bufsize)
  | cma =>
      have ahead : ∀ event ∈ [((none,.bcast .rpid 4) : Stamped)] ++ [(none,.memset machine.lbuf (initByte role) bufsize)], Outer event :=
        outer_append (single_outer (by decide) rfl) (init_outer role machine.lbuf bufsize)
      rw [benchmark,benchmarkCma,initBuffer_run]
      exact region_fair (fun _ => cmaIteration_marked) ahead
  | xpmemNocache => exact xpmem _ _ .xpmemNocache
  | xpmemCached => exact xpmem _ _ .xpmemCached

-- The calls of main, each with what it is called in front of.
def callsOf (steps : List (Nat × Nat)) : List (Nat × Bench) := steps.flatMap fun step => order.map (Prod.mk step.1)

-- How many calls main makes in front of one.
def callNumber (c : Nat × Bench) : Nat := order.length * c.1 + order.idxOf c.2

abbrev Calling (role : Role) (iters : Nat) (machine : Machine) (callList : List (Nat × Bench)) (run : Run Fault Event σ) : Prop :=
  Called finStamped Prod.fst Transfers (fins iters machine) (role = .sender) run.out.toBool callList run.acts

theorem main_barrier : ∀ event ∈ [((none,none,.barrier) : Event)], event.1 = none ∧ finStamped event.2 = false ∧ ¬ Transfers event.2 := by
  intro event member
  rw [List.mem_singleton.mp member]
  have outer := barrier_outer (none,.barrier) List.mem_cons_self
  exact ⟨rfl,outer.1,outer.2.2⟩

theorem benchmarks_calling (benches : List Bench) (liov : List IoVec) :
    Calling role iters machine (benches.map (Prod.mk q)) (callBenchmarks role iters full machine bufsize blocksize q benches liov) := by
  induction benches generalizing liov with
  | nil => exact .ended
  | cons bench rest ih =>
      have fair : Fair role (fins iters machine (q,bench)) (benchmark role iters full machine bufsize blocksize q liov bench) := benchmark_fair bench
      have later := ih (iovAfter role iters machine q liov bench)
      rw [callBenchmarks,List.map_cons]
      generalize benchmark role iters full machine bufsize blocksize q liov bench = run at fair
      obtain ⟨acts,out⟩ := run
      cases out with
      | error error => exact .broken fair.benched
      | ok => exact .passed fair.benched (fun sends => fair.complete sends rfl) main_barrier later

theorem sweep_calling {maxBs fuel : Nat} {s : Nat × Nat} :
    Calling role iters machine (callsOf (visited maxBs fuel s)) (loop .unfinished (sweepBody role iters full machine bufsize maxBs) fuel s) := by
  induction fuel generalizing s with
  | zero => exact .halted
  | succ fuel ih =>
      by_cases more : s.2 ≤ maxBs
      · rw [visited,if_pos more,loop,sweepBody,if_pos more]
        rcases Nat.eq_zero_or_pos s.2 with zero | bytes
        · rw [divide,if_pos zero]
          exact .halted
        · rw [divide_some bytes,Run.pure_chain,assert,if_pos (decide_eq_true bytes),Run.pure_chain]
          have turns : Calling role iters machine (order.map (Prod.mk s.1)) (callBenchmarks role iters full machine bufsize s.2 s.1 order
            (initIov machine.lbuf (bufsize / s.2) s.2)) := benchmarks_calling order _
          generalize callBenchmarks role iters full machine bufsize s.2 s.1 order (initIov machine.lbuf (bufsize / s.2) s.2) = run at turns
          obtain ⟨acts,out⟩ := run
          cases out with
          | error error => exact called_stop turns (callsOf (visited maxBs fuel (s.1+1,mulSize s.2 2)))
          | ok =>
              rw [Run.ok_chain,Run.pure_acts,Run.pure_out,List.append_nil,Run.ok_chain]
              exact called_append turns ih
      · rw [visited,if_neg more,loop,sweepBody,if_neg more]
        exact .ended

theorem benchmarks_own (benches : List Bench) (liov : List IoVec) :
    ∀ event ∈ (callBenchmarks role iters full machine bufsize blocksize q benches liov).acts, event.1 = none →
      event = (none,none,.barrier) := by
  induction benches generalizing liov with
  | nil => exact fun _ member => absurd member List.not_mem_nil
  | cons bench rest ih =>
      rw [callBenchmarks]
      refine Run.chain_acts _ (fun event member own => ?_) fun _ => Run.chain_acts _ (Run.emit_each fun _ => rfl) fun _ => ih _
      obtain ⟨_,_,rfl⟩ := List.mem_map.mp member
      cases own

theorem sweep_own {maxBs fuel : Nat} {s : Nat × Nat} :
    ∀ event ∈ (loop .unfinished (sweepBody role iters full machine bufsize maxBs) fuel s).acts, event.1 = none →
      event = (none,none,.barrier) := by
  refine loop_acts (fun event : Event => event.1 = none → event = (none,none,.barrier)) Fault.unfinished (fun s => ?_) fuel s
  unfold sweepBody
  split
  · refine Run.chain_acts _ ?_ fun nblocks => Run.chain_acts _ ?_ fun _ => Run.chain_acts _ (benchmarks_own order _) fun _ => ?_
    · unfold divide
      split <;> exact fun _ member => absurd member List.not_mem_nil
    · unfold assert
      split <;> exact fun _ member => absurd member List.not_mem_nil
    · exact fun _ member => absurd member List.not_mem_nil
  · exact fun _ member => absurd member List.not_mem_nil

-- What main does, if it does anything: a Barrier, the sweep, and the free only behind all of it.
theorem main_shape {minBs maxBs : Nat} : (mainProgram role iters full machine bufsize minBs maxBs).acts = [] ∨
    ∃ back, (mainProgram role iters full machine bufsize minBs maxBs).acts = [(none,none,.barrier)] ++
        ((loop .unfinished (sweepBody role iters full machine bufsize maxBs) sweepFuel (0,minBs)).acts ++ back) ∧
      (back ≠ [] → (loop .unfinished (sweepBody role iters full machine bufsize maxBs) sweepFuel (0,minBs)).out.toBool = true) ∧
      ∀ event ∈ back, event = (none,none,.free machine.lbuf) := by
  unfold mainProgram
  by_cases some_bytes : 0 < bufsize
  · rw [assert,if_pos (decide_eq_true some_bytes),Run.pure_chain]
    by_cases sizes : (minBs ≤ maxBs && maxBs ≤ bufsize && 0 < maxBs && 0 < minBs) = true
    · rw [sizes,assert,if_pos rfl,Run.pure_chain,Run.emit_chain]
      generalize loop .unfinished (sweepBody role iters full machine bufsize maxBs) sweepFuel (0,minBs) = sweep
      obtain ⟨acts,out⟩ := sweep
      right
      cases out with
      | error error => exact ⟨[],by rw [List.append_nil]; rfl,fun some => absurd rfl some,fun _ member => absurd member List.not_mem_nil⟩
      | ok =>
          refine ⟨freed machine,?_,fun _ => rfl,fun event member => ?_⟩
          · rw [Run.ok_chain,freed]
            split <;> rfl
          · unfold freed at member
            split at member
            · exact List.mem_singleton.mp member
            · cases member
    · left
      rw [assert,if_neg sizes]
      rfl
  · left
    rw [assert,if_neg (by simpa using some_bytes)]
    rfl

theorem callNumber_inj {c d : Nat × Bench} (same : callNumber c = callNumber d) : c = d := by
  obtain ⟨q,first⟩ := c
  obtain ⟨p,second⟩ := d
  have all : ∀ bench, bench ∈ order := fun bench => by cases bench <;> decide
  have left := List.idxOf_lt_length_iff.mpr (all first)
  have right := List.idxOf_lt_length_iff.mpr (all second)
  have length : order.length = 5 := rfl
  simp only [callNumber,length] at same left right
  obtain rfl : q = p := by omega
  have equal : order.idxOf first = order.idxOf second := by omega
  rw [(List.idxOf_inj (all first)).mp equal]

theorem turn_number {c : Nat × Bench} (member : c ∈ order.map (Prod.mk q)) :
    order.length * q ≤ callNumber c ∧ callNumber c < order.length * (q+1) := by
  obtain ⟨bench,inside,rfl⟩ := List.mem_map.mp member
  have place := List.idxOf_lt_length_iff.mpr inside
  rw [callNumber,Nat.mul_succ]
  dsimp only
  omega

theorem calls_number {maxBs fuel : Nat} {s : Nat × Nat} {c : Nat × Bench} (member : c ∈ callsOf (visited maxBs fuel s)) :
    order.length * s.1 ≤ callNumber c := by
  induction fuel generalizing s with
  | zero => cases member
  | succ fuel ih =>
      unfold visited at member
      split at member
      · rcases List.mem_append.mp member with here | later
        · exact (turn_number here).1
        · exact Nat.le_trans (Nat.mul_le_mul_left _ (Nat.le_succ s.1)) (ih later)
      · cases member

theorem turn_sorted (q : Nat) : (order.map (Prod.mk q)).Pairwise fun c d => callNumber c < callNumber d := by
  have places : order.Pairwise fun first second => order.idxOf first < order.idxOf second := by decide
  exact List.pairwise_map.mpr (places.imp fun below => Nat.add_lt_add_left below _)

theorem calls_sorted {maxBs fuel : Nat} {s : Nat × Nat} : (callsOf (visited maxBs fuel s)).Pairwise fun c d => callNumber c < callNumber d := by
  induction fuel generalizing s with
  | zero => exact .nil
  | succ fuel ih =>
      unfold visited
      split
      · refine List.pairwise_append.mpr ⟨turn_sorted s.1,ih,fun c here d later => ?_⟩
        exact Nat.lt_of_lt_of_le (turn_number here).2 (calls_number later)
      · exact .nil

theorem calls_nodup {maxBs fuel : Nat} {s : Nat × Nat} : (callsOf (visited maxBs fuel s)).Nodup := by
  refine calls_sorted.imp ?_
  rintro c d below rfl
  exact Nat.lt_irrefl _ below

-- The transfers of a rank, and what the sender does, by the FINs in front of it.
theorem main_upper {minBs maxBs : Nat} : Upper finStamped Prod.fst Transfers (fins iters machine) (callsOf (visited maxBs sweepFuel (0,minBs)))
    (mainProgram role iters full machine bufsize minBs maxBs).acts := by
  rcases @main_shape role iters full bufsize machine minBs maxBs with nothing | ⟨back,shape,_,frees⟩
  · rw [nothing]
    exact @called_upper _ _ finStamped Prod.fst Transfers (fins iters machine) True false _ _ _ calls_nodup .halted
  · rw [shape]
    refine upper_around (called_upper calls_nodup sweep_calling) main_barrier fun event member => ?_
    rw [frees event member]
    exact ⟨rfl,rfl,nofun⟩

theorem main_lower {minBs maxBs : Nat} : Lower finStamped Prod.fst (fins iters machine) (callsOf (visited maxBs sweepFuel (0,minBs)))
    (mainProgram .sender iters full machine bufsize minBs maxBs).acts := by
  rcases @main_shape .sender iters full bufsize machine minBs maxBs with nothing | ⟨back,shape,_,frees⟩
  · rw [nothing]
    exact fun before c a after split => absurd split.symm (by simp)
  · rw [shape]
    refine lower_around (called_lower calls_nodup sweep_calling rfl) (fun event member => ?_) fun event member => ?_
    · obtain ⟨own,unmarked,_⟩ := main_barrier event member
      exact ⟨own,unmarked⟩
    · rw [frees event member]

def Free (event : Event) : Prop := ∃ ptr, event = (none,none,.free ptr)

theorem main_late {minBs maxBs : Nat} : Late (fun event => finStamped event.2)
    (allotted (fins iters machine) (callsOf (visited maxBs sweepFuel (0,minBs)))) Free
    (mainProgram .sender iters full machine bufsize minBs maxBs).acts := by
  rcases @main_shape .sender iters full bufsize machine minBs maxBs with nothing | ⟨back,shape,ended,_⟩
  · rw [nothing]
    exact late_none fun _ member => absurd member List.not_mem_nil
  · have unfreed : ∀ event ∈ [((none,none,.barrier) : Event)] ++ (loop .unfinished (sweepBody .sender iters full machine bufsize maxBs) sweepFuel
        (0,minBs)).acts, ¬ Free event := by
      rintro event member ⟨ptr,rfl⟩
      rcases List.mem_append.mp member with first | swept
      · cases List.mem_singleton.mp first
      · cases sweep_own _ swept rfl
    rw [shape,← List.append_assoc]
    rcases List.eq_nil_or_concat back with rfl | some
    · rw [List.append_nil]
      exact late_none unfreed
    · have swept : Calling .sender iters machine (callsOf (visited maxBs sweepFuel (0,minBs))) (loop .unfinished (sweepBody .sender iters full
        machine bufsize maxBs) sweepFuel (0,minBs)) := sweep_calling
      rw [Calling,ended (by obtain ⟨rest,last,rfl⟩ := some; simp)] at swept
      refine late_behind ?_ unfreed back
      rw [List.countP_append,called_total swept rfl]
      exact Nat.le_add_left _ _

end

-- What the sender has yet to do while a rank is at a transfer of iteration `j` of a call.
structure Waits (sys : System (Fin size) Event) (cfg : Config (Fin size)) (c : Nat × Bench) (j : Nat) : Prop where
  fin : (some c,some j,.gather) ∉ sys.finished cfg sys.root
  behind : ∀ d stamp act, (some d,stamp,act) ∈ sys.finished cfg sys.root →
    callNumber d < callNumber c ∨ d = c ∧ ∀ k, stamp = some k → k ≤ j
  free : ∀ ptr, (none,none,.free ptr) ∉ sys.finished cfg sys.root

theorem fins_mono {iters : Nat} {own root : Machine} (drivers : ∀ q bench, Reaches own q bench → Reaches root q bench) (c : Nat × Bench) :
    fins iters own c ≤ fins iters root c := by
  obtain ⟨q,bench⟩ := c
  have either : ∀ bench, (Reaches own q bench → 0 ≤ (root.driver q bench).version) →
      (0 ≤ (own.driver q bench).version → Reaches own q bench) →
      (if 0 ≤ (own.driver q bench).version then iters else 0) ≤ if 0 ≤ (root.driver q bench).version then iters else 0 := by
    intro bench given works
    by_cases own_works : 0 ≤ (own.driver q bench).version
    · rw [if_pos own_works,if_pos (given (works own_works))]
    · rw [if_neg own_works]
      exact Nat.zero_le _
  cases bench with
  | xpmemNocache => exact either .xpmemNocache (drivers q .xpmemNocache) id
  | xpmemCached => exact either .xpmemCached (drivers q .xpmemCached) id
  | _ => exact Nat.le_refl iters

-- Main on any number of ranks, in every order of steps, also where pages are refused, reads are short or
-- asserts fail: while a rank is at a transfer, the sender has not passed the FIN of that iteration.
theorem sender_waits {size : Nat} (sender : Fin size) (iters full bufsize minBs maxBs : Nat) (machine : Fin size → Machine)
    (drivers : ∀ r q bench, Reaches (machine r) q bench → Reaches (machine sender) q bench) (cfg : Config (Fin size))
    (reach : (mainSystem sender iters full bufsize minBs maxBs machine).Reached cfg) (r : Fin size) (tag : Option (Nat × Bench))
    (stamp : Option Nat) (act : Act) (here : (mainSystem sender iters full bufsize minBs maxBs machine).current cfg r = some (tag,stamp,act))
    (transfer : isTransfer act = true) :
    ∃ c j, tag = some c ∧ stamp = some j ∧ Waits (mainSystem sender iters full bufsize minBs maxBs machine) cfg c j := by
  have quiet : eventKind (tag,stamp,act) = none := by
    cases act with
    | memcpy => rfl
    | processVmReadv => rfl
    | memcpySegment => rfl
    | _ => cases transfer
  obtain ⟨after,whole,entered⟩ := System.current_behind here quiet .gather
  obtain ⟨c,member,j,rfl,rfl,below,upper⟩ := main_upper _ _ _ _ whole transfer
  have waited := (System.reached_ordered reach).gather r
  have fewer := ticket_mono (@fins_mono iters _ _ (drivers r)) (callsOf (visited maxBs sweepFuel (0,minBs))) c
  have sends := @fins_mono iters _ _ (drivers r) c
  have passed : (mainSystem sender iters full bufsize minBs maxBs machine).returned cfg sender .gather ≤
      ticket (fins iters (machine sender)) (callsOf (visited maxBs sweepFuel (0,minBs))) c + j := by
    refine Nat.le_trans waited (Nat.le_trans ?_ (Nat.add_le_add_right fewer j))
    rw [entered]
    exact upper
  have stands : ∀ event ∈ (mainSystem sender iters full bufsize minBs maxBs machine).finished cfg sender, ∃ before after,
      (mainProgram .sender iters full (machine sender) bufsize minBs maxBs).acts = before ++ event :: after ∧
        (before ++ [event]).countP (fun event => finStamped event.2) ≤
          ticket (fins iters (machine sender)) (callsOf (visited maxBs sweepFuel (0,minBs))) c + j := by
    intro event done
    obtain ⟨before,after,split,count⟩ := System.finished_behind done .gather
    have own := congrArg (fun role => (mainProgram role iters full (machine sender) bufsize minBs maxBs).acts) (root_role sender)
    exact ⟨before,after,own.symm.trans split,Nat.le_trans count passed⟩
  refine ⟨c,j,rfl,rfl,fun done => ?_,fun d stamp act done => ?_,fun ptr done => ?_⟩
  · obtain ⟨before,after,split,count⟩ := stands _ done
    have position := (main_lower before c _ after split).2.2 j rfl
    rw [List.countP_append,position] at count
    exact Nat.lt_irrefl _ count
  · obtain ⟨before,after,split,count⟩ := stands _ done
    have few := Nat.le_trans (List.sublist_append_left before _).countP_le count
    obtain ⟨present,low,position⟩ := main_lower before d _ after split
    rcases Nat.lt_trichotomy (callNumber d) (callNumber c) with before | same | behind
    · exact .inl before
    · obtain rfl := callNumber_inj same
      refine .inr ⟨rfl,fun k known => ?_⟩
      rw [position k known] at few
      exact Nat.le_of_add_le_add_left few
    · have later := @ticket_order _ (fins iters (machine sender)) _ _ _ _ _ calls_sorted member present behind
      have early := Nat.le_trans low few
      omega
  · obtain ⟨before,after,split,count⟩ := stands _ done
    have few := Nat.le_trans (List.sublist_append_left before _).countP_le count
    have early := Nat.le_trans (main_late before _ after split ⟨ptr,rfl⟩) few
    have room := @ticket_total _ (fins iters (machine sender)) _ _ _ member
    omega

-- Two receivers at their first copies, the sender inside the FIN.
theorem sender_waits_three_ranks : ∃ cfg, (mainSystem (0 : Fin 3) 2 4 8 4 8 fun r => SweepSafety.tinyMachine r).Reached cfg ∧
    Waits (mainSystem (0 : Fin 3) 2 4 8 4 8 fun r => SweepSafety.tinyMachine r) cfg (0,.shmem) 0 := by
  have moved : ((mainSystem (0 : Fin 3) 2 4 8 4 8 fun r => SweepSafety.tinyMachine r).moves (fun _ => ⟨0,false⟩)
      [0,1,2,0,1,2,0,0,0,0,0,0,1,1,1,2,2,2]).any (fun cfg =>
        decide ((mainSystem (0 : Fin 3) 2 4 8 4 8 fun r => SweepSafety.tinyMachine r).current cfg 1 =
          some (some (0,.shmem),some 0,.memcpy 128 1088 4))) = true := by
    decide +kernel
  obtain ⟨cfg,made,copying⟩ := (Option.any_eq_true _ _).mp moved
  have reach := System.moves_reached .start made
  obtain ⟨c,j,tagged,stamped,waits⟩ := sender_waits (0 : Fin 3) 2 4 8 4 8 (fun r => SweepSafety.tinyMachine r)
    (fun _ _ bench reaches => by cases bench <;> exact reaches) cfg reach 1 _ (some 0) _ (of_decide_eq_true copying) rfl
  cases tagged
  cases stamped
  exact ⟨cfg,reach,waits⟩

end MpidtBench.SweepWaiting
