import MpidtBench.Library.Doubling
import MpidtBench.Model.Latency
import MpidtBench.Proofs.OptionParsing

namespace MpidtBench.LatencySweep
open Traced CInteger Doubling MpidtBench OptionParsing

def pair (myid : Nat) (cnt : Int) : List LatencyAct :=
  if myid = 0 then [.send cnt 1 1,.recv cnt 1 1] else [.recv cnt 0 1,.send cnt 0 1]

-- What a rank does for one count, with so many pairs.
def round (myid : Nat) (part : Int × Nat) : List LatencyAct :=
  [.fill maxNumElems ⟨1,2,3,4⟩ ⟨0,0,0,0⟩,.barrier] ++ (List.replicate part.2 (pair myid part.1)).flatten

def opening (extent : Nat) : List LatencyAct :=
  [.posixMemalign (mulSize maxNumElems extent),.posixMemalign (mulSize maxNumElems extent),.barrier]
def closing : List LatencyAct := [.free,.free,.finalize]

-- How often the inner loop goes round: behind INT_MAX, i is negative and as a size_t above the sum.
def turns (options : Options) : Nat := min (options.iterations + options.skip) (intMax + 1)

-- The options that hold behind the test against LARGE_MESSAGE_SIZE, and the next state.
def current (extent : Nat) (s : LatencyState) : Options :=
  if ((largeMessageSize / extent : Nat) : Int) < s.cnt then s.options.large else s.options
def next (extent : Nat) (s : LatencyState) : LatencyState := ⟨nextCnt s.cnt,current extent s⟩

def rounds (extent : Nat) : Nat → LatencyState → List (Int × Nat)
  | 0,_ => []
  | fuel+1,s => if s.cnt ≤ maxNumElems then (s.cnt,turns (current extent s)) :: rounds extent fuel (next extent s) else []

-- min, 2*min, 4*min, ..., and from 0 on 0, 1, 2, 4, ..., as far as MAX_NUM_ELEMS.
def Asked (minSize c : Nat) : Prop := c ≤ maxNumElems ∧ (minSize = 0 ∧ c = 0 ∨ ∃ k, c = max minSize 1 * 2 ^ k)

-- The pairs for one count: the large-message counts hold from the first large count on.
def pairsAt (extent : Nat) (options : Options) (c : Nat) : Nat := turns (current extent ⟨c,options⟩)

-- Both ranks end, with equally many pairs for every count, and however their steps fall every message is
-- received by the receive it is meant for.
structure LatencyMatched (extent : Nat) (opts : List Opt) : Prop where
  alike : ∃ parts : List (Int × Nat), (∀ part ∈ parts, 0 < part.2) ∧ ∀ myid < 2,
    osuLatencyContig myid 2 extent true true opts = ⟨opening extent ++ parts.flatMap (round myid) ++ closing,.ok 0⟩
  safe : ∀ n cfg, Session.Reached (comms 0 extent opts) (comms 1 extent opts) n cfg → Session.Safe cfg
  bounded : ∀ n cfg, Session.Reached (comms 0 extent opts) (comms 1 extent opts) n cfg →
    n ≤ (comms 0 extent opts).length + (comms 1 extent opts).length

-- And the counts are those asked for, in order, each with a message that fits.
structure LatencyExact (extent : Nat) (opts : List Opt) (options : Options) : Prop extends LatencyMatched extent opts where
  counts : ∃ cs : List Nat, cs.Pairwise (· < ·) ∧ (∀ c, c ∈ cs ↔ Asked options.minMessageSize c) ∧ ∀ myid < 2,
    osuLatencyContig myid 2 extent true true opts =
      ⟨opening extent ++ (cs.map fun (c : Nat) => ((c : Int),pairsAt extent options c)).flatMap (round myid) ++ closing,.ok 0⟩
  fits : ∀ myid < 2, ∀ a ∈ (osuLatencyContig myid 2 extent true true opts).acts, ∀ count, a.count = some count →
    0 ≤ count ∧ count * extent ≤ mulSize maxNumElems extent

section
variable {options : Options} {extent myid fuel n : Nat} {s : LatencyState} {cnt : Int}

theorem large_settings (valid : Settings options) : Settings options.large :=
  {valid with iterations := valid.iterationsLarge,skip := valid.skipLarge}

theorem current_settings (extent : Nat) (valid : Settings s.options) : Settings (current extent s) := by
  unfold current
  split
  · exact large_settings valid
  · exact valid

theorem turns_positive (valid : Settings options) : 0 < turns options := by
  have some := valid.iterations.1
  unfold turns
  omega

theorem sum_exact (valid : Settings options) : addSize options.iterations options.skip = options.iterations + options.skip := by
  have iterations := valid.iterations.2
  have skip := valid.skip
  unfold intMax at iterations skip
  exact addSize_exact (by unfold sizeMod; omega)

theorem flatten_succ (n : Nat) (list : List τ) : (List.replicate (n+1) list).flatten = (List.replicate n list).flatten ++ list := by
  rw [List.replicate_succ',List.flatten_append,List.flatten_singleton]

theorem pair_step (valid : Settings options) (before : n < turns options) (acts : List LatencyAct) :
    pairStep ⟨acts,.ok ()⟩ options (toInt n) = ⟨acts,.ok (.inl (toInt (n+1)))⟩ := by
  unfold turns at before
  have value : toInt n = n := toInt_exact (by omega)
  have whole : toSize (toInt n) = n := by
    rw [value]
    exact toSize_exact (intMax_lt_sizeMod (by omega))
  have counted : addInt (toInt n) 1 = toInt (n+1) := addInt_toInt n 1
  rw [pairStep,whole,sum_exact valid,if_pos (by omega),Run.ok_chain,Run.pure_acts,List.append_nil,Run.pure_out,counted]

theorem pair_stop (valid : Settings options) (pass : Run Fault LatencyAct Unit) :
    pairStep pass options (toInt (turns options)) = ⟨[],.ok (.inr ())⟩ := by
  have iterations := valid.iterations.2
  have skip := valid.skip
  have beyond : ¬ toSize (toInt (turns options)) < options.iterations + options.skip := by
    unfold turns toInt toSize sizeMod
    unfold intMax at *
    rw [Int.bmod_def]
    omega
  rw [pairStep,sum_exact valid,if_neg beyond]
  rfl

theorem pair_visits (valid : Settings options) (acts : List LatencyAct) (upto : n ≤ turns options) :
    Visits (pairStep ⟨acts,.ok ()⟩ options) n 0 (List.replicate n acts).flatten (toInt n) := by
  induction n with
  | zero => exact .enter
  | succ n ih =>
      rw [flatten_succ]
      exact (ih (Nat.le_of_succ_le upto)).pass (pair_step valid upto acts)

theorem pairs_run (valid : Settings options) (acts : List LatencyAct) :
    pairs ⟨acts,.ok ()⟩ options = ⟨(List.replicate (turns options) acts).flatten,.ok ()⟩ := by
  have enough : turns options < pairFuel := by
    unfold turns pairFuel intMax
    omega
  have ended := loop_ends (pair_visits valid acts (Nat.le_refl _)) (pair_stop valid _) enough Fault.unfinished
  rw [List.append_nil] at ended
  exact ended

theorem pingPong_run (valid : Settings options) (rank : myid < 2) (cnt : Int) :
    pingPong myid cnt options = ⟨(List.replicate (turns options) (pair myid cnt)).flatten,.ok ()⟩ := by
  by_cases zero : myid = 0
  · rw [pingPong,pair,if_pos zero,if_pos zero]
    exact pairs_run valid [.send cnt 1 1,.recv cnt 1 1]
  · rw [pingPong,pair,if_neg zero,if_neg zero,if_pos (by omega)]
    exact pairs_run valid [.recv cnt 0 1,.send cnt 0 1]

theorem step_run (some_bytes : 0 < extent) (valid : Settings s.options) (rank : myid < 2) (more : s.cnt ≤ maxNumElems) :
    latencyStep myid extent s = ⟨round myid (s.cnt,turns (current extent s)),.ok (.inl (next extent s))⟩ := by
  have exchanged := pingPong_run (current_settings extent valid) rank s.cnt
  unfold current at exchanged
  rw [latencyStep,if_pos more,divide_some some_bytes]
  simp only [Run.emit_chain,Run.pure_chain,exchanged,Run.ok_chain,Run.pure_acts,Run.pure_out,List.append_nil]
  rfl

theorem step_stop (beyond : (maxNumElems : Int) < s.cnt) : latencyStep myid extent s = ⟨[],.ok (.inr ())⟩ := by
  rw [latencyStep,if_neg (Int.not_le.mpr beyond)]
  rfl

theorem sweep_run (some_bytes : 0 < extent) (valid : Settings s.options) (rank : myid < 2) (leaving : Leaves maxNumElems n s.cnt)
    (enough : n < fuel) :
    loop .unfinished (latencyStep myid extent) fuel s = ⟨(rounds extent fuel s).flatMap (round myid),.ok ()⟩ := by
  induction n generalizing fuel s with
  | zero =>
      cases fuel with
      | zero => exact absurd enough (Nat.lt_irrefl 0)
      | succ fuel =>
          rw [loop,step_stop leaving,rounds,if_neg (Int.not_le.mpr leaving)]
          rfl
  | succ n ih =>
      cases fuel with
      | zero => exact absurd enough (Nat.not_lt_zero _)
      | succ fuel =>
          by_cases more : s.cnt ≤ maxNumElems
          · have later : Leaves maxNumElems n (next extent s).cnt := leaving.resolve_left (Int.not_lt.mpr more)
            have rest := ih (s := next extent s) (current_settings extent valid) later (Nat.lt_of_succ_lt_succ enough)
            rw [loop,step_run some_bytes valid rank more,Run.ok_chain]
            dsimp only
            rw [rest,rounds,if_pos more,List.flatMap_cons]
          · rw [loop,step_stop (Int.not_le.mp more),rounds,if_neg more]
            rfl

theorem start_cnt (options : Options) : (LatencyState.start options).cnt = toInt options.minMessageSize := by
  simp only [LatencyState.start]

-- From every residue the sweep comes to its end.
theorem latencySweep_run (some_bytes : 0 < extent) (valid : Settings options) (rank : myid < 2) :
    latencySweep myid extent options = ⟨(rounds extent latencyFuel (.start options)).flatMap (round myid),.ok ()⟩ := by
  have leaving : Leaves maxNumElems 53 (LatencyState.start options).cnt := by
    rw [start_cnt]
    exact leaves (m := 20) (by decide) (by decide) (toInt_isInt _)
  exact sweep_run some_bytes valid rank leaving (by decide)

theorem main_around (parsed : processOptions opts = .ok options) (swept : latencySweep myid extent options = ⟨acts,.ok ()⟩) :
    osuLatencyContig myid 2 extent true true opts = ⟨opening extent ++ acts ++ closing,.ok 0⟩ := by
  unfold osuLatencyContig
  rw [parsed]
  dsimp only
  generalize latencySweep myid extent options = sweep at swept ⊢
  subst swept
  simp [opening,closing]

theorem main_run (parsed : processOptions opts = .ok options) (some_bytes : 0 < extent) (rank : myid < 2) :
    osuLatencyContig myid 2 extent true true opts =
      ⟨opening extent ++ (rounds extent latencyFuel (.start options)).flatMap (round myid) ++ closing,.ok 0⟩ :=
  main_around parsed (latencySweep_run some_bytes (parsed_settings parsed) rank)

theorem comms_pair (cnt : Int) : (pair 1 cnt).filterMap (comm 1) = ((pair 0 cnt).filterMap (comm 0)).map Session.Comm.dual := rfl

theorem comms_round (part : Int × Nat) :
    (round 1 part).filterMap (comm 1) = ((round 0 part).filterMap (comm 0)).map Session.Comm.dual := by
  simp only [round,List.filterMap_append,List.map_append,List.filterMap_flatten,List.map_flatten,List.map_replicate,comms_pair]
  rfl

theorem comms_dual (parts : List (Int × Nat)) :
    (opening extent ++ parts.flatMap (round 1) ++ closing).filterMap (comm 1) =
      ((opening extent ++ parts.flatMap (round 0) ++ closing).filterMap (comm 0)).map Session.Comm.dual := by
  simp only [List.filterMap_append,List.map_append,List.filterMap_flatMap,List.map_flatMap,comms_round]
  rfl

theorem rounds_positive (valid : Settings s.options) : ∀ part ∈ rounds extent fuel s, 0 < part.2 := by
  induction fuel generalizing s with
  | zero => exact nofun
  | succ fuel ih =>
      have kept := current_settings extent valid
      intro part member
      rw [rounds] at member
      split at member
      · rcases List.mem_cons.mp member with rfl | later
        · exact turns_positive kept
        · exact ih (s := next extent s) kept part later
      · cases member

theorem matched (parsed : processOptions opts = .ok options) (some_bytes : 0 < extent) : LatencyMatched extent opts := by
  have dual : comms 1 extent opts = (comms 0 extent opts).map Session.Comm.dual := by
    rw [comms,comms,main_run parsed some_bytes (by decide),main_run parsed some_bytes (by decide)]
    exact comms_dual _
  refine ⟨⟨_,?_,fun myid rank => main_run parsed some_bytes rank⟩,?_,?_⟩
  · exact rounds_positive (parsed_settings parsed)
  · intro n cfg reached
    rw [dual] at reached
    exact Session.dual_safe reached
  · intro n cfg reached
    exact Nat.le_trans (Nat.le_add_right n _) (Session.reached_bounded reached)

-- The options at a count, which the switch has been made for if the count is large.
theorem current_at (extent : Nat) (options : Options) (c : Nat) :
    current extent ⟨c,options⟩ = if largeMessageSize / extent < c then options.large else options := by
  simp only [current,Int.ofNat_lt]

theorem current_held (held : prior = options ∨ prior = options.large ∧ largeMessageSize / extent < c) :
    current extent ⟨(c : Nat),prior⟩ = current extent ⟨c,options⟩ := by
  rw [current_at,current_at]
  rcases held with rfl | ⟨rfl,large⟩
  · rfl
  · rw [if_pos large,if_pos large]
    rfl

-- The counts only grow, so the switch to the large-message options is never taken back.
theorem rounds_doublings {c : Nat} (held : prior = options ∨ prior = options.large ∧ largeMessageSize / extent < c) :
    rounds extent fuel ⟨c,prior⟩ = (upTo maxNumElems fuel c).map fun (c : Nat) => ((c : Int),pairsAt extent options c) := by
  induction fuel generalizing prior c with
  | zero => rfl
  | succ fuel ih =>
      by_cases more : c ≤ maxNumElems
      · have later : current extent ⟨c,options⟩ = options ∨
            current extent ⟨c,options⟩ = options.large ∧ largeMessageSize / extent < double c := by
          rw [current_at]
          split
          · rename_i large
            exact .inr ⟨rfl,Nat.lt_trans large (double_above c)⟩
          · exact .inl rfl
        have counted : nextCnt c = double c := doubleInt_exact more (by decide)
        have rest := ih later
        rw [rounds,upTo,if_pos (Int.ofNat_le.mpr more),if_pos more,List.map_cons,next,counted,current_held held,rest]
        rfl
      · rw [rounds,upTo,if_neg (by simpa using more),if_neg more]
        rfl

theorem asked_iff (positive : 0 < minSize) : Asked minSize c ↔ c ≤ maxNumElems ∧ ∃ k, c = minSize * 2 ^ k := by
  unfold Asked
  rw [Nat.max_eq_left positive]
  constructor
  · rintro ⟨small,⟨zero,_⟩ | doubled⟩
    · omega
    · exact ⟨small,doubled⟩
  · rintro ⟨small,doubled⟩
    exact ⟨small,.inr doubled⟩

theorem asked_zero : Asked 0 c ↔ c = 0 ∨ c ≤ maxNumElems ∧ ∃ k, c = 1 * 2 ^ k := by
  unfold Asked
  constructor
  · rintro ⟨small,⟨_,zero⟩ | doubled⟩
    · exact .inl zero
    · exact .inr ⟨small,doubled⟩
  · rintro (rfl | ⟨small,doubled⟩)
    · exact ⟨Nat.zero_le _,.inl ⟨rfl,rfl⟩⟩
    · exact ⟨small,.inr doubled⟩

theorem mem_asked (minSize : Nat) : c ∈ upTo maxNumElems latencyFuel minSize ↔ Asked minSize c := by
  rcases Nat.eq_zero_or_pos minSize with rfl | positive
  · rw [show latencyFuel = 65+1 from rfl,mem_upTo_zero (by decide),asked_zero]
  · have enough : maxNumElems < minSize * 2 ^ latencyFuel :=
      Nat.lt_of_lt_of_le (by decide) (Nat.le_mul_of_pos_left (2 ^ latencyFuel) positive)
    rw [mem_upTo positive enough,asked_iff positive]

theorem count_pair (member : a ∈ pair myid cnt) (counted : a.count = some count) : count = cnt := by
  unfold pair at member
  split at member
  all_goals
    rcases List.mem_cons.mp member with rfl | later
    · exact (Option.some.inj counted).symm
    · rw [List.mem_singleton.mp later] at counted
      exact (Option.some.inj counted).symm

theorem count_round (member : a ∈ round myid part) (counted : a.count = some count) : count = part.1 := by
  rcases List.mem_append.mp member with before | exchanged
  · rcases List.mem_cons.mp before with rfl | later
    · cases counted
    · rw [List.mem_singleton.mp later] at counted
      cases counted
  · obtain ⟨block,repeated,inside⟩ := List.mem_flatten.mp exchanged
    rw [List.eq_of_mem_replicate repeated] at inside
    exact count_pair inside counted

theorem count_main {parts : List (Int × Nat)} (member : a ∈ opening extent ++ parts.flatMap (round myid) ++ closing)
    (counted : a.count = some count) : ∃ part ∈ parts, count = part.1 := by
  rcases List.mem_append.mp member with front | later
  · rcases List.mem_append.mp front with before | exchanged
    · simp only [opening,List.mem_cons,List.not_mem_nil,or_false] at before
      rcases before with rfl | rfl | rfl <;> cases counted
    · obtain ⟨part,visited,inside⟩ := List.mem_flatMap.mp exchanged
      exact ⟨part,visited,count_round inside counted⟩
  · simp only [closing,List.mem_cons,List.not_mem_nil,or_false] at later
    rcases later with rfl | rfl | rfl <;> cases counted

theorem exact_of_counts (parsed : processOptions opts = .ok options) (some_bytes : 0 < extent) (room : maxNumElems * extent < sizeMod)
    {cs : List Nat} (sorted : cs.Pairwise (· < ·)) (asked : ∀ c, c ∈ cs ↔ Asked options.minMessageSize c)
    (visited : rounds extent latencyFuel (.start options) = cs.map fun (c : Nat) => ((c : Int),pairsAt extent options c)) :
    LatencyExact extent opts options := by
  have run : ∀ myid < 2, osuLatencyContig myid 2 extent true true opts =
      ⟨opening extent ++ (cs.map fun (c : Nat) => ((c : Int),pairsAt extent options c)).flatMap (round myid) ++ closing,.ok 0⟩ := by
    intro myid rank
    rw [main_run parsed some_bytes rank,visited]
  refine {matched parsed some_bytes with counts := ⟨cs,sorted,asked,run⟩,fits := ?_}
  intro myid rank a member count counted
  rw [run myid rank] at member
  obtain ⟨part,inside,rfl⟩ := count_main member counted
  obtain ⟨c,listed,rfl⟩ := List.mem_map.mp inside
  have small := ((asked c).mp listed).1
  refine ⟨Int.natCast_nonneg c,?_⟩
  have within : c * extent ≤ maxNumElems * extent := Nat.mul_le_mul_right extent small
  rw [mulSize_exact room]
  dsimp only
  exact_mod_cast within

theorem ping_mem (some : 0 < n) (cnt : Int) : .send cnt 1 1 ∈ round 0 (cnt,n) := by
  refine List.mem_append_right _ (List.mem_flatten.mpr ⟨pair 0 cnt,?_,List.mem_cons_self⟩)
  exact List.mem_replicate.mpr ⟨Nat.ne_of_gt some,rfl⟩

-- A count the sweep starts with is passed by rank 0, whatever was asked for.
theorem first_passed (parsed : processOptions opts = .ok options) (some_bytes : 0 < extent)
    (more : toInt options.minMessageSize ≤ maxNumElems) :
    LatencyAct.send (toInt options.minMessageSize) 1 1 ∈ (osuLatencyContig 0 2 extent true true opts).acts := by
  have positive := turns_positive (current_settings (s := .start options) extent (parsed_settings parsed))
  have head : rounds extent latencyFuel (.start options) =
      (toInt options.minMessageSize,turns (current extent (.start options))) :: rounds extent 65 (next extent (.start options)) := by
    rw [show latencyFuel = 65+1 from rfl,rounds,start_cnt,if_pos more]
  rw [main_run parsed some_bytes (by decide),head]
  refine List.mem_append_left _ (List.mem_append_right _ (List.mem_flatMap.mpr ⟨_,List.mem_cons_self,?_⟩))
  exact ping_mem positive _

theorem beyond_asked (beyond : maxNumElems < minSize) (c : Nat) : ¬ Asked minSize c := by
  rw [asked_iff (Nat.zero_lt_of_lt beyond)]
  exact none_doubled beyond

-- A minimum that is cut down to a smaller int: nothing was asked for, and something is sent.
theorem narrowed_inexact (parsed : processOptions opts = .ok options) (some_bytes : 0 < extent)
    (beyond : maxNumElems < options.minMessageSize) (more : toInt options.minMessageSize ≤ maxNumElems) :
    ¬ LatencyExact extent opts options := by
  intro exactly
  have passed := first_passed parsed some_bytes more
  obtain ⟨cs,_,asked,run⟩ := exactly.counts
  rw [run 0 (by decide)] at passed
  obtain ⟨part,inside,_⟩ := count_main passed rfl
  obtain ⟨c,listed,_⟩ := List.mem_map.mp inside
  exact beyond_asked beyond c ((asked c).mp listed)

theorem kept_exact (parsed : processOptions opts = .ok options) (some_bytes : 0 < extent) (room : maxNumElems * extent < sizeMod)
    (small : options.minMessageSize ≤ maxNumElems) : LatencyExact extent opts options := by
  have start : LatencyState.start options = ⟨options.minMessageSize,options⟩ := by
    rw [LatencyState.start,toInt_exact (Nat.le_trans small (by decide))]
  have visited := @rounds_doublings options extent latencyFuel options options.minMessageSize (.inl rfl)
  rw [← start] at visited
  exact exact_of_counts parsed some_bytes room (upTo_sorted _ _ _) (fun _ => mem_asked _) visited

theorem idle_exact (parsed : processOptions opts = .ok options) (some_bytes : 0 < extent) (room : maxNumElems * extent < sizeMod)
    (beyond : maxNumElems < options.minMessageSize) (idle : (maxNumElems : Int) < toInt options.minMessageSize) :
    LatencyExact extent opts options := by
  have visited : rounds extent latencyFuel (.start options) = [] := by
    rw [show latencyFuel = 65+1 from rfl,rounds,start_cnt,if_neg (Int.not_le.mpr idle)]
  exact exact_of_counts parsed some_bytes room .nil (fun c => iff_of_false List.not_mem_nil (beyond_asked beyond c)) visited

theorem narrowed_beyond (x : Nat) : (maxNumElems : Int) < toInt x ↔ maxNumElems < x % 4294967296 ∧ x % 4294967296 ≤ intMax := by
  unfold toInt maxNumElems intMax
  rw [Int.bmod_def]
  omega

-- What holds of every command line the parser accepts, and for which of them the counts are right: a minimum
-- above MAX_NUM_ELEMS has to be above it in its low 32 bits too, and not to be negative there.
theorem latency_sweep (parsed : processOptions opts = .ok options) (some_bytes : 0 < extent) (room : maxNumElems * extent < sizeMod) :
    LatencyMatched extent opts ∧ (LatencyExact extent opts options ↔ options.minMessageSize ≤ maxNumElems ∨
      maxNumElems < options.minMessageSize % 4294967296 ∧ options.minMessageSize % 4294967296 ≤ intMax) := by
  refine ⟨matched parsed some_bytes,?_⟩
  rw [← narrowed_beyond]
  by_cases small : options.minMessageSize ≤ maxNumElems
  · exact ⟨fun _ => .inl small,fun _ => kept_exact parsed some_bytes room small⟩
  · have beyond := Nat.not_le.mp small
    constructor
    · intro exactly
      exact .inr (Int.not_le.mp fun more => narrowed_inexact parsed some_bytes beyond more exactly)
    · intro condition
      exact idle_exact parsed some_bytes room beyond (condition.resolve_left small)

end

theorem latency_sweep_from_four : LatencyExact 8 [⟨'i',['2','0'],' '⟩,⟨'m',['4',':'],' '⟩] ⟨4,4194304,20,20,100,10⟩ :=
  (latency_sweep rfl (by decide) (by decide)).2.mpr (.inl (by decide))

-- `-m 2147483648:`, which int holds as its lowest value.
theorem latency_sweep_narrowed :
    processOptions [⟨'m',['2','1','4','7','4','8','3','6','4','8',':'],' '⟩] = .ok {defaultOptions with minMessageSize := 2147483648} ∧
      LatencyAct.send (-2147483648) 1 1 ∈
        (osuLatencyContig 0 2 8 true true [⟨'m',['2','1','4','7','4','8','3','6','4','8',':'],' '⟩]).acts ∧
      ¬ LatencyExact 8 [⟨'m',['2','1','4','7','4','8','3','6','4','8',':'],' '⟩] {defaultOptions with minMessageSize := 2147483648} := by
  have parsed : processOptions [⟨'m',['2','1','4','7','4','8','3','6','4','8',':'],' '⟩] =
      .ok {defaultOptions with minMessageSize := 2147483648} := rfl
  have narrowed : toInt 2147483648 = -2147483648 := by decide
  have passed := first_passed parsed (by decide : 0 < 8) (by decide)
  simp only [narrowed] at passed
  exact ⟨parsed,passed,narrowed_inexact parsed (by decide) (by decide) (by decide)⟩

end MpidtBench.LatencySweep
