import MpidtBench.Model.Ranks
import MpidtBench.Proofs.PipelineDomain

namespace MpidtBench.PipelineProtocol
open Traced CInteger ScatterGather ByteMemory Collective MpidtBench PipelineLoops PipelineDomain

def iterationActs (role : Role) (full ptr : Nat) (liov : List IoVec) : List Act :=
  roundsActs role ptr 0 (chunks full (total liov / full) liov) ++ [.gather]

theorem tests_bound (full : Nat) (liov : List IoVec) : tests full rounds liov ≤ liov.length + 3 * rounds := by
  have pieces := chunks_pieces full rounds liov
  have count := chunks_length full rounds liov
  have split : tests full rounds liov =
      ((chunks full rounds liov).map List.length).sum + 2 * (chunks full rounds liov).length := by
    unfold tests
    generalize chunks full rounds liov = lists
    induction lists with
    | nil => rfl
    | cons head rest ih => simp only [List.map_cons,List.sum_cons,List.length_cons,ih]; omega
  omega

section
variable {role : Role} {full ptr lbuf bufsize blocksize : Nat} {liov : List IoVec}

-- What one iteration of benchmark_shmem_pip issues when every chunk is full.
theorem pipIteration_run (positive : Positive liov) (whole : total liov = bufsize) (count : liov.length = bufsize / blocksize)
    (small : bufsize ≤ intMax) (nonzero : 0 < full) (sized : full < sizeMod) (divides : full ∣ bufsize) :
    pipIteration role full ptr liov bufsize blocksize = ⟨iterationActs role full ptr liov,.ok ()⟩ := by
  subst whole
  have niov : toInt (total liov / blocksize) = (liov.length : Int) := by
    rw [nblocks_exact _ _ small,count]
  obtain ⟨s,visit,stopped,cursor,_,read,_⟩ := @loops_end role ptr full liov positive small sized nonzero divides
  have enough := @tests_bound (total liov / full) full liov
  have fuelled : tests full (total liov / full) liov + 1 < pipFuel full (total liov) liov := by rw [pipFuel]; omega
  have ran := loop_ends visit stopped (Nat.lt_of_succ_lt fuelled) Fault.unfinished
  simp only [pipIteration,niov,roleStep_pip,ran,Run.ok_chain,Run.emit_chain,cursor,read,assert,beq_self_eq_true,if_true,
    Run.pure_chain,Run.pure_acts,Run.pure_out,List.append_nil,iterationActs]

def programActs (role : Role) (iters full ptr lbuf bufsize : Nat) (liov : List IoVec) : List Stamped :=
  (none,.memset lbuf (initByte role) bufsize) ::
    ((List.range iters).flatMap (fun j => (iterationActs role full ptr liov).map (Prod.mk (some j))) ++ [(none,.barrier)])

theorem benchmarkShmemPip_run (positive : Positive liov) (whole : total liov = bufsize)
    (count : liov.length = bufsize / blocksize) (small : bufsize ≤ intMax) (nonzero : 0 < full) (sized : full < sizeMod)
    (divides : full ∣ bufsize) : benchmarkShmemPip role iters full ptr lbuf liov bufsize blocksize =
      ⟨programActs role iters full ptr lbuf bufsize liov,.ok ()⟩ := by
  have passes := @forRange_exact Unit Fault Stamped iters
    (fun j _ => (pipIteration role full ptr liov bufsize blocksize).label (Prod.mk (some j)))
    (fun j => (iterationActs role full ptr liov).map (Prod.mk (some j))) (fun _ => ()) (by
      intro j _
      rw [pipIteration_run positive whole count small nonzero sized divides]
      rfl)
  unfold benchmarkShmemPip
  rw [passes,initBuffer_run]
  rfl

-- Which byte of the region a memcpy touches: the sender's destination, the receiver's source.
def regionSide : Role → Nat → Nat → Nat
  | .sender,dst,_ => dst
  | .receiver,_,src => src
def touches (role : Role) (ptr b : Nat) : Act → Prop
  | .memcpy dst src len => regionSide role dst src ≤ ptr + b ∧ ptr + b < regionSide role dst src + len
  | _ => False

-- The receiver copies a chunk after the Bcast for it, the sender before.
def shift : Role → Nat
  | .sender => 0
  | .receiver => 1

theorem copies_touch (role : Role) (ptr moved b : Nat) (pieces : List IoVec) :
    (∃ act ∈ (copies role ptr moved pieces).map ofCopy, touches role ptr b act) ↔
      moved ≤ b ∧ b < moved + total pieces := by
  induction pieces generalizing moved with
  | nil => cases role <;> simp [copies,packCopies,unpackCopies]
  | cons v rest ih =>
      have tail := ih (moved + v.iovLen)
      have head : (∃ act ∈ (copies role ptr moved (v :: rest)).map ofCopy, touches role ptr b act) ↔
          (moved ≤ b ∧ b < moved + v.iovLen) ∨
            ∃ act ∈ (copies role ptr (moved + v.iovLen) rest).map ofCopy, touches role ptr b act := by
        cases role with
        | sender =>
            simp only [copies,packCopies,List.map_cons,List.mem_cons,exists_eq_or_imp,ofCopy,touches,regionSide]
            have same : ptr + moved ≤ ptr + b ∧ ptr + b < ptr + moved + v.iovLen ↔ moved ≤ b ∧ b < moved + v.iovLen := by omega
            rw [same]
        | receiver =>
            simp only [copies,unpackCopies,List.map_cons,List.mem_cons,exists_eq_or_imp,ofCopy,touches,regionSide]
            have same : ptr + moved ≤ ptr + b ∧ ptr + b < ptr + moved + v.iovLen ↔ moved ≤ b ∧ b < moved + v.iovLen := by omega
            rw [same]
      rw [head,tail,total_cons]
      omega

theorem copies_local (role : Role) (ptr moved : Nat) (pieces : List IoVec) :
    ∀ act ∈ (copies role ptr moved pieces).map ofCopy, callKind act = none := by
  intro act member
  obtain ⟨copy,_,rfl⟩ := List.mem_map.mp member
  rfl

theorem roundActs_kinds (role : Role) (ptr moved : Nat) (pieces : List IoVec) :
    kinds callKind (roundActs role ptr moved pieces) = [.bcast] := by
  rw [roundActs,kinds_append,kinds_append,kinds_local (copies_local role ptr moved pieces)]
  cases role <;> rfl

-- Where in a round, counted in calls, byte `b` of the region is touched.
theorem roundActs_touch (role : Role) (ptr moved b s : Nat) (pieces : List IoVec) :
    (∃ act, touches role ptr b act ∧ Located callKind (roundActs role ptr moved pieces) act s) ↔
      (moved ≤ b ∧ b < moved + total pieces) ∧ s = shift role := by
  have inside := copies_touch role ptr moved b pieces
  have quiet := copies_local role ptr moved pieces
  cases role with
  | sender =>
      simp only [roundActs,entry,exit,List.nil_append,located_append,located_singleton,located_local quiet,shift]
      rw [← inside]
      constructor
      · intro given
        obtain ⟨act,touch,⟨member,rfl⟩ | ⟨_,⟨rfl,_⟩,_⟩⟩ := given
        · exact ⟨⟨act,member,touch⟩,rfl⟩
        · cases touch
      · intro given
        obtain ⟨⟨act,member,touch⟩,rfl⟩ := given
        exact ⟨act,touch,.inl ⟨member,rfl⟩⟩
  | receiver =>
      simp only [roundActs,entry,exit,List.append_nil,located_append,located_singleton,located_local quiet,shift]
      rw [← inside]
      constructor
      · intro given
        obtain ⟨act,touch,⟨rfl,_⟩ | ⟨_,⟨member,rfl⟩,rfl⟩⟩ := given
        · cases touch
        · exact ⟨⟨act,member,touch⟩,rfl⟩
      · intro given
        obtain ⟨⟨act,member,touch⟩,rfl⟩ := given
        exact ⟨act,touch,.inr ⟨0,⟨member,rfl⟩,rfl⟩⟩

theorem roundsActs_kinds (role : Role) (ptr moved : Nat) (rounds : List (List IoVec)) :
    kinds callKind (roundsActs role ptr moved rounds) = List.replicate rounds.length .bcast := by
  induction rounds generalizing moved with
  | nil => rfl
  | cons pieces rest ih => rw [roundsActs,kinds_append,roundActs_kinds,ih]; rfl

theorem roundsActs_touch (role : Role) (ptr : Nat) (nonzero : 0 < full) {rounds : List (List IoVec)}
    (sizes : ∀ pieces ∈ rounds, total pieces = full) (moved b s : Nat) :
    (∃ act, touches role ptr b act ∧ Located callKind (roundsActs role ptr moved rounds) act s) ↔
      (moved ≤ b ∧ b < moved + rounds.length * full) ∧ s = (b - moved) / full + shift role := by
  induction rounds generalizing moved s with
  | nil =>
      constructor
      · intro given
        obtain ⟨act,_,located⟩ := given
        exact absurd (located_mem located) (by simp [roundsActs])
      · intro given
        obtain ⟨range,_⟩ := given
        simp only [List.length_nil,Nat.zero_mul] at range
        omega
  | cons pieces rest ih =>
      have size := sizes pieces (by simp)
      have head := fun t => roundActs_touch role ptr moved b t pieces
      have tail := fun t => ih (fun list member => sizes list (List.mem_cons_of_mem _ member)) (moved + full) t
      have one : (kinds callKind (roundActs role ptr moved pieces)).length = 1 := by rw [roundActs_kinds]; rfl
      simp only [roundsActs,located_append,one,size] at head ⊢
      rw [List.length_cons,Nat.succ_mul]
      constructor
      · intro given
        obtain ⟨act,touch,here | ⟨t,later,rfl⟩⟩ := given
        · obtain ⟨range,rfl⟩ := (head s).mp ⟨act,touch,here⟩
          exact ⟨by omega,by rw [Nat.div_eq_of_lt (by omega),Nat.zero_add]⟩
        · obtain ⟨range,rfl⟩ := (tail t).mp ⟨act,touch,later⟩
          have next : b - moved = b - (moved + full) + full := by omega
          rw [next,Nat.add_div_right _ nonzero]
          exact ⟨by omega,by omega⟩
      · intro given
        obtain ⟨range,rfl⟩ := given
        by_cases first : b < moved + full
        · obtain ⟨act,touch,here⟩ := (head (shift role)).mpr ⟨⟨range.1,first⟩,rfl⟩
          refine ⟨act,touch,.inl ?_⟩
          rwa [Nat.div_eq_of_lt (by omega),Nat.zero_add]
        · obtain ⟨act,touch,later⟩ := (tail _).mpr ⟨by omega,rfl⟩
          refine ⟨act,touch,.inr ⟨_,later,?_⟩⟩
          have next : b - moved = b - (moved + full) + full := by omega
          rw [next,Nat.add_div_right _ nonzero]
          omega

theorem iterationActs_kinds (role : Role) (full ptr : Nat) (liov : List IoVec) :
    kinds callKind (iterationActs role full ptr liov) = List.replicate (total liov / full) .bcast ++ [.gather] := by
  rw [iterationActs,kinds_append,roundsActs_kinds,chunks_length]
  rfl

theorem iterationActs_touch (nonzero : 0 < full) (divides : full ∣ total liov) (b s : Nat) :
    (∃ act, touches role ptr b act ∧ Located callKind (iterationActs role full ptr liov) act s) ↔
      b < total liov ∧ s = b / full + shift role := by
  have product := Nat.div_mul_cancel divides
  have rounds := @roundsActs_touch full role ptr nonzero (chunks full (total liov / full) liov)
    (chunks_total (Nat.le_of_eq product)) 0 b s
  rw [chunks_length,product,Nat.zero_add,Nat.sub_zero] at rounds
  simp only [Nat.zero_le,true_and] at rounds
  rw [← rounds]
  simp only [iterationActs,located_append,located_singleton]
  constructor
  · intro given
    obtain ⟨act,touch,here | ⟨_,⟨rfl,_⟩,_⟩⟩ := given
    · exact ⟨act,touch,here⟩
    · cases touch
  · intro given
    obtain ⟨act,touch,here⟩ := given
    exact ⟨act,touch,.inl here⟩

theorem programActs_kinds (role : Role) (iters full ptr lbuf bufsize : Nat) (liov : List IoVec) :
    kinds stampedKind (programActs role iters full ptr lbuf bufsize liov) =
      (List.range iters).flatMap (fun _ => List.replicate (total liov / full) .bcast ++ [.gather]) ++ [.barrier] := by
  have each : ∀ j : Nat, kinds stampedKind ((iterationActs role full ptr liov).map (Prod.mk (some j))) =
      List.replicate (total liov / full) .bcast ++ [.gather] := by
    intro j
    rw [← iterationActs_kinds role full ptr liov,kinds,kinds,List.filterMap_map]
    rfl
  have first : kinds stampedKind [(none,Act.memset lbuf (initByte role) bufsize)] = [] := rfl
  have last : kinds stampedKind [(none,Act.barrier)] = [.barrier] := rfl
  rw [programActs,← List.singleton_append,kinds_append,kinds_append,first,last,List.nil_append,kinds_flatMap]
  simp only [each]

theorem programActs_located (act : Act) (j s : Nat) :
    Located stampedKind (programActs role iters full ptr lbuf bufsize liov) (some j,act) s ↔
      j < iters ∧ ∃ t, Located callKind (iterationActs role full ptr liov) act t ∧ s = j * (total liov / full + 1) + t := by
  have each : ∀ i < iters, (kinds stampedKind ((iterationActs role full ptr liov).map (Prod.mk (some i)))).length =
      total liov / full + 1 := by
    intro i _
    have same : kinds stampedKind ((iterationActs role full ptr liov).map (Prod.mk (some i))) =
        kinds callKind (iterationActs role full ptr liov) := by
      rw [kinds,kinds,List.filterMap_map]
      rfl
    rw [same,iterationActs_kinds]
    simp
  rw [programActs,← List.singleton_append]
  simp only [located_append,located_singleton,located_flatMap each]
  have first : (kinds stampedKind [(none,Act.memset lbuf (initByte role) bufsize)]).length = 0 := rfl
  rw [first]
  constructor
  · intro given
    rcases given with ⟨stamp,_⟩ | ⟨t,⟨i,below,u,located,rfl⟩ | ⟨_,⟨stamp,_⟩,_⟩,rfl⟩
    · cases stamp
    · obtain ⟨other,same,here⟩ := (located_map _ _).mp located
      cases same
      exact ⟨below,u,here,by omega⟩
    · cases stamp
  · intro given
    obtain ⟨below,t,here,rfl⟩ := given
    exact .inr ⟨_,.inl ⟨j,below,t,(located_map _ _).mpr ⟨act,rfl,here⟩,rfl⟩,by omega⟩

-- The calls themselves, stamped with their iteration: the same for every rank.
def iterationCalls (rounds j : Nat) : List Stamped := List.replicate rounds (some j,.bcast .dummy 1) ++ [(some j,.gather)]
def schedule (iters rounds : Nat) : List Stamped := (List.range iters).flatMap (iterationCalls rounds) ++ [(none,.barrier)]

theorem roundsActs_calls (role : Role) (ptr moved : Nat) (rounds : List (List IoVec)) :
    calls callKind (roundsActs role ptr moved rounds) = List.replicate rounds.length (.bcast .dummy 1) := by
  induction rounds generalizing moved with
  | nil => rfl
  | cons pieces rest ih =>
      have quiet : calls callKind ((copies role ptr moved pieces).map ofCopy) = [] := by
        simpa [calls] using copies_local role ptr moved pieces
      rw [roundsActs,calls_append,ih,roundActs,calls_append,calls_append,quiet]
      cases role <;> rfl

theorem programActs_calls (role : Role) (iters full ptr lbuf bufsize : Nat) (liov : List IoVec) :
    calls stampedKind (programActs role iters full ptr lbuf bufsize liov) = schedule iters (total liov / full) := by
  have each : ∀ j : Nat, calls stampedKind ((iterationActs role full ptr liov).map (Prod.mk (some j))) =
      iterationCalls (total liov / full) j := by
    intro j
    have inner : calls callKind (iterationActs role full ptr liov) =
        List.replicate (total liov / full) (.bcast .dummy 1) ++ [.gather] := by
      rw [iterationActs,calls_append,roundsActs_calls,chunks_length]
      rfl
    have outer : calls stampedKind ((iterationActs role full ptr liov).map (Prod.mk (some j))) =
        (calls callKind (iterationActs role full ptr liov)).map (Prod.mk (some j)) := by
      simp only [calls,List.filter_map]
      rfl
    rw [outer,inner,List.map_append,List.map_replicate]
    rfl
  have first : calls stampedKind [(none,Act.memset lbuf (initByte role) bufsize)] = [] := rfl
  have last : calls stampedKind [(none,Act.barrier)] = [(none,.barrier)] := rfl
  rw [programActs,← List.singleton_append,calls_append,calls_append,first,last,List.nil_append,calls_flatMap,schedule]
  simp only [each]

-- The Bcasts of iteration `j` among the first calls, up to one of its own.
theorem schedule_count (below : j < iters) (inside : i ≤ rounds) :
    ((schedule iters rounds).take (j * (rounds+1) + i)).count (some j,.bcast .dummy 1) = i := by
  obtain ⟨rest,split,front⟩ := @flatMap_range_split _ (rounds+1) j iters (iterationCalls rounds)
    (by simp [iterationCalls]) below
  have earlier : ((List.range j).flatMap (iterationCalls rounds)).count (some j,.bcast .dummy 1) = 0 := by
    rw [List.count_eq_zero]
    intro member
    obtain ⟨k,low,present⟩ := List.mem_flatMap.mp member
    have low := List.mem_range.mp low
    rcases List.mem_append.mp present with repeated | last
    · have same := List.eq_of_mem_replicate repeated
      cases same
      omega
    · cases List.mem_singleton.mp last
  have here : (iterationCalls rounds j).take i = List.replicate i (some j,.bcast .dummy 1) := by
    rw [iterationCalls,List.take_append_of_le_length (by simpa using inside),List.take_replicate,Nat.min_eq_left inside]
  rw [schedule,split,← front,List.append_assoc,List.append_assoc,List.take_length_add_append,List.count_append,earlier,
    List.take_append_of_le_length (by simp [iterationCalls]; omega),here,List.count_replicate_self,Nat.zero_add]

end
end MpidtBench.PipelineProtocol
