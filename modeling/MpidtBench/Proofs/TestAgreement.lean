import MpidtBench.Proofs.SharedRounds
import MpidtBench.Proofs.TestProgress

namespace MpidtBench.TestAgreement
open Traced CInteger ScatterGather ByteMemory MpidtBench SweepRuns Delivery SharedDelivery SharedRounds TestProgress
open Collective hiding Place

def copied : Act → Option Nat
  | .processVmReadv _ _ _ _ bytes => some bytes
  | .memcpy _ _ len => some len
  | _ => none

def copies (acts : List Act) : List Nat := acts.filterMap copied

-- The sizes both tests go through, each of them `passes` times.
def copySizes (passes bufsize : Nat) : List Nat := (List.range (sizeCount bufsize)).flatMap fun j => List.replicate passes (2 ^ j)

-- A receiver whose reads are full, and to whom the Bcast of each size brings the sender's entry in place of
-- what stood in its own.
structure Briefed (passes bufsize : Nat) (root own : Tester) : Prop where
  full : Full passes bufsize own
  received : ∀ j, ∃ entry, own.received j = delivered 16 [⟨root.localBuf,2 ^ j⟩] [entry]

section
variable {passes bufsize j : Nat} {root own : Tester}

theorem briefed_received (briefed : Briefed passes bufsize root own) (j : Nat) : own.received j = [⟨root.localBuf,2 ^ j⟩] := by
  obtain ⟨_,same⟩ := briefed.received j
  rw [same]
  rfl

theorem copies_append (first second : List Act) : copies (first ++ second) = copies first ++ copies second := List.filterMap_append

theorem copies_blocks {blocks : Nat → List Act} {n : Nat} (each : ∀ j < n, copies (blocks j) = List.replicate passes (2 ^ j)) :
    copies ((stampBlocks n blocks).map Prod.snd) = (List.range n).flatMap fun j => List.replicate passes (2 ^ j) := by
  rw [copies,List.filterMap_map,stampBlocks,List.filterMap_flatMap]
  refine List.flatMap_congr fun j member => ?_
  rw [List.filterMap_map]
  exact each j (List.mem_range.mp member)

theorem copies_repeated {act : Act} (size : copied act = some len) : copies (List.replicate passes act) = List.replicate passes len := by
  induction passes with
  | zero => rfl
  | succ passes ih => rw [List.replicate_succ,List.replicate_succ,copies,List.filterMap_cons,size,← ih]; rfl

theorem receiver_copies (some_bytes : 0 < bufsize) (long : bufsize < 2 ^ 63) (full : Full passes bufsize own) :
    copies ((testCma .receiver passes bufsize own).acts.map Prod.snd) = copySizes passes bufsize := by
  have block : ∀ j < sizeCount bufsize, copies (testBlock .receiver passes own j) = List.replicate passes (2 ^ j) := by
    intro j _
    change copies (List.replicate passes (sizeRead own j)) = _
    exact copies_repeated rfl
  rw [testCma_run some_bytes long fun _ => full,List.map_append,List.map_append,copies_append,copies_append,copies_blocks block]
  exact List.append_nil _

theorem prefix_copies {done acts : List Act} (front : done <+: acts) : copies done = (copies acts).take (copies done).length :=
  List.prefix_iff_eq_take.mp (front.filterMap copied)

theorem copySizes_le (some_bytes : 0 < bufsize) (member : size ∈ copySizes passes bufsize) : size ≤ bufsize := by
  obtain ⟨j,listed,same⟩ := List.mem_flatMap.mp member
  rw [List.eq_of_mem_replicate same]
  exact (size_iff some_bytes).mpr (List.mem_range.mp listed)

theorem testMemcpy_run (some_bytes : 0 < bufsize) (long : bufsize < 2 ^ 63) (sbuf rbuf : Nat) : testMemcpy passes bufsize sbuf rbuf =
    ⟨(none,.memset sbuf 255 bufsize) :: (none,.memset rbuf 0 bufsize) ::
      stampBlocks (sizeCount bufsize) fun j => List.replicate passes (.memcpy rbuf sbuf (2 ^ j)),.ok ()⟩ := by
  have swept := @sweep_run bufsize (memcpyRound passes sbuf rbuf) (fun j => List.replicate passes (.memcpy rbuf sbuf (2 ^ j)))
    some_bytes long fun j _ => repeat_run fun _ _ => rfl
  rw [testMemcpy,swept]
  rfl

theorem testMemcpy_acts (some_bytes : 0 < bufsize) (long : bufsize < 2 ^ 63) (sbuf rbuf : Nat) :
    (testMemcpy passes bufsize sbuf rbuf).acts.map Prod.snd =
      .memset sbuf 255 bufsize :: .memset rbuf 0 bufsize :: (copySizes passes bufsize).map (.memcpy rbuf sbuf) := by
  rw [testMemcpy_run some_bytes long,List.map_cons,List.map_cons,stampBlocks,copySizes,List.map_flatMap,List.map_flatMap]
  refine congrArg (fun rest => Act.memset sbuf 255 bufsize :: Act.memset rbuf 0 bufsize :: rest) (List.flatMap_congr fun j _ => ?_)
  simp only [List.map_replicate]

-- Copies of any lengths, from a buffer that holds one value.
theorem memcpy_effects {sbuf rbuf : Nat} {value : UInt8} (apart : Apart sbuf rbuf bufsize) {lens : List Nat} (few : ∀ len ∈ lens, len ≤ bufsize)
    (peer m : Memory) (filled : ∀ i < bufsize, m (sbuf + i) = value) (inside : k < bufsize) :
    effects peer (lens.map (.memcpy rbuf sbuf)) m (rbuf + k) = if ∃ len ∈ lens, k < len then value else m (rbuf + k) := by
  induction lens generalizing m with
  | nil => simp
  | cons len rest ih =>
      have low := few len List.mem_cons_self
      have source : ∀ i < bufsize, copyInto m rbuf m sbuf len (sbuf + i) = value := by
        intro i below
        have outside : ¬ (rbuf ≤ sbuf + i ∧ sbuf + i < rbuf + len) := by
          rcases apart with before | behind <;> omega
        rw [copyInto,if_neg outside]
        exact filled i below
      have target : copyInto m rbuf m sbuf len (rbuf + k) = if k < len then value else m (rbuf + k) := by
        by_cases reached : k < len
        · rw [copyInto,if_pos (by omega),if_pos reached,show sbuf + (rbuf + k - rbuf) = sbuf + k by omega]
          exact filled k inside
        · rw [copyInto,if_neg (by omega),if_neg reached]
      have later := ih (fun other member => few other (List.mem_cons_of_mem _ member)) (copyInto m rbuf m sbuf len) source
      rw [List.map_cons,effects_cons]
      change effects peer _ (copyInto m rbuf m sbuf len) _ = _
      rw [later,target]
      by_cases again : ∃ other ∈ rest, k < other
      · obtain ⟨other,member,beyond⟩ := again
        rw [if_pos ⟨other,member,beyond⟩,if_pos ⟨other,List.mem_cons_of_mem _ member,beyond⟩]
      · rw [if_neg again]
        simp only [List.mem_cons,exists_eq_or_imp,again,or_false]

theorem memcpy_byte {sbuf rbuf : Nat} (some_bytes : 0 < bufsize) (long : bufsize < 2 ^ 63) (apart : Apart sbuf rbuf bufsize) (peer m : Memory)
    (n : Nat) (inside : k < bufsize) : effects peer (((testMemcpy passes bufsize sbuf rbuf).acts.take (2+n)).map Prod.snd) m (rbuf + k) =
      if ∃ len ∈ (copySizes passes bufsize).take n, k < len then 255 else 0 := by
  have few : ∀ len ∈ (copySizes passes bufsize).take n, len ≤ bufsize := fun len member => copySizes_le some_bytes (List.mem_of_mem_take member)
  have filled : ∀ i < bufsize, fill (fill m sbuf 255 bufsize) rbuf 0 bufsize (sbuf + i) = 255 := by
    intro i below
    have outside : ¬ (rbuf ≤ sbuf + i ∧ sbuf + i < rbuf + bufsize) := by
      rcases apart with before | behind <;> omega
    rw [fill,if_neg outside,fill_inside _ _ below]
  have copied := memcpy_effects apart few peer (fill (fill m sbuf 255 bufsize) rbuf 0 bufsize) filled inside
  rw [fill_inside _ _ inside] at copied
  rw [List.map_take,testMemcpy_acts some_bytes long,Nat.add_comm 2 n,List.take_succ_cons,List.take_succ_cons,← List.map_take,
    effects_cons,effects_cons]
  exact copied

end

section
variable {role : Role} {passes bufsize j k : Nat} {root own : Tester}

def testTail (role : Role) (passes bufsize : Nat) (tester : Tester) : List Stamped :=
  (none,.bcast .rpid 4) :: (none,.barrier) :: (stampBlocks (sizeCount bufsize) (testBlock role passes tester) ++ testBack tester)

theorem tail_run (some_bytes : 0 < bufsize) (long : bufsize < 2 ^ 63) (full : role = .receiver → Full passes bufsize own) :
    (testCma role passes bufsize own).acts = (none,.memset own.localBuf (testByte role) bufsize) :: testTail role passes bufsize own := by
  rw [testCma_run some_bytes long full]
  rfl

theorem tail_cases {event : Stamped} (member : event ∈ testTail role passes bufsize own) :
    Idle event.2 ∨ role = .receiver ∧ ∃ j < sizeCount bufsize, event.2 = sizeRead own j := by
  simp only [testTail,testBack,List.mem_cons,List.mem_append,List.not_mem_nil,or_false] at member
  rcases member with rfl | rfl | inside | rfl | rfl
  · exact .inl trivial
  · exact .inl trivial
  · obtain ⟨j,below,_,issued⟩ := stampBlocks_mem inside
    rcases List.mem_cons.mp issued with bcast | read
    · rw [bcast]
      exact .inl trivial
    · cases role with
      | sender => cases read
      | receiver => exact .inr ⟨rfl,j,below,List.eq_of_mem_replicate read⟩
  · exact .inl trivial
  · exact .inl trivial

theorem read_written (some_bytes : 0 < bufsize) (long : bufsize < 2 ^ 63) (briefed : Briefed passes bufsize root own)
    (below : j < sizeCount bufsize) : Written (sizeRead own j) (own.localBuf + k) ↔ k < 2 ^ j := by
  have small := Nat.lt_of_le_of_lt ((size_iff some_bytes).mpr below) long
  have moved : (readvMoves [⟨own.localBuf,2 ^ j⟩] (own.received j) 0 1 (2 ^ j)).map Prod.fst = List.range' own.localBuf (2 ^ j) := by
    have valid : 2 ^ j ≠ sizeMod - 1 := by
      unfold sizeMod
      omega
    have one : ∀ base, addrs (slice [⟨base,2 ^ j⟩] 0 1) = List.range' base (2 ^ j) := fun base => List.append_nil _
    rw [briefed_received briefed,readvMoves,if_neg valid,one,one,List.map_take,List.map_fst_zip (by simp),
      List.take_of_length_le (by simp)]
  change _ ∈ (readvMoves _ _ _ _ _).map Prod.fst ↔ _
  rw [moved,List.mem_range'_1]
  omega

theorem read_receives (some_bytes : 0 < bufsize) (briefed : Briefed passes bufsize root own) (below : j < sizeCount bufsize) :
    ReceiverAct own.localBuf root.localBuf bufsize none (sizeRead own j) := by
  have inside : ∀ base, ∀ v ∈ slice [⟨base,2 ^ j⟩] 0 1, Within v.iovBase v.iovLen base bufsize := by
    intro base v member
    rw [List.mem_singleton.mp (List.mem_of_mem_drop (List.mem_of_mem_take member))]
    have low := (size_iff some_bytes).mpr below
    exact fun i inner => ⟨Nat.le_add_right _ _,Nat.add_lt_add_left (Nat.lt_of_lt_of_le inner low) _⟩
  rw [sizeRead,briefed_received briefed]
  exact ⟨inside own.localBuf,inside root.localBuf⟩

end

theorem idle_writes {act : Act} (idle : Idle act) (a : Nat) : ¬ Written act a := by
  cases act with
  | bcast => exact id
  | barrier => exact id
  | xpmemRelease => exact id
  | free => exact id
  | _ => cases idle

theorem idle_copies {act : Act} (idle : Idle act) : copied act = none := by
  cases act with
  | memcpy => cases idle
  | processVmReadv => cases idle
  | _ => rfl

section
variable {size passes bufsize k : Nat} {sender r : Fin size} {tester : Fin size → Tester}

-- A receiver's reads stand behind a Bcast that the sender's memset stands in front of.
theorem test_supplied {root own : Tester} (some_bytes : 0 < bufsize) (long : bufsize < 2 ^ 63) (full : Full passes bufsize own) :
    Supplied stampedKind (fun event : Stamped => Demands none event.2) (fun event => Meets root.localBuf bufsize 255 none event.2) []
      (testCma .receiver passes bufsize own).acts (testCma .sender passes bufsize root).acts := by
  have nothing : ∀ event ∈ testFront .receiver bufsize own, ∀ cell, ¬ Demands none event.2 cell := by
    intro event member cell
    simp only [testFront,List.mem_cons,List.not_mem_nil,or_false] at member
    rcases member with rfl | rfl | rfl <;> exact id
  have last : ∀ event ∈ testBack own, ∀ cell, ¬ Demands none event.2 cell := by
    intro event member cell
    simp only [testBack,List.mem_cons,List.not_mem_nil,or_false] at member
    rcases member with rfl | rfl <;> exact id
  have blocks := @supplied_flatMap _ _ stampedKind (fun event : Stamped => Demands none event.2)
    (fun event => Meets root.localBuf bufsize 255 none event.2) (testFront .sender bufsize root) Nat (List.range (sizeCount bufsize))
    (fun j => (testBlock .receiver passes own j).map (Prod.mk (some j))) (fun j => (testBlock .sender passes root j).map (Prod.mk (some j))) (by
      intro j _
      have quiet : ∀ event ∈ (List.replicate passes (sizeRead own j)).map (Prod.mk (some j)), stampedKind event = none := by
        intro event member
        rw [List.map_replicate] at member
        rw [List.eq_of_mem_replicate member]
        rfl
      have met : ∀ event ∈ (List.replicate passes (sizeRead own j)).map (Prod.mk (some j)), ∀ cell, Demands none event.2 cell →
          Meets root.localBuf bufsize 255 none (.memset root.localBuf 255 bufsize) cell := by
        intro event member cell demand
        rw [List.map_replicate] at member
        rw [List.eq_of_mem_replicate member] at demand
        cases cell with
        | buffer => exact ⟨rfl,rfl,rfl⟩
        | region o => cases demand
      refine ⟨@supplied_window _ _ stampedKind _ _ (testFront .sender bufsize root) (some j,.bcast .iov 16) (none,.memset root.localBuf 255 bufsize)
        _ rfl (fun _ => id) quiet (by simp [testFront,testByte]) rfl met _,?_⟩
      rw [block_kinds,block_kinds])
  rw [testCma_run some_bytes long fun _ => full,testCma_run some_bytes long Role.noConfusion]
  exact supplied_append (supplied_none nothing) (supplied_append blocks.1 (supplied_none last) blocks.2) rfl

-- The sender and one receiver, whatever the other ranks' reads return.
theorem test_sharing (some_bytes : 0 < bufsize) (long : bufsize < 2 ^ 63) (apart : r ≠ sender)
    (briefed : Briefed passes bufsize (tester sender) (tester r)) :
    Sharing (testSystem sender passes bufsize tester) Prod.snd (fun _ _ => none) (fun q => q = sender ∨ q = r)
      (fun q => (tester q).localBuf) bufsize 255 := by
  have sent : (testSystem sender passes bufsize tester).acts sender = (testCma .sender passes bufsize (tester sender)).acts := by
    change (testCma (roleOf sender sender) passes bufsize (tester sender)).acts = _
    rw [root_role]
  have got : (testSystem sender passes bufsize tester).acts r = (testCma .receiver passes bufsize (tester r)).acts := by
    change (testCma (roleOf sender r) passes bufsize (tester r)).acts = _
    rw [other_role apart]
  refine ⟨fun _ => rfl,.inl rfl,fun _ _ _ _ => rfl,?_,fun _ _ _ _ _ nowhere => (by cases nowhere),?_,?_,?_,?_⟩
  · rintro q (rfl | rfl)
    · rfl
    · exact (test_uniform some_bytes long fun _ => briefed.full).trans (test_uniform some_bytes long fun other => absurd rfl other).symm
  · intro event member
    change event ∈ (testSystem sender passes bufsize tester).acts sender at member
    rw [sent,tail_run some_bytes long Role.noConfusion] at member
    rcases List.mem_cons.mp member with rfl | later
    · exact ⟨rfl,rfl,rfl⟩
    · rcases tail_cases later with idle | ⟨receives,_⟩
      · exact idle_sends idle _ _ _ _
      · cases receives
  · intro q other joined event member
    cases joined.resolve_left other
    rw [got,tail_run some_bytes long fun _ => briefed.full] at member
    rcases List.mem_cons.mp member with rfl | later
    · exact fun _ low => ⟨Nat.le_add_right _ _,Nat.add_lt_add_left low _⟩
    · rcases tail_cases later with idle | ⟨_,j,below,read⟩
      · exact idle_receives idle _ _ _ _
      · rw [read]
        exact read_receives some_bytes briefed below
  · refine collected_none ?_
    rintro event member ⟨dst,src,len,copy⟩
    change event ∈ (testSystem sender passes bufsize tester).acts sender at member
    rw [sent,tail_run some_bytes long Role.noConfusion] at member
    rcases List.mem_cons.mp member with rfl | later
    · cases copy
    · rcases tail_cases later with idle | ⟨receives,_⟩
      · rw [copy] at idle
        exact idle
      · cases receives
  · intro q other joined
    cases joined.resolve_left other
    rw [got]
    change Supplied stampedKind _ _ [] _ ((testSystem sender passes bufsize tester).acts sender)
    rw [sent]
    exact test_supplied some_bytes long briefed.full

-- The bytes written behind the memset are those below one of the sizes read.
theorem later_written {root own : Tester} (some_bytes : 0 < bufsize) (long : bufsize < 2 ^ 63) (briefed : Briefed passes bufsize root own)
    {later : List Stamped} (part : ∀ event ∈ later, event ∈ testTail .receiver passes bufsize own) :
    (∃ event ∈ later, Written event.2 (own.localBuf + k)) ↔ ∃ len ∈ copies (later.map Prod.snd), k < len := by
  constructor
  · rintro ⟨event,member,written⟩
    rcases tail_cases (part event member) with idle | ⟨_,j,below,read⟩
    · exact absurd written (idle_writes idle _)
    · rw [read] at written
      refine ⟨2 ^ j,List.mem_filterMap.mpr ⟨_,List.mem_map_of_mem member,?_⟩,(read_written some_bytes long briefed below).mp written⟩
      rw [read]
      rfl
  · rintro ⟨len,member,inside⟩
    obtain ⟨act,listed,size⟩ := List.mem_filterMap.mp member
    obtain ⟨event,known,rfl⟩ := List.mem_map.mp listed
    rcases tail_cases (part event known) with idle | ⟨_,j,below,read⟩
    · rw [idle_copies idle] at size
      cases size
    · rw [read] at size
      cases size
      exact ⟨event,known,by rw [read]; exact (read_written some_bytes long briefed below).mpr inside⟩

theorem tail_kept {own : Tester} {later : List Stamped} (part : ∀ event ∈ later, event ∈ testTail .receiver passes bufsize own) :
    ∀ event ∈ later, ¬ Wipes event.2 := by
  intro event member
  rcases tail_cases (part event member) with idle | ⟨_,j,_,read⟩
  · cases performed : event.2 with
    | memset => rw [performed] at idle; exact absurd idle id
    | _ => exact id
  · rw [read]
    exact id

-- In every order of steps a receiver's buffer holds what it has read so far, and zeros behind.
theorem test_byte (some_bytes : 0 < bufsize) (long : bufsize < 2 ^ 63) (apart : r ≠ sender)
    (briefed : Briefed passes bufsize (tester sender) (tester r)) {start w : World (Fin size)} {cfg : Config (Fin size)}
    (runs : Runs (testSystem sender passes bufsize tester) (testStep sender bufsize) start cfg w) (begun : 0 < (cfg r).done)
    (inside : k < bufsize) : w.memory r ((tester r).localBuf + k) =
      if ∃ len ∈ copies (((testSystem sender passes bufsize tester).finished cfg r).map Prod.snd), k < len then 255 else 0 := by
  have sharing := test_sharing some_bytes long apart briefed
  have acts : (testSystem sender passes bufsize tester).acts r =
      (none,.memset (tester r).localBuf 0 bufsize) :: testTail .receiver passes bufsize (tester r) := by
    change (testCma (roleOf sender r) passes bufsize (tester r)).acts = _
    rw [other_role apart]
    exact tail_run some_bytes long fun _ => briefed.full
  obtain ⟨d,place⟩ := Nat.exists_eq_add_of_lt begun
  rw [Nat.zero_add] at place
  have done : (testSystem sender passes bufsize tester).finished cfg r =
      (none,.memset (tester r).localBuf 0 bufsize) :: (testTail .receiver passes bufsize (tester r)).take d := by
    rw [System.finished,acts,place,List.take_succ_cons]
  have part : ∀ event ∈ (testTail .receiver passes bufsize (tester r)).take d, event ∈ testTail .receiver passes bufsize (tester r) :=
    fun event member => List.mem_of_mem_take member
  rw [done]
  change _ = if ∃ len ∈ copies (((testTail .receiver passes bufsize (tester r)).take d).map Prod.snd), k < len then 255 else 0
  split
  · rename_i read
    have written := (later_written some_bytes long briefed part).mpr read
    exact (runs_hold (holds_stable sharing) runs r).fetched apart (.inr rfl) [_] _ done (tail_kept part) k inside written
  · rename_i unread
    refine runs_hold (kept_stable sharing) runs r (.inr rfl) [] _ _ _ _ _ done rfl k inside (Nat.le_add_right _ _) (Nat.add_lt_add_left inside _) ?_
    exact fun event member written => unread ((later_written some_bytes long briefed part).mp ⟨event,member,written⟩)

-- A rank at its free has crossed both Barriers, and has no read left.
theorem free_copies {own : Tester} {d ptr : Nat} (some_bytes : 0 < bufsize) (long : bufsize < 2 ^ 63) (full : Full passes bufsize own)
    (here : (testCma .receiver passes bufsize own).acts[d]? = some (none,.free ptr)) :
    copies (((testCma .receiver passes bufsize own).acts.take d).map Prod.snd) = copySizes passes bufsize := by
  have acts := @tail_run .receiver passes bufsize own some_bytes long fun _ => full
  have early := @test_early .receiver bufsize passes own
  have late := @test_late .receiver bufsize passes own
  have whole := receiver_copies some_bytes long full
  generalize (testCma .receiver passes bufsize own).acts = all at acts early late whole here ⊢
  obtain ⟨bound,same⟩ := List.getElem?_eq_some_iff.mp here
  have crossed := late (all.take d) _ (all.drop (d+1)) (by rw [← same,← List.drop_eq_getElem_cons bound,List.take_append_drop]) ⟨ptr,rfl⟩
  have rest : copies ((all.drop d).map Prod.snd) = [] := by
    refine List.filterMap_eq_nil_iff.mpr fun act listed => ?_
    obtain ⟨event,member,rfl⟩ := List.mem_map.mp listed
    have issued := List.mem_of_mem_drop member
    rw [acts] at issued
    rcases List.mem_cons.mp issued with rfl | later
    · rfl
    · rcases tail_cases later with idle | ⟨_,j,_,read⟩
      · exact idle_copies idle
      · obtain ⟨before,after,split⟩ := List.append_of_mem member
        have few := early (all.take d ++ before) event after (by rw [List.append_assoc,← split,List.take_append_drop])
          ⟨_,_,_,_,_,read⟩
        rw [List.countP_append] at few
        omega
  rw [← List.take_append_drop d all,List.map_append,copies_append,rest,List.append_nil] at whole
  exact whole

end

-- test_cma.c against test_memcpy.c, in every order of steps and at every byte: when a receiver whose reads are all
-- full has made n of them, its buffer is what rbuf is after n copies, and when it frees its buffer all of it up to the
-- last size is 0xFF. The reads of the other receivers may be short.
theorem test_agrees {size : Nat} (sender r : Fin size) (passes bufsize sbuf rbuf : Nat) (tester : Fin size → Tester) (some_bytes : 0 < bufsize)
    (long : bufsize < 2 ^ 63) (apart : Apart sbuf rbuf bufsize) (other : r ≠ sender)
    (briefed : Briefed passes bufsize (tester sender) (tester r)) (start : World (Fin size)) (peer m : Memory) :
    ∀ cfg w, Runs (testSystem sender passes bufsize tester) (testStep sender bufsize) start cfg w → 0 < (cfg r).done → ∀ k < bufsize,
      w.memory r ((tester r).localBuf + k) = effects peer (((testMemcpy passes bufsize sbuf rbuf).acts.take
        (2 + (copies (((testSystem sender passes bufsize tester).finished cfg r).map Prod.snd)).length)).map Prod.snd) m (rbuf + k) ∧
      (∀ ptr, (testSystem sender passes bufsize tester).current cfg r = some (none,.free ptr) → 0 < passes → k < 2 ^ Nat.log 2 bufsize →
        w.memory r ((tester r).localBuf + k) = 255) := by
  intro cfg w runs begun k inside
  have full := briefed.full
  have acts : (testSystem sender passes bufsize tester).acts r = (testCma .receiver passes bufsize (tester r)).acts := by
    change (testCma (roleOf sender r) passes bufsize (tester r)).acts = _
    rw [other_role other]
  have byte := test_byte some_bytes long other briefed runs begun inside
  constructor
  · have front : ((testSystem sender passes bufsize tester).finished cfg r).map Prod.snd <+:
        (testCma .receiver passes bufsize (tester r)).acts.map Prod.snd := by
      rw [← acts]
      exact (List.take_prefix _ _).map Prod.snd
    rw [byte,memcpy_byte some_bytes long apart peer m _ inside,← receiver_copies some_bytes long full,← prefix_copies front]
  · intro ptr here some_passes low
    have all : copies (((testSystem sender passes bufsize tester).finished cfg r).map Prod.snd) = copySizes passes bufsize := by
      rw [System.current,acts] at here
      rw [System.finished,acts]
      exact free_copies some_bytes long full here
    have last : 2 ^ Nat.log 2 bufsize ∈ copySizes passes bufsize :=
      List.mem_flatMap.mpr ⟨_,List.mem_range.mpr (Nat.lt_succ_self _),List.mem_replicate.mpr ⟨Nat.ne_of_gt some_passes,rfl⟩⟩
    rw [byte,all,if_pos ⟨_,last,low⟩]

-- Three ranks, as the receiver with rank 1 frees its buffer of 3 bytes; and with a buffer of 5 bytes, where rank 2
-- has stopped at a short read and rank 1 has made all of its own.
theorem fullTester_briefed (passes bufsize rank : Nat) : Briefed passes bufsize (fullTester 0) (fullTester rank) :=
  ⟨fun _ _ _ _ => rfl,fun _ => ⟨⟨0,0⟩,rfl⟩⟩

theorem test_agrees_three_ranks :
    (∃ cfg w, Runs (testSystem (0 : Fin 3) 1 3 fun r => fullTester r) (testStep 0 3) ⟨fun _ _ => 7,fun _ => 7⟩ cfg w ∧
      ∀ k < 2, w.memory 1 (128 + k) = 255 ∧ w.memory 1 (128 + k) = effects (fun _ => 0) (((testMemcpy 1 3 64 96).acts.take
        (2 + (copies (((testSystem (0 : Fin 3) 1 3 fun r => fullTester r).finished cfg 1).map Prod.snd)).length)).map Prod.snd)
          (fun _ => 7) (96 + k)) ∧
    ∃ cfg w, Runs (testSystem (0 : Fin 3) 2 5 fun r => shortTester r) (testStep 0 5) ⟨fun _ _ => 7,fun _ => 7⟩ cfg w ∧
      (testSystem (0 : Fin 3) 2 5 fun r => shortTester r).current cfg 2 = none ∧ ∀ k < 4, w.memory 1 (128 + k) = 255 := by
  constructor
  · have moved : ((testSystem (0 : Fin 3) 1 3 fun r => fullTester r).moves (fun _ => ⟨0,false⟩)
        [0,0,0,0,1,1,1,1,2,2,2,2,0,1,2,0,0,0,0,0,1,1,1,1,1,1,1,2,2,2,2,2,2,2,1]).any (fun cfg =>
          decide ((testSystem (0 : Fin 3) 1 3 fun r => fullTester r).current cfg 1 = some (none,.free 128) ∧ 0 < (cfg 1).done)) = true := by
      decide +kernel
    obtain ⟨cfg,made,stands⟩ := (Option.any_eq_true _ _).mp moved
    obtain ⟨frees,begun⟩ := of_decide_eq_true stands
    obtain ⟨w,runs⟩ := reached_runs (testStep 0 3) ⟨fun _ _ => 7,fun _ => 7⟩ (System.moves_reached .start made)
    refine ⟨cfg,w,runs,fun k low => ?_⟩
    obtain ⟨agrees,whole⟩ := test_agrees (0 : Fin 3) 1 1 3 64 96 (fun r => fullTester r) (by decide) (by decide) (.inl (by decide))
      (by decide) (fullTester_briefed 1 3 1) ⟨fun _ _ => 7,fun _ => 7⟩ (fun _ => 0) (fun _ => 7) cfg w runs begun k (Nat.lt_succ_of_lt low)
    exact ⟨whole 128 frees (by decide) low,agrees⟩
  · have moved : ((testSystem (0 : Fin 3) 2 5 fun r => shortTester r).moves (fun _ => ⟨0,false⟩)
        [0,0,0,0,1,1,1,1,2,2,2,2,0,1,2,0,0,0,0,0,0,1,1,1,1,1,1,1,1,1,1,1,1,2,2,2,2,2,2,2,2,2,2,2,2]).any (fun cfg =>
          decide ((testSystem (0 : Fin 3) 2 5 fun r => shortTester r).current cfg 2 = none ∧ 0 < (cfg 1).done ∧
            (copies (((testSystem (0 : Fin 3) 2 5 fun r => shortTester r).finished cfg 1).map Prod.snd)).length = 6)) = true := by
      decide +kernel
    obtain ⟨cfg,made,stands⟩ := (Option.any_eq_true _ _).mp moved
    obtain ⟨stopped,begun,reads⟩ := of_decide_eq_true stands
    obtain ⟨w,runs⟩ := reached_runs (testStep 0 5) ⟨fun _ _ => 7,fun _ => 7⟩ (System.moves_reached .start made)
    refine ⟨cfg,w,runs,stopped,fun k low => ?_⟩
    have agrees := (test_agrees (0 : Fin 3) 1 2 5 64 96 (fun r => shortTester r) (by decide) (by decide) (.inl (by decide)) (by decide)
      (fullTester_briefed 2 5 1) ⟨fun _ _ => 7,fun _ => 7⟩ (fun _ => 0) (fun _ => 7) cfg w runs begun k (Nat.lt_succ_of_lt low)).1
    rw [reads] at agrees
    refine agrees.trans ?_
    have last : ∀ k < 4, effects (fun _ => 0) (((testMemcpy 2 5 64 96).acts.take (2 + 6)).map Prod.snd) (fun _ => 7) (96 + k) = 255 := by
      decide +kernel
    exact last k low

end MpidtBench.TestAgreement
