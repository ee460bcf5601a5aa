import MpidtBench.Proofs.PipelineLoops

namespace MpidtBench.PipelineDomain
open Traced CInteger ScatterGather ByteMemory MpidtBench PipelineLoops

def cuts : List Act → List (List Nat)
  | [] => [[]]
  | .bcast _ _ :: rest => [] :: cuts rest
  | .memcpy _ _ len :: rest => match cuts rest with
    | [] => [[len]]
    | first :: others => (len :: first) :: others
  | _ :: rest => cuts rest

theorem cuts_copies (role : Role) (ptr moved : Nat) (pieces : List IoVec) (acts : List Act)
    (behind : cuts acts = first :: others) :
    cuts ((copies role ptr moved pieces).map ofCopy ++ acts) = (pieces.map IoVec.iovLen ++ first) :: others := by
  induction pieces generalizing moved with
  | nil => cases role <;> exact behind
  | cons v rest ih =>
      have tail := ih (moved + v.iovLen)
      cases role with
      | sender =>
          simp only [copies,packCopies,List.map_cons,List.cons_append,ofCopy,cuts] at tail ⊢
          rw [tail]
      | receiver =>
          simp only [copies,unpackCopies,List.map_cons,List.cons_append,ofCopy,cuts] at tail ⊢
          rw [tail]

theorem cuts_sender (ptr moved : Nat) (rounds : List (List IoVec)) (acts : List Act) :
    cuts (roundsActs .sender ptr moved rounds ++ acts) = rounds.map (·.map IoVec.iovLen) ++ cuts acts := by
  induction rounds generalizing moved with
  | nil => rfl
  | cons pieces rest ih =>
      simp only [roundsActs,roundActs,entry,exit,List.nil_append,List.append_assoc,List.cons_append]
      rw [cuts_copies .sender ptr moved pieces (.bcast .dummy 1 :: (roundsActs .sender ptr _ rest ++ acts)) rfl,ih]
      simp

theorem cuts_receiver (ptr moved : Nat) (rounds : List (List IoVec)) (acts : List Act) (behind : cuts acts = [] :: others) :
    cuts (roundsActs .receiver ptr moved rounds ++ acts) = [] :: rounds.map (·.map IoVec.iovLen) ++ others := by
  induction rounds generalizing moved with
  | nil => exact behind
  | cons pieces rest ih =>
      simp only [roundsActs,roundActs,entry,exit,List.append_nil,List.cons_append,List.nil_append,List.append_assoc,cuts]
      rw [cuts_copies .receiver ptr moved pieces _ (ih _)]
      simp

-- Wherever a round is over, its capacity is used up.
theorem outer_filled (visit : Visits (pipStep role copy full liov niov) (k+1) (PipState.start full) acts t)
    (outer : t.head = .outer) : t.capacity = 0 := by
  cases visit with
  | pass prior stepped =>
      rcases step_cases stepped with ⟨_,_,_,rfl⟩ | ⟨_,filled,_,rfl⟩ | ⟨inner,_,passed⟩
      · cases outer
      · exact filled
      · rw [pass_head passed,inner] at outer; cases outer

-- A complete run: full rounds only, the cursor at the end of the list.
structure Complete (full : Nat) (liov : List IoVec) (rounds : List (List Nat)) (s : PipState) : Prop where
  count : rounds.length = total liov / full
  sizes : ∀ lens ∈ rounds, lens.sum = full
  cursor : s.iovcnt = liov.length
  nread : s.nread = total liov

-- A run that is about to read `liov[niov]`: the full rounds, then a last one that used
-- up the list with capacity left.
structure Overrun (full : Nat) (liov : List IoVec) (rounds : List (List Nat)) (last : List Nat) (s : PipState) : Prop
    extends Complete full liov rounds s where
  part : last.sum = total liov % full
  inside : s.head = .inner
  capacity : s.capacity = full - total liov % full
  unused : 0 < s.capacity

def roundLens (full : Nat) (liov : List IoVec) : List (List Nat) := (chunks full (total liov / full) liov).map (·.map IoVec.iovLen)

def lastLens (full : Nat) (liov : List IoVec) : List Nat :=
  (drain full (leftAfter full (total liov / full) liov)).1.map IoVec.iovLen

-- What one side issues behind the full rounds, before the read past its list.
def lastOf (role : Role) (ptr full : Nat) (liov : List IoVec) : List Act :=
  entry role ++ (copies role ptr (total liov / full * full) (drain full (leftAfter full (total liov / full) liov)).1).map ofCopy

theorem roundLens_sums (full : Nat) (liov : List IoVec) : ∀ lens ∈ roundLens full liov, lens.sum = full := by
  intro lens member
  obtain ⟨pieces,taken,rfl⟩ := List.mem_map.mp member
  exact chunks_total (Nat.div_mul_le_self _ _) pieces taken

theorem roundLens_length (full : Nat) (liov : List IoVec) : (roundLens full liov).length = total liov / full := by
  rw [roundLens,List.length_map,chunks_length]

theorem ends_iff {liov : List IoVec} (positive : Positive liov) (small : total liov ≤ intMax) (nonzero : 0 < full)
    (sized : full < sizeMod) (role : Role) (ptr : Nat) :
    (∃ acts s, Ends (pipStep role (chunkCopy role ptr) full liov liov.length) (PipState.start full) acts s) ↔
      full ∣ total liov := by
  constructor
  · intro given
    obtain ⟨acts,s,ended⟩ := given
    apply Classical.byContradiction
    intro indivisible
    obtain ⟨k,t,visit,_,stopped,_⟩ := @loops_break role ptr full liov positive small sized nonzero indivisible
    exact ended.not_breaks ⟨k,_,t,_,visit,stopped,rfl⟩
  · intro divides
    obtain ⟨s,visit,stopped,_⟩ := @loops_end role ptr full liov positive small sized nonzero divides
    exact ⟨_,s,_,_,s,_,visit,stopped,rfl⟩

theorem complete_run {liov : List IoVec} (positive : Positive liov) (small : total liov ≤ intMax) (nonzero : 0 < full)
    (sized : full < sizeMod) (divides : full ∣ total liov) (role : Role) (ptr : Nat) :
    ∃ s, Ends (pipStep role (chunkCopy role ptr) full liov liov.length) (PipState.start full)
        (roundsActs role ptr 0 (chunks full (total liov / full) liov)) s ∧
      Complete full liov (roundLens full liov) s := by
  obtain ⟨s,visit,stopped,count,_,read,_⟩ := @loops_end role ptr full liov positive small sized nonzero divides
  exact ⟨s,⟨_,_,s,_,visit,stopped,by rw [List.append_nil]⟩,roundLens_length _ _,roundLens_sums _ _,count,read⟩

theorem overrun {liov : List IoVec} (positive : Positive liov) (small : total liov ≤ intMax) (nonzero : 0 < full)
    (sized : full < sizeMod) (indivisible : ¬ full ∣ total liov) (role : Role) (ptr : Nat) :
    ∃ k s, Visits (pipStep role (chunkCopy role ptr) full liov liov.length) k (PipState.start full)
        (roundsActs role ptr 0 (chunks full (total liov / full) liov) ++ lastOf role ptr full liov) s ∧
      pipStep role (chunkCopy role ptr) full liov liov.length s = ⟨[],.error (.outOfBounds liov.length)⟩ ∧
      Overrun full liov (roundLens full liov) (lastLens full liov) s := by
  obtain ⟨k,s,visit,last,stopped,inner,count,read,left,unused⟩ :=
    @loops_break role ptr full liov positive small sized nonzero indivisible
  exact ⟨k,s,visit,stopped,⟨roundLens_length _ _,roundLens_sums _ _,count,read⟩,last,inner,left,unused⟩

-- The sender's copies of a round end with a Bcast, the receiver's begin with one.
theorem cuts_sent (ptr full : Nat) (liov : List IoVec) (acts : List Act) :
    cuts (roundsActs .sender ptr 0 (chunks full (total liov / full) liov) ++ acts) = roundLens full liov ++ cuts acts := cuts_sender _ _ _ _

theorem cuts_received (ptr full : Nat) (liov : List IoVec) (behind : cuts acts = [] :: others) :
    cuts (roundsActs .receiver ptr 0 (chunks full (total liov / full) liov) ++ acts) =
      [] :: roundLens full liov ++ others := cuts_receiver _ _ _ _ behind

theorem cuts_last_sent (ptr full : Nat) (liov : List IoVec) : cuts (lastOf .sender ptr full liov) = [lastLens full liov] := by
  have single := cuts_copies .sender ptr (total liov / full * full) (drain full (leftAfter full (total liov / full) liov)).1 [] rfl
  rw [List.append_nil,List.append_nil] at single
  exact single

theorem cuts_last_received (ptr full : Nat) (liov : List IoVec) :
    cuts (lastOf .receiver ptr full liov) = [] :: [lastLens full liov] := by
  have single := cuts_copies .receiver ptr (total liov / full * full) (drain full (leftAfter full (total liov / full) liov)).1 [] rfl
  rw [List.append_nil,List.append_nil] at single
  exact congrArg (List.cons []) single

theorem positive_of_lens (positive : Positive first) (same : first.map IoVec.iovLen = second.map IoVec.iovLen) :
    Positive second := by
  intro w member
  have present : w.iovLen ∈ first.map IoVec.iovLen := by rw [same]; exact List.mem_map.mpr ⟨w,member,rfl⟩
  obtain ⟨v,other,equal⟩ := List.mem_map.mp present
  rw [← equal]
  exact positive v other

theorem leftAfter_lens (same : first.map IoVec.iovLen = second.map IoVec.iovLen) (room rounds : Nat) :
    (leftAfter room rounds first).map IoVec.iovLen = (leftAfter room rounds second).map IoVec.iovLen := by
  induction rounds generalizing first second with
  | zero => exact same
  | succ rounds ih => exact ih (drain_lens same room).2

theorem roundLens_congr (same : first.map IoVec.iovLen = second.map IoVec.iovLen) (full : Nat) :
    roundLens full first = roundLens full second := by
  rw [roundLens,roundLens,← total_congr same]
  exact chunks_lens same full _

theorem lastLens_congr (same : first.map IoVec.iovLen = second.map IoVec.iovLen) (full : Nat) :
    lastLens full first = lastLens full second := by
  rw [lastLens,lastLens,← total_congr same]
  exact (drain_lens (leftAfter_lens same full _) full).1

-- The two loops over lists of the same block sizes.
theorem pipelined_domain {S R : List IoVec} (positive : ∀ v ∈ S, 0 < v.iovLen)
    (same : S.map IoVec.iovLen = R.map IoVec.iovLen) (small : total S ≤ intMax) (full : Nat) (nonzero : 0 < full)
    (sized : full < sizeMod) (sendPtr recvPtr : Nat) :
    ((∃ acts s, Ends (senderStep sendPtr full S S.length) (PipState.start full) acts s) ↔ full ∣ total S) ∧
    ((∃ acts s, Ends (receiverStep recvPtr full R R.length) (PipState.start full) acts s) ↔ full ∣ total S) ∧
    (full ∣ total S → ∃ rounds sent received s r,
      Ends (senderStep sendPtr full S S.length) (PipState.start full) sent s ∧
      Ends (receiverStep recvPtr full R R.length) (PipState.start full) received r ∧
      sent = roundsActs .sender sendPtr 0 (chunks full (total S / full) S) ∧
      received = roundsActs .receiver recvPtr 0 (chunks full (total R / full) R) ∧
      cuts sent = rounds ++ [[]] ∧ cuts received = [] :: rounds ∧
      Complete full S rounds s ∧ Complete full R rounds r) ∧
    (∀ k acts t, t.head = .outer →
      Visits (senderStep sendPtr full S S.length) (k+1) (PipState.start full) acts t ∨
      Visits (receiverStep recvPtr full R R.length) (k+1) (PipState.start full) acts t → t.capacity = 0) ∧
    (¬ full ∣ total S → ∃ rounds last sent received s r j k,
      Visits (senderStep sendPtr full S S.length) j (PipState.start full) sent s ∧
      senderStep sendPtr full S S.length s = ⟨[],.error (.outOfBounds S.length)⟩ ∧
      Visits (receiverStep recvPtr full R R.length) k (PipState.start full) received r ∧
      receiverStep recvPtr full R R.length r = ⟨[],.error (.outOfBounds R.length)⟩ ∧
      sent = roundsActs .sender sendPtr 0 (chunks full (total S / full) S) ++ lastOf .sender sendPtr full S ∧
      received = roundsActs .receiver recvPtr 0 (chunks full (total R / full) R) ++ lastOf .receiver recvPtr full R ∧
      cuts sent = rounds ++ [last] ∧ cuts received = [] :: rounds ++ [last] ∧
      Overrun full S rounds last s ∧ Overrun full R rounds last r) := by
  have others := positive_of_lens positive same
  have totals := total_congr same
  have bound : total R ≤ intMax := totals ▸ small
  have rounds := roundLens_congr same full
  have last := lastLens_congr same full
  refine ⟨ends_iff positive small nonzero sized .sender sendPtr,?_,?_,?_,?_⟩
  · rw [totals]
    exact ends_iff others bound nonzero sized .receiver recvPtr
  · intro divides
    obtain ⟨s,sent,left⟩ := complete_run positive small nonzero sized divides .sender sendPtr
    obtain ⟨r,received,right⟩ := complete_run others bound nonzero sized (totals ▸ divides) .receiver recvPtr
    rw [← rounds] at right
    refine ⟨roundLens full S,_,_,s,r,sent,received,rfl,rfl,?_,?_,left,right⟩
    · simpa [cuts] using cuts_sent sendPtr full S []
    · simpa [rounds] using cuts_received recvPtr full R (rfl : cuts [] = [] :: [])
  · intro k acts t outer given
    rcases given with visit | visit
    · exact outer_filled visit outer
    · exact outer_filled visit outer
  · intro indivisible
    obtain ⟨j,s,sent,stopped,left⟩ := overrun positive small nonzero sized indivisible .sender sendPtr
    obtain ⟨k,r,received,halted,right⟩ := overrun others bound nonzero sized (totals ▸ indivisible) .receiver recvPtr
    rw [← rounds,← last] at right
    refine ⟨roundLens full S,lastLens full S,_,_,s,r,j,k,sent,stopped,received,halted,rfl,rfl,?_,?_,left,right⟩
    · rw [cuts_sent,cuts_last_sent]
    · rw [cuts_received recvPtr full R (cuts_last_received recvPtr full R),rounds,last]

-- Depth 4 does not divide 3 + 7 bytes: both loops read past the list with 2 bytes of room.
theorem pipelined_domain_ten_bytes :
    ∃ rounds last sent received s r j k,
      Visits (senderStep 64 4 [⟨0,3⟩,⟨8,7⟩] 2) j (PipState.start 4) sent s ∧
      senderStep 64 4 [⟨0,3⟩,⟨8,7⟩] 2 s = ⟨[],.error (.outOfBounds 2)⟩ ∧
      Visits (receiverStep 64 4 [⟨16,3⟩,⟨24,7⟩] 2) k (PipState.start 4) received r ∧
      receiverStep 64 4 [⟨16,3⟩,⟨24,7⟩] 2 r = ⟨[],.error (.outOfBounds 2)⟩ ∧
      sent = roundsActs .sender 64 0 (chunks 4 2 [⟨0,3⟩,⟨8,7⟩]) ++ lastOf .sender 64 4 [⟨0,3⟩,⟨8,7⟩] ∧
      received = roundsActs .receiver 64 0 (chunks 4 2 [⟨16,3⟩,⟨24,7⟩]) ++ lastOf .receiver 64 4 [⟨16,3⟩,⟨24,7⟩] ∧
      cuts sent = rounds ++ [last] ∧ cuts received = [] :: rounds ++ [last] ∧
      Overrun 4 [⟨0,3⟩,⟨8,7⟩] rounds last s ∧ Overrun 4 [⟨16,3⟩,⟨24,7⟩] rounds last r :=
  (@pipelined_domain [⟨0,3⟩,⟨8,7⟩] [⟨16,3⟩,⟨24,7⟩] (by decide) rfl (by decide) 4 (by decide) (by decide) 64 64).2.2.2.2
    (by decide)

end MpidtBench.PipelineDomain
