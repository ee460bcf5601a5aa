import MpidtBench.Proofs.PipelineDomain
import MpidtBench.Proofs.PlainCopy

namespace MpidtBench.PipelineRefinement
open Traced CInteger ScatterGather ByteMemory MpidtBench PipelineLoops PipelineDomain PlainCopy

section
variable {liov : List IoVec} {full : Nat}

-- The pieces of all rounds together name the bytes of the list, in order.
theorem rounds_addrs (positive : Positive liov) (divides : full ∣ total liov) :
    addrs (chunks full (total liov / full) liov).flatten = addrs liov := by
  have product := Nat.div_mul_cancel divides
  have nothing : leftAfter full (total liov / full) liov = [] := by
    rw [← total_zero_iff (leftAfter_positive positive _ _),leftAfter_total]
    omega
  have whole := chunks_addrs full (total liov / full) liov
  rw [nothing,addrs_nil,List.append_nil] at whole
  rw [← whole,addrs_flatten]

theorem rounds_total (positive : Positive liov) (divides : full ∣ total liov) :
    total (chunks full (total liov / full) liov).flatten = total liov := by
  rw [← addrs_length,rounds_addrs positive divides,addrs_length]

-- Chunked or not, the same bytes are moved.
theorem pipelined_pack (peer m : Memory) (positive : Positive liov) (divides : full ∣ total liov)
    (apart : Outside liov ptr (total liov)) :
    effects peer (roundsActs .sender ptr 0 (chunks full (total liov / full) liov)) m =
      transfer m (packMoves ptr (addrs liov)) m := by
  rw [effects_roundsActs]
  have pieces : Outside (chunks full (total liov / full) liov).flatten ptr
      (total (chunks full (total liov / full) liov).flatten) := by
    rw [rounds_total positive divides,Outside,rounds_addrs positive divides]; exact apart
  rw [copies,packCopies_effect pieces,rounds_addrs positive divides]

theorem pipelined_unpack (peer m : Memory) (positive : Positive liov) (divides : full ∣ total liov)
    (apart : Outside liov ptr (total liov)) :
    effects peer (roundsActs .receiver ptr 0 (chunks full (total liov / full) liov)) m =
      transfer m (unpackMoves ptr (addrs liov)) m := by
  rw [effects_roundsActs]
  have pieces : Outside (chunks full (total liov / full) liov).flatten ptr
      (total (chunks full (total liov / full) liov).flatten) := by
    rw [rounds_total positive divides,Outside,rounds_addrs positive divides]; exact apart
  rw [copies,unpackCopies_effect pieces,rounds_addrs positive divides]

theorem plain_pack (peer m : Memory) (small : total liov ≤ intMax) (apart : Outside liov ptr (total liov)) :
    effects peer (copyLoop (toShmem ptr) liov liov.length).acts m = transfer m (packMoves ptr (addrs liov)) m := by
  change effects peer (copyLoop (plainCopy .sender ptr) liov liov.length).acts m = _
  rw [copyLoop_run .sender ptr liov small,effects_copies]
  exact packCopies_effect apart m

theorem plain_unpack (peer m : Memory) (small : total liov ≤ intMax) (apart : Outside liov ptr (total liov)) :
    effects peer (copyLoop (fromShmem ptr) liov liov.length).acts m = transfer m (unpackMoves ptr (addrs liov)) m := by
  change effects peer (copyLoop (plainCopy .receiver ptr) liov liov.length).acts m = _
  rw [copyLoop_run .receiver ptr liov small,effects_copies]
  exact unpackCopies_effect apart m

end

-- Unpacking a region that holds the packed bytes of `S` gives every block of `R` the
-- contents of the block of `S` with the same index.
theorem unpacked_blocks {S R : List IoVec} {v w : IoVec} {i : Nat} (same : S.map IoVec.iovLen = R.map IoVec.iovLen) (distinct : DisjointBlocks R)
    {receiver sender : Memory} (region : ∀ k a, (addrs S)[k]? = some a → receiver (recvPtr+k) = sender a)
    (left : S[i]? = some v) (right : R[i]? = some w) (inside : k < v.iovLen) :
    transfer receiver (unpackMoves recvPtr (addrs R)) receiver (w.iovBase+k) = sender (v.iovBase+k) := by
  have lens : v.iovLen = w.iovLen := by
    have equal := congrArg (·[i]?) same
    simpa [left,right] using equal
  have before : total (S.take i) = total (R.take i) := by
    apply total_congr
    rw [List.map_take,List.map_take,same]
  rw [unpack_inside receiver receiver distinct (addrs_at right (lens ▸ inside)),← before]
  exact region _ _ (addrs_at left inside)

-- `sent` and `received` are the complete runs of the two loops.
theorem pipelined_refines_plain {S R : List IoVec} (nonempty : S ≠ []) (positive : ∀ v ∈ S, 0 < v.iovLen)
    (same : S.map IoVec.iovLen = R.map IoVec.iovLen) (small : total S ≤ intMax)
    (full : Nat) (nonzero : 0 < full) (divides : full ∣ total S) (distinct : DisjointBlocks R) (sendPtr recvPtr : Nat)
    (apartS : Outside S sendPtr (total S)) (apartR : Outside R recvPtr (total S)) (peer sender : Memory) :
    ∃ sent s received r,
      Ends (senderStep sendPtr full S S.length) (PipState.start full) sent s ∧
      Ends (receiverStep recvPtr full R R.length) (PipState.start full) received r ∧
      s.iovcnt = S.length ∧ s.nread = total S ∧ r.iovcnt = R.length ∧ r.nread = total S ∧
      (∀ k < total S, effects peer sent sender (sendPtr+k) =
        effects peer (copyLoop (toShmem sendPtr) S S.length).acts sender (sendPtr+k)) ∧
      (∀ k a, (addrs S)[k]? = some a → effects peer sent sender (sendPtr+k) = sender a) ∧
      (∀ a, a < sendPtr ∨ sendPtr + total S ≤ a → effects peer sent sender a = sender a) ∧
      ∀ receiver : Memory, (∀ k < total S, receiver (recvPtr+k) = effects peer sent sender (sendPtr+k)) →
        effects peer received receiver = effects peer (copyLoop (fromShmem recvPtr) R R.length).acts receiver ∧
        (∀ (i : Nat) (v w : IoVec), S[i]? = some v → R[i]? = some w →
          ∀ k < v.iovLen, effects peer received receiver (w.iovBase+k) = sender (v.iovBase+k)) ∧
        (∀ a ∉ addrs R, effects peer received receiver a = receiver a) := by
  have others := positive_of_lens positive same
  have totals := total_congr same
  have bound : total R ≤ intMax := totals ▸ small
  have bytes : 0 < total S := Nat.pos_of_ne_zero fun zero => nonempty ((total_zero_iff positive).mp zero)
  have sized : full < sizeMod := intMax_lt_sizeMod (Nat.le_trans (Nat.le_of_dvd bytes divides) small)
  have clear : Outside R recvPtr (total R) := totals ▸ apartR
  obtain ⟨s,sent,left⟩ := complete_run positive small nonzero sized divides .sender sendPtr
  obtain ⟨r,received,right⟩ := complete_run others bound nonzero sized (totals ▸ divides) .receiver recvPtr
  have packed := pipelined_pack peer sender positive divides apartS
  have region : ∀ k a, (addrs S)[k]? = some a →
      effects peer (roundsActs .sender sendPtr 0 (chunks full (total S / full) S)) sender (sendPtr+k) = sender a := by
    intro k a known
    rw [packed,pack_inside sender sender known]
  refine ⟨_,s,_,r,sent,received,left.cursor,left.nread,right.cursor,right.nread.trans totals.symm,?_,region,?_,?_⟩
  · intro k _
    rw [packed,plain_pack peer sender small apartS]
  · intro a outside
    rw [packed,pack_outside sender sender (by rw [addrs_length]; exact outside)]
  · intro receiver seen
    have unpacked := pipelined_unpack peer receiver others (totals ▸ divides) clear
    refine ⟨?_,?_,?_⟩
    · rw [unpacked,plain_unpack peer receiver bound clear]
    · intro i v w first second k inside
      rw [unpacked]
      refine unpacked_blocks same distinct (fun k a known => ?_) first second inside
      have within : k < total S := by rw [← addrs_length]; exact (List.getElem?_eq_some_iff.mp known).1
      rw [seen k within,region k a known]
    · intro a outside
      rw [unpacked,unpack_outside receiver receiver outside]

-- Blocks of 3 and 5 bytes through chunks of 4, the second one of them.
theorem pipelined_refines_plain_eight_bytes : ∃ sent s received r,
    Ends (senderStep 64 4 [⟨0,3⟩,⟨8,5⟩] 2) (PipState.start 4) sent s ∧
    Ends (receiverStep 64 4 [⟨16,3⟩,⟨24,5⟩] 2) (PipState.start 4) received r ∧
    ∀ k < 5, effects UInt8.ofNat received (effects UInt8.ofNat sent UInt8.ofNat) (24+k) = UInt8.ofNat (8+k) := by
  have apart : ∀ S : List IoVec, (∀ a ∈ addrs S, a < 64) → Outside S 64 8 := fun S low a member => .inl (low a member)
  obtain ⟨sent,s,received,r,left,right,_,_,_,_,_,_,_,unpacked⟩ :=
    @pipelined_refines_plain [⟨0,3⟩,⟨8,5⟩] [⟨16,3⟩,⟨24,5⟩] (by decide) (by decide) rfl (by decide) 4 (by decide) (by decide)
      (show (addrs _).Nodup by decide) 64 64 (apart _ (by decide)) (apart _ (by decide)) UInt8.ofNat UInt8.ofNat
  refine ⟨sent,s,received,r,left,right,?_⟩
  exact (unpacked _ fun _ _ => rfl).2.1 1 _ _ rfl rfl

end MpidtBench.PipelineRefinement
