import MpidtBench.Proofs.PlainCopy

namespace MpidtBench.PlainRoundTrip
open Traced CInteger ScatterGather ByteMemory MpidtBench PipelineLoops PlainCopy

def behind (peer m : Memory) (call : Run Fault Act Int) : Memory := effects peer call.acts m

section
variable {S R : List IoVec} {ptr blocksize bufsize : Nat}

theorem packs (count : S.length = bufsize / blocksize) (fits : total S ≤ bufsize) (small : bufsize ≤ intMax)
    (apart : Outside S ptr (total S)) (peer m : Memory) :
    behind peer m (copyToShmem ptr S blocksize bufsize) = transfer m (packMoves ptr (addrs S)) m := by
  have ran := copyShmem_run .sender ptr count fits small
  change effects peer (copyShmem (plainCopy .sender ptr) S blocksize bufsize).acts m = _
  rw [ran,effects_copies]
  exact packCopies_effect apart m

theorem unpacks (count : R.length = bufsize / blocksize) (fits : total R ≤ bufsize) (small : bufsize ≤ intMax)
    (apart : Outside R ptr (total R)) (peer m : Memory) :
    behind peer m (copyFromShmem ptr R blocksize bufsize) = transfer m (unpackMoves ptr (addrs R)) m := by
  have ran := copyShmem_run .receiver ptr count fits small
  change effects peer (copyShmem (plainCopy .receiver ptr) R blocksize bufsize).acts m = _
  rw [ran,effects_copies]
  exact unpackCopies_effect apart m

-- A byte of a block stands at one place of the region, whichever list the block is in.
theorem same_place {i k : Nat} {v w : IoVec} (same : S.map IoVec.iovLen = R.map IoVec.iovLen) (sent : S[i]? = some v) (received : R[i]? = some w)
    (inside : k < v.iovLen) : ∃ n < total S, (addrs S)[n]? = some (v.iovBase + k) ∧ (addrs R)[n]? = some (w.iovBase + k) := by
  have front : total (S.take i) = total (R.take i) := total_congr (by rw [List.map_take,List.map_take,same])
  have lens : v.iovLen = w.iovLen := by
    have both := congrArg (fun lens : List Nat => lens[i]?) same
    simpa [sent,received] using both
  have here := addrs_at sent inside
  have there := addrs_at received (lens ▸ inside)
  rw [← front] at there
  have early := (List.getElem?_eq_some_iff.mp here).1
  rw [addrs_length] at early
  exact ⟨_,early,here,there⟩

end

-- Packing S, unpacking into R and packing R again, from a memory `m`.
structure RoundTrip (S R : List IoVec) (ptr : Nat) (m packed unpacked repacked : Memory) : Prop where
  delivered : ∀ (i : Nat) (v w : IoVec) (k : Nat), S[i]? = some v → R[i]? = some w → k < v.iovLen →
    unpacked (w.iovBase + k) = m (v.iovBase + k)
  packFrame : ∀ a, a < ptr ∨ ptr + total S ≤ a → packed a = m a
  sourceKept : ∀ a ∈ addrs S, packed a = m a
  unpackFrame : ∀ a, a ∉ addrs R → unpacked a = packed a
  reproduced : ∀ k < total S, unpacked (ptr+k) = packed (ptr+k) ∧ repacked (ptr+k) = packed (ptr+k)

-- Any two lists of the same block sizes; S may overlap itself and R.
theorem pack_unpack_round_trip {S R : List IoVec} (same : S.map IoVec.iovLen = R.map IoVec.iovLen) {ptr blocksize bufsize : Nat}
    (_ : 0 < blocksize) (count : S.length = bufsize / blocksize) (fits : total S ≤ bufsize) (small : bufsize ≤ intMax)
    (distinct : DisjointBlocks R) (sendApart : Outside S ptr (total S)) (recvApart : Outside R ptr (total S)) (peer m : Memory) :
    (copyToShmem ptr S blocksize bufsize).out = .ok (total S : Int) ∧
    (copyFromShmem ptr R blocksize bufsize).out = .ok (total S : Int) ∧
    RoundTrip S R ptr m (behind peer m (copyToShmem ptr S blocksize bufsize))
      (behind peer (behind peer m (copyToShmem ptr S blocksize bufsize)) (copyFromShmem ptr R blocksize bufsize))
      (behind peer (behind peer (behind peer m (copyToShmem ptr S blocksize bufsize)) (copyFromShmem ptr R blocksize bufsize))
        (copyToShmem ptr R blocksize bufsize)) := by
  have totals := total_congr same
  have lengths : R.length = S.length := by simpa using (congrArg List.length same).symm
  have others := lengths.trans count
  rw [totals] at recvApart
  have received := totals ▸ fits
  refine ⟨congrArg Run.out (copyShmem_run .sender ptr count fits small),?_,?_⟩
  · rw [totals]
    exact congrArg Run.out (copyShmem_run .receiver ptr others received small)
  rw [packs count fits small sendApart,unpacks others received small recvApart,packs others received small recvApart]
  have packed : ∀ a, a < ptr ∨ ptr + total S ≤ a → transfer m (packMoves ptr (addrs S)) m a = m a := by
    intro a outside
    exact pack_outside m m (by rw [addrs_length]; exact outside)
  have region : ∀ k < total S, ptr + k ∉ addrs R := by
    intro k inside member
    have clear := recvApart _ member
    omega
  refine ⟨?_,packed,fun a member => packed a (sendApart a member),fun a outside => unpack_outside _ _ outside,?_⟩
  · intro i v w k sent listed inside
    obtain ⟨n,_,here,there⟩ := same_place same sent listed inside
    rw [unpack_inside _ _ distinct there,pack_inside m m here]
  · intro k inside
    have kept : transfer (transfer m (packMoves ptr (addrs S)) m) (unpackMoves ptr (addrs R))
        (transfer m (packMoves ptr (addrs S)) m) (ptr+k) = transfer m (packMoves ptr (addrs S)) m (ptr+k) :=
      unpack_outside _ _ (region k inside)
    have place : k < (addrs R).length := by rw [addrs_length,← totals]; exact inside
    have known : (addrs R)[k]? = some (addrs R)[k] := List.getElem?_eq_getElem place
    refine ⟨kept,?_⟩
    rw [pack_inside _ _ known,unpack_inside _ _ distinct known]

-- Blocks of 3, 0 and 2 bytes, S overlapping itself and R.
theorem pack_unpack_round_trip_three_blocks :
    RoundTrip [⟨10,3⟩,⟨11,0⟩,⟨12,2⟩] [⟨13,3⟩,⟨0,0⟩,⟨8,2⟩] 64 UInt8.ofNat
      (behind UInt8.ofNat UInt8.ofNat (copyToShmem 64 [⟨10,3⟩,⟨11,0⟩,⟨12,2⟩] 2 6))
      (behind UInt8.ofNat (behind UInt8.ofNat UInt8.ofNat (copyToShmem 64 [⟨10,3⟩,⟨11,0⟩,⟨12,2⟩] 2 6))
        (copyFromShmem 64 [⟨13,3⟩,⟨0,0⟩,⟨8,2⟩] 2 6))
      (behind UInt8.ofNat (behind UInt8.ofNat (behind UInt8.ofNat UInt8.ofNat (copyToShmem 64 [⟨10,3⟩,⟨11,0⟩,⟨12,2⟩] 2 6))
        (copyFromShmem 64 [⟨13,3⟩,⟨0,0⟩,⟨8,2⟩] 2 6)) (copyToShmem 64 [⟨13,3⟩,⟨0,0⟩,⟨8,2⟩] 2 6)) := by
  have same : [⟨10,3⟩,⟨11,0⟩,⟨12,2⟩].map IoVec.iovLen = [⟨13,3⟩,⟨0,0⟩,⟨8,2⟩].map IoVec.iovLen := rfl
  exact (pack_unpack_round_trip same (by decide) (by decide) (by decide) (by decide) (by unfold DisjointBlocks; decide)
    (by unfold Outside; decide) (by unfold Outside; decide) UInt8.ofNat UInt8.ofNat).2.2

end MpidtBench.PlainRoundTrip
