import MpidtBench.Model.Effects
import MpidtBench.Model.Shmem
import MpidtBench.Proofs.PipelineLoops

namespace MpidtBench.PlainCopy
open Traced CInteger ScatterGather ByteMemory MpidtBench PipelineLoops

def plainCopy : Role → Nat → IoVec → Int → Act
  | .sender => toShmem
  | .receiver => fromShmem

theorem plainCopy_piece (role : Role) (ptr moved : Nat) (v : IoVec) :
    [plainCopy role ptr v moved] = (copies role ptr moved [v]).map ofCopy := by
  cases role <;> simp [plainCopy,copies,toShmem,fromShmem,packCopies,unpackCopies,ofCopy,advance_nat]

theorem copyPass_run (role : Role) (ptr : Nat) {liov : List IoVec} (small : total liov ≤ intMax) (known : liov[i]? = some v) :
    copyPass (plainCopy role ptr) liov i ⟨(total (liov.take i) : Int),total (liov.take i)⟩ =
      ⟨(copies role ptr (total (liov.take i)) [v]).map ofCopy,
        .ok ⟨(total (liov.take (i+1)) : Int),total (liov.take (i+1))⟩⟩ := by
  have next := total_take_succ known
  have bound := total_take_le liov (i+1)
  have large := intMax_lt_sizeMod small
  rw [← plainCopy_piece]
  simp only [copyPass,readAt_some known,Run.pure_chain,Run.emit_chain,Run.pure_acts,Run.pure_out]
  rw [toInt_addSize (by omega),addSize_exact (by omega),← next]

-- The loop of copy_to_shmem and of copy_from_shmem behind `count` blocks.
theorem copy_upto (role : Role) (ptr : Nat) (liov : List IoVec) (small : total liov ≤ intMax) (count : Nat) (below : count ≤ liov.length) :
    forRange count (copyPass (plainCopy role ptr) liov) ⟨0,0⟩ =
      ⟨(copies role ptr 0 (liov.take count)).map ofCopy,.ok ⟨(total (liov.take count) : Int),total (liov.take count)⟩⟩ := by
  obtain ⟨last,ended,acts,rfl⟩ := @forRange_invariant Act CopyState Fault count ⟨0,0⟩
    (fun i acts s => acts = (copies role ptr 0 (liov.take i)).map ofCopy ∧
      s = ⟨(total (liov.take i) : Int),total (liov.take i)⟩)
    (copyPass (plainCopy role ptr) liov) (by
      intro i acts s inside given
      obtain ⟨rfl,rfl⟩ := given
      have known : liov[i]? = some liov[i] := List.getElem?_eq_getElem (by omega)
      rw [copyPass_run role ptr small known]
      refine ⟨_,rfl,?_,rfl⟩
      rw [List.take_add_one,known,Option.toList_some,copies_append,List.map_append,Nat.zero_add])
    (by cases role <;> exact ⟨rfl,rfl⟩)
  rw [← acts,← ended]

theorem copyLoop_run (role : Role) (ptr : Nat) (liov : List IoVec) (small : total liov ≤ intMax) :
    copyLoop (plainCopy role ptr) liov liov.length =
      ⟨(copies role ptr 0 liov).map ofCopy,.ok ⟨(total liov : Int),total liov⟩⟩ := by
  have whole := copy_upto role ptr liov small liov.length (Nat.le_refl _)
  rw [List.take_length] at whole
  rwa [copyLoop,Int.toNat_natCast]

-- The functions themselves, on a list that need not fill the buffer.
theorem copyShmem_run (role : Role) (ptr : Nat) {liov : List IoVec} {blocksize bufsize : Nat}
    (count : liov.length = bufsize / blocksize) (fits : total liov ≤ bufsize) (small : bufsize ≤ intMax) :
    copyShmem (plainCopy role ptr) liov blocksize bufsize = ⟨(copies role ptr 0 liov).map ofCopy,.ok (total liov : Int)⟩ := by
  have listed := Nat.le_trans fits small
  rw [copyShmem,nblocks_exact _ _ small,← count,copyLoop_run role ptr liov listed,Run.ok_chain,Run.pure_acts,List.append_nil,
    Run.pure_out,toInt_exact listed]

-- Only memcpy calls act on memory; the Bcasts in between do not.
theorem effects_copies (peer m : Memory) (list : List Copy) : effects peer (list.map ofCopy) m = copyAll list m := by
  induction list generalizing m with
  | nil => rfl
  | cons copy rest ih => exact ih _

theorem effects_roundsActs (peer m : Memory) (role : Role) (ptr moved : Nat) (rounds : List (List IoVec)) :
    effects peer (roundsActs role ptr moved rounds) m = copyAll (copies role ptr moved rounds.flatten) m := by
  induction rounds generalizing moved m with
  | nil => cases role <;> rfl
  | cons pieces rest ih =>
      simp only [roundsActs,roundActs,effects_append,effects_copies,List.flatten_cons,copies_append]
      rw [ih]
      cases role <;> simp [entry,exit,effect,copyAll]

end MpidtBench.PlainCopy
