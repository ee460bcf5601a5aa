import MpidtBench.Library.Traced
import MpidtBench.Library.CInteger
import MpidtBench.Library.IoVec

namespace MpidtBench
open Traced CInteger ScatterGather

-- util.h. The loops below take the number of iterations as a parameter.
def numIter : Nat := 100
def skipIter : Nat := 10
def shmemPipelineDepth : Nat := 65536

inductive Role where
  | sender
  | receiver
deriving DecidableEq, Repr

inductive Message where
  | dummy
  | rpid
  | segid
  | iov
deriving DecidableEq, Repr

-- A range of the sender's address space that xpmem_attach mapped at `vaddr`.
structure Attachment where
  offset : Nat
  size : Nat
  vaddr : Nat
deriving DecidableEq, Repr

-- The pointers attached_seglist can hold: NULL, (void *)-1, the bytes memset put
-- there, or an address xpmem_attach returned.
inductive SegPtr where
  | null
  | failed
  | filler
  | mapped (segment : Attachment)
deriving DecidableEq, Repr

inductive Act where
  | memset (ptr : Nat) (value : UInt8) (len : Nat)
  | memcpy (dst src len : Nat)
  | bcast (what : Message) (count : Int)
  | gather
  | barrier
  | processVmReadv (liov riov : List IoVec) (iovOff currBlks : Int) (bytes : Nat)
  | xpmemGet (apid : Nat)
  | xpmemRelease (apid : Nat)
  | xpmemAttach (offset size : Nat) (result : SegPtr)
  | xpmemDetach (ptr : SegPtr)
  | memcpySegment (dst : Nat) (src : SegPtr) (pgOff : Int) (len : Nat)
  | free (ptr : Nat)
deriving DecidableEq, Repr

-- How a function can end other than by returning: an index outside a list, a failed
-- assert, a division that traps, or `goto cleanup` with the value apid has there.
-- `unfinished` is the model's own.
inductive Fault where
  | outOfBounds (index : Int)
  | assertion
  | divideByZero
  | cleanup (apid : Nat)
  | unfinished
deriving DecidableEq, Repr

-- With the iteration of the benchmark loop in which an action is issued.
abbrev Stamped := Option Nat × Act

def readAt (list : List τ) (index : Int) : Run Fault α τ :=
  if 0 ≤ index then
    match list[index.toNat]? with
    | some entry => pure entry
    | none => Run.fail (.outOfBounds index)
  else Run.fail (.outOfBounds index)

def assert (condition : Bool) : Run Fault α Unit := if condition then pure () else Run.fail .assertion

def divide (bufsize blocksize : Nat) : Run Fault α Nat :=
  if blocksize = 0 then Run.fail .divideByZero else pure (bufsize / blocksize)

def advance (ptr : Nat) (offset : Int) : Nat := ((ptr : Int) + offset).toNat

def iovecBytes (nblocks : Int) : Int := toInt (mulSize (toSize nblocks) 16)

-- main's `liov[i].iov_base = lbuf + i * blocksize; liov[i].iov_len = blocksize;`
def initIov (lbuf nblocks blocksize : Nat) : List IoVec :=
  (List.range nblocks).map fun i => ⟨lbuf + mulSize i blocksize,blocksize⟩

def initBuffer (role : Role) (lbuf bufsize : Nat) : Run Fault Act Unit :=
  match role with
  | .sender => Run.emit (.memset lbuf 120 bufsize)
  | .receiver => Run.emit (.memset lbuf 0 bufsize)

def initByte : Role → UInt8
  | .sender => 120
  | .receiver => 0

theorem initBuffer_run (role : Role) (lbuf bufsize : Nat) :
    initBuffer role lbuf bufsize = ⟨[.memset lbuf (initByte role) bufsize],.ok ()⟩ := by
  cases role <;> rfl

theorem readAt_some {list : List τ} {i : Nat} (known : list[i]? = some entry) :
    (readAt list (i : Int) : Run Fault α τ) = pure entry := by
  simp [readAt,known]

theorem readAt_end {list : List τ} {i : Nat} (outside : list.length ≤ i) :
    (readAt list (i : Int) : Run Fault α τ) = Run.fail (.outOfBounds i) := by
  simp [readAt,outside]

theorem divide_some (bytes : 0 < blocksize) (bufsize : Nat) : (divide bufsize blocksize : Run Fault α Nat) = pure (bufsize / blocksize) :=
  if_neg (Nat.ne_of_gt bytes)

theorem advance_nat (ptr offset : Nat) : advance ptr (offset : Int) = ptr + offset := by
  simp only [advance]; omega

theorem initIov_at (inside : i < nblocks) :
    (initIov lbuf nblocks blocksize)[i]? = some ⟨lbuf + mulSize i blocksize,blocksize⟩ := by
  simp [initIov,inside]

@[simp] theorem initIov_length : (initIov lbuf nblocks blocksize).length = nblocks := by simp [initIov]

theorem initIov_total (lbuf nblocks blocksize : Nat) : total (initIov lbuf nblocks blocksize) = nblocks * blocksize := by
  simp [initIov,total,Function.comp_def]

theorem initIov_positive (nonzero : 0 < blocksize) : ∀ v ∈ initIov lbuf nblocks blocksize, 0 < v.iovLen := by
  intro v member
  obtain ⟨i,_,rfl⟩ := List.mem_map.mp member
  exact nonzero

theorem nblocks_exact (bufsize blocksize : Nat) (small : bufsize ≤ intMax) :
    toInt (bufsize / blocksize) = ((bufsize / blocksize : Nat) : Int) :=
  toInt_exact (Nat.le_trans (Nat.div_le_self _ _) small)

end MpidtBench
