import MpidtBench.Model.Actions

namespace MpidtBench
open Traced CInteger ScatterGather

structure CopyState where
  offset : Int
  sum : Nat

-- bench.c and shmem_dt.c, copy_to_shmem and copy_from_shmem: the two loops differ in
-- the direction of the memcpy only.
def copyPass (copy : IoVec → Int → Act) (liov : List IoVec) (i : Nat) (s : CopyState) : Run Fault Act CopyState := do
  let v ← readAt liov i
  Run.emit (copy v s.offset)
  pure ⟨toInt (addSize (toSize s.offset) v.iovLen),addSize s.sum v.iovLen⟩

def copyLoop (copy : IoVec → Int → Act) (liov : List IoVec) (nblocks : Int) : Run Fault Act CopyState :=
  forRange nblocks.toNat (copyPass copy liov) ⟨0,0⟩

def copyShmem (copy : IoVec → Int → Act) (liov : List IoVec) (blocksize bufsize : Nat) : Run Fault Act Int := do
  let s ← copyLoop copy liov (toInt (bufsize / blocksize))
  pure (toInt s.sum)

def toShmem (shmemPtr : Nat) (v : IoVec) (offset : Int) : Act := .memcpy (advance shmemPtr offset) v.iovBase v.iovLen
def fromShmem (shmemPtr : Nat) (v : IoVec) (offset : Int) : Act := .memcpy v.iovBase (advance shmemPtr offset) v.iovLen

def copyToShmem (shmemPtr : Nat) (liov : List IoVec) (blocksize bufsize : Nat) : Run Fault Act Int :=
  copyShmem (toShmem shmemPtr) liov blocksize bufsize
def copyFromShmem (shmemPtr : Nat) (liov : List IoVec) (blocksize bufsize : Nat) : Run Fault Act Int :=
  copyShmem (fromShmem shmemPtr) liov blocksize bufsize

-- One iteration of benchmark_shmem: RTS is the Bcast, FIN the Gather.
def shmemIteration (role : Role) (shmemPtr : Nat) (liov : List IoVec) (bufsize blocksize : Nat) : Run Fault Act Unit := do
  if role = .sender then
    let nread ← copyToShmem shmemPtr liov blocksize bufsize
    assert (toSize nread == bufsize)
  Run.emit (.bcast .dummy 1)
  if role ≠ .sender then
    let nread ← copyFromShmem shmemPtr liov blocksize bufsize
    assert (toSize nread == bufsize)
  Run.emit .gather

def benchmarkShmem (role : Role) (iters shmemPtr lbuf : Nat) (liov : List IoVec) (bufsize blocksize : Nat) :
    Run Fault Stamped Unit := do
  (initBuffer role lbuf bufsize).label (Prod.mk none)
  forRange iters (fun i _ => (shmemIteration role shmemPtr liov bufsize blocksize).label (Prod.mk (some i))) ()
  Run.emit (none,.barrier)

end MpidtBench
