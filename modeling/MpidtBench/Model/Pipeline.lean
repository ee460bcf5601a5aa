import MpidtBench.Model.Actions

namespace MpidtBench
open Traced CInteger ScatterGather

-- Where the nested loops of benchmark_shmem_pip stand: at the head of the outer
-- `while (iovcnt < niov)` or at the head of the inner `while (capacity > 0)`.
inductive PipHead where
  | outer
  | inner
deriving DecidableEq, Repr

structure PipState where
  head : PipHead
  iovcnt : Int
  iovOff : Int
  shmOff : Int
  capacity : Nat
  nread : Nat
deriving DecidableEq, Repr

def PipState.start (full : Nat) : PipState := ⟨.outer,0,0,0,full,0⟩

-- The body of the inner loop. `copy` is the memcpy, from block, offset in the block,
-- offset in the region and length.
def pipPass (copy : IoVec → Int → Int → Nat → Act) (liov : List IoVec) (s : PipState) : Run Fault Act PipState := do
  let v ← readAt liov s.iovcnt
  if subSize v.iovLen (toSize s.iovOff) ≤ s.capacity then
    let len := subSize v.iovLen (toSize s.iovOff)
    Run.emit (copy v s.iovOff s.shmOff len)
    pure {s with
      nread := addSize s.nread len
      shmOff := toInt (addSize (toSize s.shmOff) len)
      iovcnt := s.iovcnt+1
      capacity := subSize s.capacity len
      iovOff := 0}
  else
    let len := s.capacity
    Run.emit (copy v s.iovOff s.shmOff len)
    pure {s with
      nread := addSize s.nread len
      iovOff := toInt (addSize (toSize s.iovOff) len)
      shmOff := toInt (addSize (toSize s.shmOff) len)
      capacity := subSize s.capacity len}

-- The two nested loops, one test of either head at a time. The receiver waits for the
-- Bcast before it fills a chunk, the sender issues it after.
def pipStep (role : Role) (copy : IoVec → Int → Int → Nat → Act) (full : Nat) (liov : List IoVec) (niov : Int)
    (s : PipState) : Run Fault Act (PipState ⊕ PipState) :=
  match s.head with
  | .outer =>
    if s.iovcnt < niov then do
      if role = .receiver then Run.emit (.bcast .dummy 1)
      pure (.inl {s with capacity := full,head := .inner})
    else pure (.inr s)
  | .inner =>
    if 0 < s.capacity then do
      let next ← pipPass copy liov s
      pure (.inl next)
    else do
      if role = .sender then Run.emit (.bcast .dummy 1)
      pure (.inl {s with head := .outer})

def toChunk (shmemPtr : Nat) (v : IoVec) (iovOff shmOff : Int) (len : Nat) : Act :=
  .memcpy (advance shmemPtr shmOff) (advance v.iovBase iovOff) len
def fromChunk (shmemPtr : Nat) (v : IoVec) (iovOff shmOff : Int) (len : Nat) : Act :=
  .memcpy (advance v.iovBase iovOff) (advance shmemPtr shmOff) len

def senderStep (shmemPtr : Nat) : Nat → List IoVec → Int → PipState → Run Fault Act (PipState ⊕ PipState) :=
  pipStep .sender (toChunk shmemPtr)
def receiverStep (shmemPtr : Nat) : Nat → List IoVec → Int → PipState → Run Fault Act (PipState ⊕ PipState) :=
  pipStep .receiver (fromChunk shmemPtr)

def roleStep : Role → Nat → Nat → List IoVec → Int → PipState → Run Fault Act (PipState ⊕ PipState)
  | .sender => senderStep
  | .receiver => receiverStep

-- More head tests than a complete run of the loops makes.
def pipFuel (full bufsize : Nat) (liov : List IoVec) : Nat := liov.length + 3 * (bufsize / full) + 4

def pipIteration (role : Role) (full shmemPtr : Nat) (liov : List IoVec) (bufsize blocksize : Nat) :
    Run Fault Act Unit := do
  let niov := toInt (bufsize / blocksize)
  let s ← loop .unfinished (roleStep role shmemPtr full liov niov) (pipFuel full bufsize liov) (PipState.start full)
  Run.emit .gather
  assert (s.iovcnt == niov)
  assert (s.nread == bufsize)

def benchmarkShmemPip (role : Role) (iters full shmemPtr lbuf : Nat) (liov : List IoVec) (bufsize blocksize : Nat) :
    Run Fault Stamped Unit := do
  (initBuffer role lbuf bufsize).label (Prod.mk none)
  forRange iters (fun j _ => (pipIteration role full shmemPtr liov bufsize blocksize).label (Prod.mk (some j))) ()
  Run.emit (none,.barrier)

end MpidtBench
