import MpidtBench.Model.Main

namespace MpidtBench
open Traced

inductive RegionPtr where
  | null
  | failed
  | mapped (address : Nat)
deriving DecidableEq, Repr

-- How the three calls of init_shmem come out, as far as they are made: the descriptor or
-- -1, whether ftruncate succeeds, the address or MAP_FAILED.
structure Outcome where
  opened : Option Nat
  truncated : Bool
  mapping : Option Nat
deriving DecidableEq, Repr

def descriptor : Option Nat → Int
  | some fd => fd
  | none => -1
def mapResult : Option Nat → RegionPtr
  | some address => .mapped address
  | none => .failed

inductive Call where
  | open (fd : Int)
  | ftruncate (fd : Int) (bufsize : Nat) (truncated : Bool)
  | mmap (bufsize : Nat) (fd : Int) (result : RegionPtr)
  | munmap (ptr : RegionPtr) (bufsize : Nat)
  | close (fd : Int)
  | benchmark (bench : Bench) (shmemPtr : RegionPtr)
deriving DecidableEq, Repr

-- main's `fd` and `shmem_ptr`, which outlive a step of the sweep.
structure Region where
  fd : Int
  shmemPtr : RegionPtr
deriving DecidableEq, Repr

def Region.start : Region := ⟨-1,.null⟩

def initShmem (outcome : Outcome) (bufsize : Nat) (s : Region) : Run Fault Call (Region × Int) := do
  let fd := descriptor outcome.opened
  Run.emit (.open fd)
  if fd < 0 then pure ({s with fd := fd},-1)
  else do
    Run.emit (.ftruncate fd bufsize outcome.truncated)
    if outcome.truncated = false then pure ({s with fd := fd},-2)
    else do
      let shmemPtr := mapResult outcome.mapping
      Run.emit (.mmap bufsize fd shmemPtr)
      if shmemPtr = .failed then pure (⟨fd,shmemPtr⟩,-3)
      else pure (⟨fd,shmemPtr⟩,0)

def cleanupShmem (bufsize : Nat) (s : Region) : Run Fault Call Int := do
  Run.emit (.munmap s.shmemPtr bufsize)
  if s.fd ≠ -1 then Run.emit (.close s.fd)
  pure 0

-- main looks at neither result.
def regionStep (outcome : Outcome) (bufsize : Nat) (s : Region) : Run Fault Call Region := do
  let (next,_) ← initShmem outcome bufsize s
  Run.emit (.benchmark .shmem next.shmemPtr)
  Run.emit (.benchmark .shmemPip next.shmemPtr)
  let _ ← cleanupShmem bufsize next
  pure next

def regionSweep (outcomes : Nat → Outcome) (bufsize steps : Nat) : Run Fault (Nat × Call) Region :=
  forRange steps (fun q s => (regionStep (outcomes q) bufsize s).label (Prod.mk q)) Region.start

end MpidtBench
