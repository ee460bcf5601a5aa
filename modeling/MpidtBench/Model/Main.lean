import MpidtBench.Model.Ranks
import MpidtBench.Model.Cma
import MpidtBench.Model.Xpmem

namespace MpidtBench
open Traced CInteger ScatterGather Collective

inductive Bench where
  | shmem
  | shmemPip
  | cma
  | xpmemNocache
  | xpmemCached
deriving DecidableEq, Repr

def order : List Bench := [.shmem,.shmemPip,.cma,.xpmemNocache,.xpmemCached]

-- What one rank is given from outside, by step of the sweep: `received` is the list that
-- the Bcasts of a benchmark leave on a receiver, `apid` what an xpmem_apid_t starts with.
structure Machine where
  lbuf : Nat
  pageSize : Nat
  limit : Int
  shmemPtr : Nat → Nat
  readv : Nat → Nat → Int → Int → Nat
  received : Nat → Bench → List IoVec
  driver : Nat → Bench → XpmemDriver
  apid : Nat → Bench → Nat

-- main's own calls carry no benchmark.
abbrev Event := Option (Nat × Bench) × Stamped

def eventKind (event : Event) : Option Kind := stampedKind event.2

def benchmark (role : Role) (iters full : Nat) (machine : Machine) (bufsize blocksize q : Nat) (liov : List IoVec) :
    Bench → Run Fault Stamped Unit
  | .shmem => benchmarkShmem role iters (machine.shmemPtr q) machine.lbuf liov bufsize blocksize
  | .shmemPip => benchmarkShmemPip role iters full (machine.shmemPtr q) machine.lbuf liov bufsize blocksize
  | .cma => benchmarkCma role iters machine.limit (machine.readv q) (fun _ => machine.received q .cma) liov machine.lbuf
      bufsize blocksize
  | .xpmemNocache => benchmarkXpmemNocache role iters machine.pageSize machine.lbuf (machine.driver q .xpmemNocache)
      (fun _ => machine.received q .xpmemNocache) bufsize blocksize (machine.apid q .xpmemNocache)
  | .xpmemCached => benchmarkXpmemCached role iters machine.pageSize machine.lbuf (machine.driver q .xpmemCached)
      (fun _ => machine.received q .xpmemCached) bufsize blocksize (machine.apid q .xpmemCached)

-- What a benchmark leaves in liov: the XPMEM ones receive the sender's list into it.
def iovAfter (role : Role) (iters : Nat) (machine : Machine) (q : Nat) (liov : List IoVec) : Bench → List IoVec
  | .xpmemNocache => received .xpmemNocache
  | .xpmemCached => received .xpmemCached
  | _ => liov
where
  received (bench : Bench) : List IoVec :=
    if role = .receiver ∧ 0 < iters ∧ 0 ≤ (machine.driver q bench).version then machine.received q bench else liov

def callBenchmarks (role : Role) (iters full : Nat) (machine : Machine) (bufsize blocksize q : Nat) :
    List Bench → List IoVec → Run Fault Event Unit
  | [],_ => pure ()
  | bench :: rest,liov => do
    (benchmark role iters full machine bufsize blocksize q liov bench).label (Prod.mk (some (q,bench)))
    Run.emit (none,none,.barrier)
    callBenchmarks role iters full machine bufsize blocksize q rest (iovAfter role iters machine q liov bench)

-- `while (blocksize <= max_bs)`, the state being the number of the step and blocksize. The
-- division stands in front of the assert that refuses 0.
def sweepBody (role : Role) (iters full : Nat) (machine : Machine) (bufsize maxBs : Nat) (s : Nat × Nat) :
    Run Fault Event ((Nat × Nat) ⊕ Unit) :=
  if s.2 ≤ maxBs then do
    let nblocks ← divide bufsize s.2
    assert (0 < s.2)
    callBenchmarks role iters full machine bufsize s.2 s.1 order (initIov machine.lbuf nblocks s.2)
    pure (.inl (s.1+1,mulSize s.2 2))
  else pure (.inr ())

-- A size_t is shifted out after 64 steps.
def sweepFuel : Nat := 66

-- main behind its three arguments, MPI_Init and the allocation of lbuf.
def mainProgram (role : Role) (iters full : Nat) (machine : Machine) (bufsize minBs maxBs : Nat) : Run Fault Event Unit := do
  assert (0 < bufsize)
  assert (minBs ≤ maxBs && maxBs ≤ bufsize && 0 < maxBs && 0 < minBs)
  Run.emit (none,none,.barrier)
  loop .unfinished (sweepBody role iters full machine bufsize maxBs) sweepFuel (0,minBs)
  if machine.lbuf ≠ 0 then Run.emit (none,none,.free machine.lbuf)

def mainOfArgs (role : Role) (iters full : Nat) (machine : Machine) (bufsize minBs maxBs : Int) : Run Fault Event Unit :=
  mainProgram role iters full machine (toSize bufsize) (toSize minBs) (toSize maxBs)

-- How shmem_dt, shmem_pipeline_dt, cma_dt, xpmem_dt and xpmem_cache_dt all start.
def standaloneSizes (blocksize bufsize : Int) : Run Fault Act (Nat × Nat × Nat) := do
  let nblocks ← divide (toSize bufsize) (toSize blocksize)
  assert (0 < toSize blocksize)
  assert (0 < toSize bufsize)
  pure (toSize blocksize,toSize bufsize,nblocks)

def during (q : Nat) (bench : Bench) (stamp : Option Nat) (acts : List Event) : List Act := acts.filterMap fun event =>
  if event.1 = some (q,bench) ∧ event.2.1 = stamp then some event.2.2 else none

def mainSystem (sender : Fin size) (iters full bufsize minBs maxBs : Nat) (machine : Fin size → Machine) :
    System (Fin size) Event where
  root := sender
  kind := eventKind
  acts rank := (mainProgram (roleOf sender rank) iters full (machine rank) bufsize minBs maxBs).acts

end MpidtBench
