import MpidtBench.Model.World

namespace MpidtBench
open Traced CInteger ScatterGather Collective

-- misc-tests: `const long bufsize`, and ITER+SKIP copies of every size.
def testBufsize : Nat := 33554432
def testPasses : Nat := 110

-- `for (size = 1; size <= bufsize; size<<=1)`, the state being the number of the size and the size.
def sizeStep (bufsize : Nat) (round : Nat → Nat → Run Fault Act Unit) (s : Nat × Nat) : Run Fault Stamped ((Nat × Nat) ⊕ Unit) :=
  if s.2 ≤ bufsize then do
    (round s.1 s.2).label (Prod.mk (some s.1))
    pure (.inl (s.1+1,mulSize s.2 2))
  else pure (.inr ())

def sizeSweep (bufsize : Nat) (round : Nat → Nat → Run Fault Act Unit) : Run Fault Stamped Unit :=
  loop .unfinished (sizeStep bufsize round) sweepFuel (0,1)

-- What one rank of test_cma.c is given from outside: the list of one that the Bcast of a size leaves,
-- and what process_vm_readv returns in the passes of a size, as the size_t it is stored in.
structure Tester where
  localBuf : Nat
  received : Nat → List IoVec
  nbytes : Nat → Nat → Nat

-- 0xFFFFFFFF, cut down to a byte by memset, on the sender.
def testByte : Role → UInt8
  | .sender => 255
  | .receiver => 0

def readOnce (liov riov : List IoVec) (size nbytes : Nat) : Run Fault Act Unit := do
  Run.emit (.processVmReadv liov riov 0 1 nbytes)
  assert (nbytes == size)

def cmaRound (role : Role) (passes : Nat) (tester : Tester) (j size : Nat) : Run Fault Act Unit := do
  Run.emit (.bcast .iov 16)
  if role = .receiver then
    forRange passes (fun i _ => readOnce [⟨tester.localBuf,size⟩] (tester.received j) size (tester.nbytes j i)) ()

-- test_cma.c, main behind MPI_Init and the allocation of local_buf.
def testCma (role : Role) (passes bufsize : Nat) (tester : Tester) : Run Fault Stamped Unit := do
  Run.emit (none,.memset tester.localBuf (testByte role) bufsize)
  Run.emit (none,.bcast .rpid 4)
  Run.emit (none,.barrier)
  sizeSweep bufsize (cmaRound role passes tester)
  Run.emit (none,.barrier)
  Run.emit (none,.free tester.localBuf)

-- test_memcpy.c, main behind the allocation of sbuf and rbuf, which it does not free.
def memcpyRound (passes sbuf rbuf _ size : Nat) : Run Fault Act Unit :=
  forRange passes (fun _ _ => Run.emit (.memcpy rbuf sbuf size)) ()

def testMemcpy (passes bufsize sbuf rbuf : Nat) : Run Fault Stamped Unit := do
  Run.emit (none,.memset sbuf 255 bufsize)
  Run.emit (none,.memset rbuf 0 bufsize)
  sizeSweep bufsize (memcpyRound passes sbuf rbuf)

def testSystem (sender : Fin size) (passes bufsize : Nat) (tester : Fin size → Tester) : System (Fin size) Stamped where
  root := sender
  kind := stampedKind
  acts rank := (testCma (roleOf sender rank) passes bufsize (tester rank)).acts

def testStep (sender : Fin size) (bufsize : Nat) (r : Fin size) (event : Stamped) (w : World (Fin size)) : World (Fin size) :=
  w.step sender bufsize none r event.2

end MpidtBench
