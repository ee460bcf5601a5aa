import MpidtBench.Model.Actions

namespace MpidtBench
open Traced CInteger ScatterGather

structure CmaState where
  iovOff : Int
  remaining : Nat
  totalCopied : Nat
deriving DecidableEq, Repr

def CmaState.start (bufsize : Nat) : CmaState := ⟨0,bufsize,0⟩

-- `while (remaining > 0 && iov_off < nblocks)`; `readv` is what process_vm_readv returns
-- for a batch, as the size_t it is stored in. The int sum `iov_off + curr_blks` is left
-- unbounded: it passes INT_MAX only behind a batch that already left the list.
def cmaStep (more : Int → Bool) (currBlks : Int) (readv : Int → Int → Nat) (liov riov : List IoVec)
    (s : CmaState) : Run Fault Act (CmaState ⊕ CmaState) :=
  if 0 < s.remaining ∧ more s.iovOff then do
    let bytesCopied := readv s.iovOff currBlks
    Run.emit (.processVmReadv liov riov s.iovOff currBlks bytesCopied)
    pure (.inl ⟨s.iovOff + currBlks,subSize s.remaining bytesCopied,addSize s.totalCopied bytesCopied⟩)
  else pure (.inr s)

def longToInt (x : Int) : Int := Int.bmod x 4294967296

-- benchmark_cma, where nblocks is an int.
def benchStep (limit nblocks : Int) : (Int → Int → Nat) → List IoVec → List IoVec → CmaState → Run Fault Act (CmaState ⊕ CmaState) :=
  cmaStep (fun iovOff => iovOff < nblocks) (if nblocks < limit then nblocks else longToInt limit)

-- cma_dt.c, where nblocks is a size_t and both comparisons are unsigned.
def cmaDtStep (limit : Int) (nblocks : Nat) : (Int → Int → Nat) → List IoVec → List IoVec → CmaState → Run Fault Act (CmaState ⊕ CmaState) :=
  cmaStep (fun iovOff => toSize iovOff < nblocks) (if nblocks < toSize limit then toInt nblocks else longToInt limit)

def cmaFuel (nblocks : Int) : Nat := nblocks.toNat + 2

-- `riov` is the list the Bcast leaves on a receiver.
def cmaIteration (role : Role) (limit : Int) (readv : Int → Int → Nat) (liov riov : List IoVec) (nblocks : Int)
    (bufsize : Nat) : Run Fault Act Unit := do
  Run.emit (.bcast .iov (iovecBytes nblocks))
  if role = .receiver then
    let s ← loop .unfinished (benchStep limit nblocks readv liov riov) (cmaFuel nblocks) (CmaState.start bufsize)
    assert (s.totalCopied == bufsize)
  Run.emit .gather

def benchmarkCma (role : Role) (iters : Nat) (limit : Int) (readv : Nat → Int → Int → Nat) (riov : Nat → List IoVec)
    (liov : List IoVec) (lbuf bufsize blocksize : Nat) : Run Fault Stamped Unit := do
  let nblocks := toInt (bufsize / blocksize)
  Run.emit (none,.bcast .rpid 4)
  (initBuffer role lbuf bufsize).label (Prod.mk none)
  forRange iters (fun j _ => (cmaIteration role limit (readv j) liov (riov j) nblocks bufsize).label (Prod.mk (some j))) ()
  Run.emit (none,.barrier)

end MpidtBench
