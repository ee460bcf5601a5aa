import MpidtBench.Model.World

namespace MpidtBench
open Traced CInteger ScatterGather Collective

-- What one rank of a program with a single benchmark is given from outside; `received` is the
-- list that the RTS Bcasts leave on a receiver.
structure Node where
  lbuf : Nat
  pageSize : Nat
  limit : Int
  shmemPtr : Nat
  readv : Nat → Int → Int → Nat
  received : List IoVec
  driver : XpmemDriver
  apid : Nat

def freeBuffer (lbuf : Nat) : Run Fault Stamped Unit := if lbuf ≠ 0 then Run.emit (none,.free lbuf) else pure ()

-- What shmem_dt.c and shmem_pipeline_dt.c share behind the mapping of the region.
def regionProgram (role : Role) (iters lbuf bufsize : Nat) (iteration : Run Fault Act Unit) : Run Fault Stamped Unit := do
  (initBuffer role lbuf bufsize).label (Prod.mk none)
  Run.emit (none,.barrier)
  forRange iters (fun j _ => iteration.label (Prod.mk (some j))) ()
  Run.emit (none,.barrier)
  freeBuffer lbuf

def shmemDt (role : Role) (iters shmemPtr lbuf : Nat) (liov : List IoVec) (bufsize blocksize : Nat) : Run Fault Stamped Unit :=
  regionProgram role iters lbuf bufsize (shmemIteration role shmemPtr liov bufsize blocksize)

def shmemPipelineDt (role : Role) (iters full shmemPtr lbuf : Nat) (liov : List IoVec) (bufsize blocksize : Nat) :
    Run Fault Stamped Unit :=
  regionProgram role iters lbuf bufsize (pipIteration role full shmemPtr liov bufsize blocksize)

def cmaDtIteration (role : Role) (limit : Int) (readv : Int → Int → Nat) (liov riov : List IoVec) (nblocks bufsize : Nat) :
    Run Fault Act Unit := do
  Run.emit (.bcast .iov (iovecBytes nblocks))
  if role = .receiver then
    let s ← loop .unfinished (cmaDtStep limit nblocks readv liov riov) (cmaFuel nblocks) (CmaState.start bufsize)
    assert (s.totalCopied == bufsize)
  Run.emit .gather

-- cma_dt.c sets the buffer to 'x' on every rank, and frees it in front of the last Barrier.
def cmaDt (role : Role) (iters : Nat) (limit : Int) (readv : Nat → Int → Int → Nat) (liov riov : List IoVec)
    (lbuf bufsize nblocks : Nat) : Run Fault Stamped Unit := do
  Run.emit (none,.memset lbuf 120 bufsize)
  Run.emit (none,.bcast .rpid 4)
  Run.emit (none,.barrier)
  forRange iters (fun j _ => (cmaDtIteration role limit (readv j) liov riov nblocks bufsize).label (Prod.mk (some j))) ()
  freeBuffer lbuf
  Run.emit (none,.barrier)

-- xpmem_cache_dt.c starts attached_seglist with NULLs.
def XpmemState.empty (nblocks : Int) (apid : Nat) : XpmemState := ⟨0,.null,List.replicate nblocks.toNat .null,apid⟩

-- xpmem_cache_dt.c from the Bcast of the segment id on: the loop is that of
-- benchmark_xpmem_cached, and the Barrier stands behind the label.
def xpmemCacheDt (role : Role) (iters pageSize lbuf : Nat) (driver : XpmemDriver) (iov : Nat → List IoVec)
    (bufsize blocksize apid : Nat) : Run Fault Stamped Unit := do
  Run.emit (none,.bcast .segid 8)
  (initBuffer role lbuf bufsize).label (Prod.mk none)
  Run.emit (none,.barrier)
  cleanup (forRange iters (fun j s => (xpmemIteration role (useCache && j == 0) (!useCache || j+1 == iters) pageSize lbuf driver
    (iov j) (bufsize / blocksize : Nat) j s).label (Prod.mk (some j))) (XpmemState.empty (bufsize / blocksize : Nat) apid))
  Run.emit (none,.free lbuf)
  Run.emit (none,.barrier)

-- The main of shmem_dt.c, shmem_pipeline_dt.c, cma_dt.c, xpmem_dt.c and xpmem_cache_dt.c behind their sizes,
-- each named by the benchmark it runs.
def standaloneProgram (bench : Bench) (role : Role) (iters full : Nat) (node : Node) (blocksize bufsize nblocks : Nat) :
    Run Fault Stamped Unit :=
  let liov := initIov node.lbuf nblocks blocksize
  match bench with
  | .shmem => shmemDt role iters node.shmemPtr node.lbuf liov bufsize blocksize
  | .shmemPip => shmemPipelineDt role iters full node.shmemPtr node.lbuf liov bufsize blocksize
  | .cma => cmaDt role iters node.limit node.readv liov node.received node.lbuf bufsize nblocks
  | .xpmemNocache => xpmemDt role iters node.pageSize node.lbuf node.driver (fun _ => node.received) bufsize blocksize node.apid
  | .xpmemCached => xpmemCacheDt role iters node.pageSize node.lbuf node.driver (fun _ => node.received) bufsize blocksize node.apid

def standalone (bench : Bench) (role : Role) (iters full : Nat) (node : Node) (blocksizeArg bufsizeArg : Int) :
    Run Fault Stamped Unit := do
  let sizes ← (standaloneSizes blocksizeArg bufsizeArg).label (Prod.mk none)
  standaloneProgram bench role iters full node sizes.1 sizes.2.1 sizes.2.2

def standaloneSystem (bench : Bench) (sender : Fin size) (iters full : Nat) (blocksizeArg bufsizeArg : Int) (node : Fin size → Node) :
    System (Fin size) Stamped where
  root := sender
  kind := stampedKind
  acts rank := (standalone bench (roleOf sender rank) iters full (node rank) blocksizeArg bufsizeArg).acts

-- The region is mapped all the time.
def standaloneMapping (node : Node) : Bench → Option Nat
  | .shmem => some node.shmemPtr
  | .shmemPip => some node.shmemPtr
  | _ => none

def standaloneStep (bench : Bench) (sender : Fin size) (bufsize : Nat) (node : Fin size → Node) (r : Fin size) (event : Stamped)
    (w : World (Fin size)) : World (Fin size) :=
  w.step sender bufsize (standaloneMapping (node r) bench) r event.2

end MpidtBench
