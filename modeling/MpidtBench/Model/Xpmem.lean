import MpidtBench.Model.Actions

namespace MpidtBench
open Traced CInteger ScatterGather

-- What the calls into XPMEM return: the driver's version, the apid of the xpmem_get of
-- an iteration, and for the xpmem_attach of an iteration and a block, asked for `size`
-- bytes from `offset` on, the address it maps them at. `none` is (void *)-1.
structure XpmemDriver where
  version : Int
  get : Nat → Nat
  attach : Nat → Nat → Nat → Nat → Option Nat

def attachResult (offset size : Nat) : Option Nat → SegPtr
  | some vaddr => .mapped ⟨offset,size,vaddr⟩
  | none => .failed

-- `(void *)((unsigned long)iov_base & ~PAGE_MASK)`
def pageBase (pageSize base : Nat) : Nat := base &&& (sizeMod - 1 - (pageSize - 1))

-- The locals that outlive an iteration, NULL being 0.
structure XpmemState where
  lastpagebaseAddr : Nat
  currAttachPtr : SegPtr
  attachedSeglist : List SegPtr
  apid : Nat
deriving DecidableEq, Repr

-- xpmem_apid_t apid is not initialised: `apid` is whatever it holds.
def XpmemState.start (nblocks : Int) (apid : Nat) : XpmemState := ⟨0,.null,List.replicate nblocks.toNat .filler,apid⟩

def writeAt (list : List τ) (index : Nat) (entry : τ) : Run Fault α (List τ) :=
  if index < list.length then pure (list.set index entry) else Run.fail (.outOfBounds index)

def attachPass (pageSize : Nat) (attach : Nat → Nat → Nat → Option Nat) (iov : List IoVec) (i : Nat) (s : XpmemState) :
    Run Fault Act XpmemState := do
  let v ← readAt iov i
  if v.iovLen < pageSize then
    let pagebaseAddr := pageBase pageSize v.iovBase
    if s.lastpagebaseAddr ≠ pagebaseAddr then
      let currAttachPtr := attachResult pagebaseAddr pageSize (attach i pagebaseAddr pageSize)
      Run.emit (.xpmemAttach pagebaseAddr pageSize currAttachPtr)
      if currAttachPtr = .failed then Run.fail (.cleanup s.apid)
      else
        let attachedSeglist ← writeAt s.attachedSeglist i currAttachPtr
        pure {s with lastpagebaseAddr := pagebaseAddr,currAttachPtr := currAttachPtr,attachedSeglist := attachedSeglist}
    else
      let attachedSeglist ← writeAt s.attachedSeglist i s.currAttachPtr
      pure {s with attachedSeglist := attachedSeglist}
  else
    let segment := attachResult v.iovBase v.iovLen (attach i v.iovBase v.iovLen)
    Run.emit (.xpmemAttach v.iovBase v.iovLen segment)
    let attachedSeglist ← writeAt s.attachedSeglist i segment
    pure {s with attachedSeglist := attachedSeglist}

def pgOff (pageSize : Nat) (v : IoVec) : Int :=
  if v.iovLen < pageSize then toInt (subSize v.iovBase (pageBase pageSize v.iovBase)) else 0

def segmentPass (pageSize lbuf : Nat) (iov : List IoVec) (attachedSeglist : List SegPtr) (i : Nat) (offset : Int) :
    Run Fault Act Int := do
  let v ← readAt iov i
  let segment ← readAt attachedSeglist i
  Run.emit (.memcpySegment (advance lbuf offset) segment (pgOff pageSize v) v.iovLen)
  pure (toInt (addSize (toSize offset) v.iovLen))

def detachPass (attachedSeglist : List SegPtr) (i : Nat) (_ : Unit) : Run Fault Act Unit := do
  let segment ← readAt attachedSeglist i
  if segment ≠ .null then Run.emit (.xpmemDetach segment)

-- The steps 2 to 4 of a receiver, the first and the last of which benchmark_xpmem_cached
-- does in some iterations only.
def attachSegments (attachNow : Bool) (pageSize : Nat) (driver : XpmemDriver) (iov : List IoVec) (nblocks : Int) (j : Nat)
    (s : XpmemState) : Run Fault Act XpmemState :=
  if attachNow then do
    Run.emit (.xpmemGet (driver.get j))
    forRange nblocks.toNat (attachPass pageSize (driver.attach j) iov) {s with apid := driver.get j}
  else pure s

def copySegments (pageSize lbuf : Nat) (iov : List IoVec) (nblocks : Int) (attachedSeglist : List SegPtr) : Run Fault Act Int :=
  forRange nblocks.toNat (segmentPass pageSize lbuf iov attachedSeglist) 0

def detachSegments (detachNow : Bool) (nblocks : Int) (attachedSeglist : List SegPtr) : Run Fault Act Unit :=
  if detachNow then forRange nblocks.toNat (detachPass attachedSeglist) () else pure ()

-- `iov` is the list the Bcast leaves on a receiver.
def xpmemIteration (role : Role) (attachNow detachNow : Bool) (pageSize lbuf : Nat) (driver : XpmemDriver)
    (iov : List IoVec) (nblocks : Int) (j : Nat) (s : XpmemState) : Run Fault Act XpmemState :=
  match role with
  | .sender => do
    Run.emit (.bcast .iov (iovecBytes nblocks))
    Run.emit .gather
    pure s
  | .receiver => do
    Run.emit (.bcast .iov (iovecBytes nblocks))
    let t ← attachSegments attachNow pageSize driver iov nblocks j s
    let _ ← copySegments pageSize lbuf iov nblocks t.attachedSeglist
    detachSegments detachNow nblocks t.attachedSeglist
    Run.emit .gather
    pure t

-- `cleanup: if (0 != apid) xpmem_release(apid);`, reached at the end or by goto.
def release (apid : Nat) : List Stamped := if apid ≠ 0 then [(none,.xpmemRelease apid)] else []
def cleanup (body : Run Fault Stamped XpmemState) : Run Fault Stamped Unit :=
  match body.out with
  | .ok s => ⟨body.acts ++ release s.apid,.ok ()⟩
  | .error (.cleanup apid) => ⟨body.acts ++ release apid,.ok ()⟩
  | .error error => ⟨body.acts,.error error⟩

def xpmemLoop (role : Role) (attachNow detachNow : Nat → Bool) (iters pageSize lbuf : Nat) (driver : XpmemDriver)
    (iov : Nat → List IoVec) (nblocks : Int) (apid : Nat) : Run Fault Stamped XpmemState :=
  forRange iters (fun j s => (xpmemIteration role (attachNow j) (detachNow j) pageSize lbuf driver (iov j) nblocks j s).label
    (Prod.mk (some j))) (XpmemState.start nblocks apid)

-- benchmark_xpmem_nocache and benchmark_xpmem_cached differ in when they attach and detach.
def benchmarkXpmem (role : Role) (attachNow detachNow : Nat → Bool) (iters pageSize lbuf : Nat) (driver : XpmemDriver)
    (iov : Nat → List IoVec) (bufsize blocksize apid : Nat) : Run Fault Stamped Unit :=
  let nblocks := toInt (bufsize / blocksize)
  if driver.version < 0 then pure () else
    cleanup (do
      (initBuffer role lbuf bufsize).label (Prod.mk none)
      Run.emit (none,.bcast .segid 8)
      let s ← xpmemLoop role attachNow detachNow iters pageSize lbuf driver iov nblocks apid
      Run.emit (none,.barrier)
      pure s)

def benchmarkXpmemNocache (role : Role) (iters : Nat) : Nat → Nat → XpmemDriver → (Nat → List IoVec) → Nat → Nat → Nat →
    Run Fault Stamped Unit :=
  benchmarkXpmem role (fun _ => true) (fun _ => true) iters

def useCache : Bool := true

def benchmarkXpmemCached (role : Role) (iters : Nat) : Nat → Nat → XpmemDriver → (Nat → List IoVec) → Nat → Nat → Nat →
    Run Fault Stamped Unit :=
  benchmarkXpmem role (fun j => useCache && j == 0) (fun j => !useCache || j+1 == iters) iters

-- xpmem_dt.c from the Bcast of the segment id on: the loop is that of
-- benchmark_xpmem_nocache, and the Barrier stands behind the label.
def xpmemDt (role : Role) (iters pageSize lbuf : Nat) (driver : XpmemDriver) (iov : Nat → List IoVec)
    (bufsize blocksize apid : Nat) : Run Fault Stamped Unit := do
  Run.emit (none,.bcast .segid 8)
  (initBuffer role lbuf bufsize).label (Prod.mk none)
  Run.emit (none,.barrier)
  cleanup (xpmemLoop role (fun _ => true) (fun _ => true) iters pageSize lbuf driver iov (bufsize / blocksize : Nat) apid)
  Run.emit (none,.free lbuf)
  Run.emit (none,.barrier)

end MpidtBench
