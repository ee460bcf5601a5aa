import MpidtBench.Library.Session
import MpidtBench.Model.Actions
import MpidtBench.Model.Options

namespace MpidtBench
open Traced CInteger

-- osu_latency_contig.c, and LARGE_MESSAGE_SIZE of osu_util.h.
def maxNumElems : Nat := 524288
def largeMessageSize : Nat := 8192

structure Point where
  x : Int
  y : Int
  z : Int
  t : Int
deriving DecidableEq, Repr

-- `fill` is the loop over the elements of s_buf and r_buf; send and recv are in MPI_COMM_WORLD and of the
-- committed type. Every call of MPI returns MPI_SUCCESS.
inductive LatencyAct where
  | posixMemalign (size : Nat)
  | fill (elems : Nat) (sBuf rBuf : Point)
  | barrier
  | send (count : Int) (dest tag : Nat)
  | recv (count : Int) (source tag : Nat)
  | free
  | finalize
deriving DecidableEq, Repr

def LatencyAct.count : LatencyAct → Option Int
  | .send count _ _ => some count
  | .recv count _ _ => some count
  | _ => none

def pingPass (cnt : Int) : Run Fault LatencyAct Unit := do
  Run.emit (.send cnt 1 1)
  Run.emit (.recv cnt 1 1)

def pongPass (cnt : Int) : Run Fault LatencyAct Unit := do
  Run.emit (.recv cnt 0 1)
  Run.emit (.send cnt 0 1)

-- `for (i = 0; i < options.iterations + options.skip; i++)`: an int against a size_t.
def pairStep (pass : Run Fault LatencyAct Unit) (options : Options) (i : Int) : Run Fault LatencyAct (Int ⊕ Unit) :=
  if toSize i < addSize options.iterations options.skip then do
    pass
    pure (.inl (addInt i 1))
  else pure (.inr ())

-- No int is passed twice before the comparison fails.
def pairFuel : Nat := 4294967296

def pairs (pass : Run Fault LatencyAct Unit) (options : Options) : Run Fault LatencyAct Unit :=
  loop .unfinished (pairStep pass options) pairFuel 0

def pingPong (myid : Nat) (cnt : Int) (options : Options) : Run Fault LatencyAct Unit :=
  if myid = 0 then pairs (pingPass cnt) options
  else if myid = 1 then pairs (pongPass cnt) options
  else pure ()

-- What the assignments behind LARGE_MESSAGE_SIZE make of the options, for good.
def Options.large (options : Options) : Options := {options with iterations := options.iterationsLarge,skip := options.skipLarge}

structure LatencyState where
  cnt : Int
  options : Options
deriving DecidableEq, Repr

def LatencyState.start (options : Options) : LatencyState := ⟨toInt options.minMessageSize,options⟩

def nextCnt (cnt : Int) : Int := if cnt ≠ 0 then mulInt cnt 2 else 1

def latencyStep (myid extent : Nat) (s : LatencyState) : Run Fault LatencyAct (LatencyState ⊕ Unit) :=
  if s.cnt ≤ maxNumElems then do
    Run.emit (.fill maxNumElems ⟨1,2,3,4⟩ ⟨0,0,0,0⟩)
    let elems ← divide largeMessageSize extent
    let options := if (elems : Int) < s.cnt then s.options.large else s.options
    Run.emit .barrier
    pingPong myid s.cnt options
    pure (.inl ⟨nextCnt s.cnt,options⟩)
  else pure (.inr ())

-- Doubled 32 times, an int is 0, and 21 more steps lead past MAX_NUM_ELEMS.
def latencyFuel : Nat := 66

def latencySweep (myid extent : Nat) (options : Options) : Run Fault LatencyAct Unit :=
  loop .unfinished (latencyStep myid extent) latencyFuel (.start options)

def exitStatus : PoRet → Int
  | .cudaNotAvail => 1
  | .openaccNotAvail => 1
  | .badUsage => 1
  | .helpMessage => 0
  | .versionMessage => 0
  | .okay => 0

-- `sBuf` and `rBuf` say whether posix_memalign finds the memory.
def osuLatencyContig (myid numprocs extent : Nat) (sBuf rBuf : Bool) (opts : List Opt) : Run Fault LatencyAct Int :=
  match processOptions opts with
  | .error (poRet,_) => do
    Run.emit .finalize
    pure (exitStatus poRet)
  | .ok options =>
    if numprocs ≠ 2 then do
      Run.emit .finalize
      pure 1
    else do
      Run.emit (.posixMemalign (mulSize maxNumElems extent))
      if sBuf = false then pure 1
      else do
        Run.emit (.posixMemalign (mulSize maxNumElems extent))
        if rBuf = false then pure 1
        else do
          Run.emit .barrier
          latencySweep myid extent options
          Run.emit .free
          Run.emit .free
          Run.emit .finalize
          pure 0

structure Envelope where
  source : Nat
  dest : Nat
  tag : Nat
  count : Int
deriving DecidableEq, Repr

def comm (myid : Nat) : LatencyAct → Option (Session.Comm Envelope)
  | .send count dest tag => some (.send ⟨myid,dest,tag,count⟩)
  | .recv count source tag => some (.recv ⟨source,myid,tag,count⟩)
  | .barrier => some .meet
  | _ => none

def comms (myid extent : Nat) (opts : List Opt) : List (Session.Comm Envelope) :=
  (osuLatencyContig myid 2 extent true true opts).acts.filterMap (comm myid)

end MpidtBench
