import MpidtBench.Library.Datatype
import MpidtBench.Library.Exchange
import MpidtBench.Model.Latency

namespace MpidtBench
open ByteMemory Stored Datatype

-- osu_latency_contig.c: ptype is MPI_Type_contiguous(4, MPI_SHORT), over an array of `struct point`.
def pointType : TypeMap := contiguous 4 (basic 2)

def putPoint (ptr : Nat) (p : Point) (m : Memory) : Memory :=
  put (put (put (put m ptr (toBytes 2 p.x)) (ptr+2) (toBytes 2 p.y)) (ptr+4) (toBytes 2 p.z)) (ptr+6) (toBytes 2 p.t)

def pointAt (m : Memory) (ptr : Nat) : Point :=
  ⟨integer (peek m ptr 2),integer (peek m (ptr+2) 2),integer (peek m (ptr+4) 2),integer (peek m (ptr+6) 2)⟩

structure PointBuffers where
  sBuf : Nat
  rBuf : Nat

def fillStep (buffers : PointBuffers) (sent received : Point) (m : Memory) (j : Nat) : Memory :=
  putPoint (buffers.rBuf + 8 * j) received (putPoint (buffers.sBuf + 8 * j) sent m)

def fillPoints (buffers : PointBuffers) (elems : Nat) (sent received : Point) (m : Memory) : Memory :=
  (List.range elems).foldl (fillStep buffers sent received) m

def latencyConduct (myid : Nat) (buffers : PointBuffers) : Session.Conduct LatencyAct Envelope (List UInt8) Memory where
  comm := comm myid
  load
    | .send count _ _,m => gather m (elements buffers.sBuf count.toNat pointType)
    | _,_ => []
  store
    | .recv count _ _,payload,m => scatter (elements buffers.rBuf count.toNat pointType) payload m
    | _,_,m => m
  effect
    | .fill elems sent received,m => fillPoints buffers elems sent received m
    | _,m => m

-- The check behind VALIDATE, which rank 1 makes at the end of each count: its `err`.
def validateErrors (buffers : PointBuffers) (cnt : Int) (m : Memory) : Nat :=
  (List.range cnt.toNat).foldl (fun err j => if pointAt m (buffers.rBuf + 8 * j) = ⟨1,2,3,4⟩ then err else err + 1) 0

def latencyScene (opts : List Opt) (m w : Memory) : Session.Scene LatencyAct Envelope (List UInt8) Memory :=
  .opening (osuLatencyContig 0 2 pointType.extent true true opts).acts (osuLatencyContig 1 2 pointType.extent true true opts).acts m w

end MpidtBench
