import MpidtBench.Model.LatencyData

namespace MpidtBench
open Traced ByteMemory Stored Datatype

-- type_tests. An assignment is given by the bytes of its value, every send and receive is in MPI_COMM_WORLD,
-- every call of MPI returns MPI_SUCCESS.
inductive TypeAct where
  | assign (ptr : Nat) (bytes : List UInt8)
  | barrier
  | send (buf count : Nat) (datatype : TypeMap) (dest tag : Nat)
  | recv (buf count : Nat) (datatype : TypeMap) (source tag : Nat)
  | validate (buf rows cols refcol : Nat) (val : Int)
  | finalize
deriving DecidableEq, Repr

structure TypeState where
  memory : Memory
  errors : List Nat

def intAt (m : Memory) (ptr : Nat) : Int := integer (peek m ptr 4)

def validate (buf rows cols refcol : Nat) (val : Int) (m : Memory) : Nat :=
  (List.range rows).foldl (fun err i => if intAt m (buf + 4 * (i * cols + refcol)) ≠ val then err + 1 else err) 0

-- vector_dt.c, with `x` the array of `rows` times `cols` int on its stack.
def vectorDt (rank x rows cols : Nat) : Run Fault TypeAct Unit := do
  forRange rows (fun i _ => forRange cols (fun j _ => Run.emit (.assign (x + 4 * (i * cols + j)) (toBytes 4 0))) ()) ()
  Run.emit .barrier
  if rank = 0 then do
    forRange rows (fun i _ => Run.emit (.assign (x + 4 * (i * cols + 2)) (toBytes 4 5))) ()
    Run.emit (.send (x + 4 * 2) 1 (vector rows 1 cols (basic 4)) 1 52)
  else if rank = 1 then do
    Run.emit (.recv (x + 4 * 3) 1 (vector rows 1 cols (basic 4)) 0 52)
    Run.emit (.validate x rows cols 3 5)
  Run.emit .finalize

-- contig_dt.c: `point` has four short, the type it is sent as four int.
def contigDt (rank point : Nat) : Run Fault TypeAct Unit := do
  if rank = 0 then do
    Run.emit (.assign point (toBytes 2 15))
    Run.emit (.assign (point+2) (toBytes 2 23))
    Run.emit (.assign (point+4) (toBytes 2 6))
    Run.emit (.assign (point+6) (toBytes 2 9))
    Run.emit (.send point 1 (contiguous 4 (basic 4)) 1 52)
  else if rank = 1 then Run.emit (.recv point 1 (contiguous 4 (basic 4)) 0 52)
  Run.emit .finalize

-- struct_dt.c: `a` is an int, a float and four double; `x` and `data` are the bytes of 3.14 and of (double) i.
def structType : TypeMap :=
  struct [(1,0,basic 4),(1,(basic 4).extent,basic 4),(4,(basic 4).extent + (basic 4).extent,basic 8)] 40

def structDt (rank a : Nat) (x : List UInt8) (data : Nat → List UInt8) : Run Fault TypeAct Unit := do
  if rank = 0 then do
    Run.emit (.assign a (toBytes 4 6))
    Run.emit (.assign (a+4) x)
    forRange 4 (fun i _ => Run.emit (.assign (a + 8 + 8 * i) (data i))) ()
    Run.emit (.send a 1 structType 1 52)
  else if rank = 1 then Run.emit (.recv a 1 structType 0 52)
  Run.emit .finalize

def typeComm (rank : Nat) : TypeAct → Option (Session.Comm Envelope)
  | .send _ count _ dest tag => some (.send ⟨rank,dest,tag,count⟩)
  | .recv _ count _ source tag => some (.recv ⟨source,rank,tag,count⟩)
  | .barrier => some .meet
  | _ => none

def typeLoad : TypeAct → TypeState → List UInt8
  | .send buf count datatype _ _,s => gather s.memory (elements buf count datatype)
  | _,_ => []

def typeStore : TypeAct → List UInt8 → TypeState → TypeState
  | .recv buf count datatype _ _,payload,s => {s with memory := scatter (elements buf count datatype) payload s.memory}
  | _,_,s => s

def typeEffect : TypeAct → TypeState → TypeState
  | .assign ptr bytes,s => {s with memory := put s.memory ptr bytes}
  | .validate buf rows cols refcol val,s => {s with errors := s.errors ++ [validate buf rows cols refcol val s.memory]}
  | _,s => s

def typeConduct (rank : Nat) : Session.Conduct TypeAct Envelope (List UInt8) TypeState :=
  ⟨typeComm rank,typeLoad,typeStore,typeEffect⟩

end MpidtBench
