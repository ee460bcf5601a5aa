import MpidtBench.Model.Actions

namespace MpidtBench
open CInteger ScatterGather ByteMemory

def slice (list : List IoVec) (first count : Int) : List IoVec := (list.drop first.toNat).take count.toNat

-- The bytes process_vm_readv moves: a prefix of the batch, none when it returned -1
-- (stored in the size_t bytes_copied).
def readvMoves (liov riov : List IoVec) (iovOff currBlks : Int) (bytes : Nat) : List (Nat × Nat) :=
  if bytes = sizeMod - 1 then []
  else ((addrs (slice liov iovOff currBlks)).zip (addrs (slice riov iovOff currBlks))).take bytes

-- What an action does to the memory `m` of the rank that issues it, `peer` being the
-- memory of the sender. An attachment shows the sender's pages from its offset on.
def effect (peer m : Memory) : Act → Memory
  | .memset ptr value len => fill m ptr value len
  | .memcpy dst src len => copyInto m dst m src len
  | .memcpySegment dst (.mapped segment) pgOff len => copyInto m dst peer (advance segment.offset pgOff) len
  | .processVmReadv liov riov iovOff currBlks bytes => transfer peer (readvMoves liov riov iovOff currBlks bytes) m
  | _ => m

def effects (peer : Memory) (acts : List Act) (m : Memory) : Memory := acts.foldl (effect peer) m

-- The list a Bcast of `count` bytes leaves: 16 bytes an entry.
def delivered (count : Int) (sent own : List IoVec) : List IoVec :=
  sent.take (count.toNat / 16) ++ own.drop (count.toNat / 16)

-- Whenever the sender has acted, its mapping of the region shows in the receiver's.
structure Memories where
  sender : Memory
  receiver : Memory

def exchange (sendPtr recvPtr bufsize : Nat) (sent got : List Act) (m : Memories) : Memories :=
  let sender := effects m.sender sent m.sender
  ⟨sender,effects sender got (copyInto m.receiver recvPtr sender sendPtr bufsize)⟩

@[simp] theorem effects_nil (peer m : Memory) : effects peer [] m = m := rfl
@[simp] theorem effects_cons (peer m : Memory) (act : Act) (rest : List Act) :
    effects peer (act :: rest) m = effects peer rest (effect peer m act) := rfl
@[simp] theorem effects_append (peer m : Memory) (first second : List Act) :
    effects peer (first ++ second) m = effects peer second (effects peer first m) := List.foldl_append

end MpidtBench
