import MpidtBench.Library.Phases
import MpidtBench.Model.Shmem
import MpidtBench.Model.Pipeline

namespace MpidtBench
open Collective

def callKind : Act → Option Kind
  | .bcast _ _ => some .bcast
  | .gather => some .gather
  | .barrier => some .barrier
  | _ => none

def stampedKind (event : Stamped) : Option Kind := callKind event.2

def roleOf (sender rank : Fin size) : Role := if rank = sender then .sender else .receiver

theorem root_role (sender : Fin size) : roleOf sender sender = .sender := if_pos rfl
theorem other_role {rank : Fin size} (apart : rank ≠ sender) : roleOf sender rank = .receiver := if_neg apart

def pipSystem (sender : Fin size) (iters full bufsize blocksize : Nat) (lbuf shmemPtr : Fin size → Nat) :
    System (Fin size) Stamped where
  root := sender
  kind := stampedKind
  acts rank := (benchmarkShmemPip (roleOf sender rank) iters full (shmemPtr rank) (lbuf rank)
    (initIov (lbuf rank) (bufsize / blocksize) blocksize) bufsize blocksize).acts

end MpidtBench
