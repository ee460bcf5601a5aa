import MpidtBench.Model.Main
import MpidtBench.Proofs.CmaBatches
import MpidtBench.Proofs.PipelineProtocol
import MpidtBench.Proofs.PipelineRefinement
import MpidtBench.Proofs.XpmemBounds

namespace MpidtBench.Delivery
open Traced CInteger ScatterGather ByteMemory Pages MpidtBench PipelineLoops PipelineProtocol PipelineRefinement PlainCopy
  CmaBatches XpmemLoops XpmemMapped XpmemBounds

def viaRegion : Bench → Bool
  | .shmem => true
  | .shmemPip => true
  | _ => false

-- An iteration, from any contents of memory: the sender keeps its buffer and shows it in
-- the region, a receiver fetches it from there or from the sender's memory.
def Offers (lbuf ptr bufsize : Nat) (region : Bool) (sent : List Act) : Prop := ∀ peer m, ∀ k < bufsize,
  effects peer sent m (lbuf+k) = m (lbuf+k) ∧ (region = true → effects peer sent m (ptr+k) = m (lbuf+k))
def Fetches (lbuf ptr source bufsize : Nat) (region : Bool) (got : List Act) : Prop := ∀ peer m, ∀ k < bufsize,
  effects peer got m (lbuf+k) = if region then m (ptr+k) else peer (source+k)

-- Every byte of a range lies in the buffer.
def Within (ptr len base size : Nat) : Prop := ∀ k < len, base ≤ ptr + k ∧ ptr + k < base + size

-- The memory that an action touches: the rank's own buffer, the region of the step, the
-- sender's buffer, and lists of so many entries and attachments that name them.
structure Place where
  role : Role
  pageSize : Nat
  lbuf : Nat
  ptr : Nat
  source : Nat
  bufsize : Nat
  entries : Nat

def InBounds (place : Place) : Act → Prop
  | .memset dst _ len => Within dst len place.lbuf place.bufsize
  | .bcast .iov count => 0 ≤ count ∧ count ≤ ((place.entries * 16 : Nat) : Int)
  | .memcpy dst src len => match place.role with
    | .sender => Within dst len place.ptr place.bufsize ∧ Within src len place.lbuf place.bufsize
    | .receiver => Within dst len place.lbuf place.bufsize ∧ Within src len place.ptr place.bufsize
  | .processVmReadv liov riov off count _ =>
    (0 ≤ off ∧ 0 < count ∧ off + count ≤ liov.length ∧ off + count ≤ riov.length) ∧
    (∀ v ∈ slice liov off count, Within v.iovBase v.iovLen place.lbuf place.bufsize) ∧
    ∀ v ∈ slice riov off count, Within v.iovBase v.iovLen place.source place.bufsize
  | .xpmemAttach offset size segment => place.pageSize ∣ offset ∧ ∃ vaddr, segment = .mapped ⟨offset,size,vaddr⟩
  | .memcpySegment dst segment off len => Within dst len place.lbuf place.bufsize ∧ ∃ a, segment = .mapped a ∧
    0 ≤ off ∧ off + len ≤ covered place.pageSize a.size ∧ Within (advance a.offset off) len place.source place.bufsize
  | .xpmemDetach segment => ∃ a, segment = .mapped a
  | _ => True

theorem exchange_delivers {sendBuf recvBuf sendPtr recvPtr bufsize : Nat} {region : Bool} {sent got : List Act}
    (offers : Offers sendBuf sendPtr bufsize region sent) (fetches : Fetches recvBuf recvPtr sendBuf bufsize region got)
    (m : Memories) : ∀ k < bufsize,
      (exchange sendPtr recvPtr bufsize sent got m).receiver (recvBuf+k) =
        (exchange sendPtr recvPtr bufsize sent got m).sender (sendBuf+k) ∧
      (exchange sendPtr recvPtr bufsize sent got m).sender (sendBuf+k) = m.sender (sendBuf+k) := by
  intro k inside
  obtain ⟨kept,shown⟩ := offers m.sender m.sender k inside
  refine ⟨?_,kept⟩
  simp only [exchange]
  rw [fetches _ _ k inside]
  cases region with
  | false => rfl
  | true =>
      rw [if_pos rfl,kept,← shown rfl]
      simp [copyInto,inside]

section
variable {role : Role} {base ptr nblocks blocksize : Nat}

theorem initIov_succ (small : (nblocks+1) * blocksize < sizeMod) :
    initIov base (nblocks+1) blocksize = initIov base nblocks blocksize ++ [⟨base + nblocks * blocksize,blocksize⟩] := by
  rw [Nat.succ_mul] at small
  rw [initIov,List.range_succ,List.map_append,List.map_singleton,mulSize_exact (by omega)]
  rfl

theorem initIov_addrs (small : nblocks * blocksize < sizeMod) :
    addrs (initIov base nblocks blocksize) = List.range' base (nblocks * blocksize) := by
  induction nblocks with
  | zero => simp [initIov]
  | succ nblocks ih =>
      have front := small
      rw [Nat.succ_mul] at front
      rw [initIov_succ small,addrs_append,ih (by omega),addrs_cons,addrs_nil,List.append_nil,List.range'_append_1,Nat.succ_mul]

theorem addrs_known (small : nblocks * blocksize < sizeMod) (inside : k < nblocks * blocksize) :
    (addrs (initIov base nblocks blocksize))[k]? = some (base+k) := by
  rw [initIov_addrs small,List.getElem?_range' inside]
  simp

def Apart (base ptr bufsize : Nat) : Prop := base + bufsize ≤ ptr ∨ ptr + bufsize ≤ base

theorem apart_outside (small : nblocks * blocksize < sizeMod) (apart : Apart base ptr (nblocks * blocksize)) :
    Outside (initIov base nblocks blocksize) ptr (total (initIov base nblocks blocksize)) := by
  intro a member
  rw [initIov_addrs small,List.mem_range'_1] at member
  rw [initIov_total]
  rcases apart with low | high
  · exact .inl (by omega)
  · exact .inr (by omega)

theorem packed_offers (small : nblocks * blocksize < sizeMod) (apart : Apart base ptr (nblocks * blocksize)) {sent : List Act}
    (packs : ∀ peer m, effects peer sent m = transfer m (packMoves ptr (addrs (initIov base nblocks blocksize))) m) :
    Offers base ptr (nblocks * blocksize) true sent := by
  intro peer m k inside
  rw [packs]
  constructor
  · apply pack_outside m m
    rw [addrs_length,initIov_total]
    rcases apart with low | high
    · exact .inl (by omega)
    · exact .inr (by omega)
  · exact fun _ => pack_inside m m (addrs_known small inside)

theorem unpacked_fetches (small : nblocks * blocksize < sizeMod) (source : Nat) {got : List Act}
    (unpacks : ∀ peer m, effects peer got m = transfer m (unpackMoves ptr (addrs (initIov base nblocks blocksize))) m) :
    Fetches base ptr source (nblocks * blocksize) true got := by
  intro peer m k inside
  have distinct : (addrs (initIov base nblocks blocksize)).Nodup := by
    rw [initIov_addrs small]
    exact List.nodup_range'
  rw [unpacks,if_pos rfl]
  exact unpack_inside m m distinct (addrs_known small inside)

-- What an iteration of benchmark_shmem issues on a list that covers the buffer.
def shmemActs : Role → Nat → List IoVec → List Act
  | .sender,ptr,liov => (copies .sender ptr 0 liov).map ofCopy ++ [.bcast .dummy 1,.gather]
  | .receiver,ptr,liov => .bcast .dummy 1 :: ((copies .receiver ptr 0 liov).map ofCopy ++ [.gather])

theorem shmemActs_mem {role : Role} {act : Act} (member : act ∈ shmemActs role ptr liov) :
    act = .bcast .dummy 1 ∨ act = .gather ∨ act ∈ (copies role ptr 0 liov).map ofCopy := by
  cases role with
  | sender =>
      rcases List.mem_append.mp member with copy | calls
      · exact .inr (.inr copy)
      · rcases List.mem_cons.mp calls with rts | fin
        · exact .inl rts
        · exact .inr (.inl (List.mem_singleton.mp fin))
  | receiver =>
      rcases List.mem_cons.mp member with rts | later
      · exact .inl rts
      · rcases List.mem_append.mp later with copy | fin
        · exact .inr (.inr copy)
        · exact .inr (.inl (List.mem_singleton.mp fin))

theorem shmemIteration_run (role : Role) (ptr : Nat) {liov : List IoVec} {bufsize : Nat} (whole : total liov = bufsize)
    (count : liov.length = bufsize / blocksize) (small : bufsize ≤ intMax) :
    shmemIteration role ptr liov bufsize blocksize = ⟨shmemActs role ptr liov,.ok ()⟩ := by
  have ran := copyShmem_run role ptr count (Nat.le_of_eq whole) small
  rw [whole] at ran
  have checked : (toSize (bufsize : Int) == bufsize) = true := by rw [toSize_exact (intMax_lt_sizeMod small)]; simp
  cases role with
  | sender =>
      simp only [shmemIteration,if_true,ne_eq,not_true_eq_false,if_false,copyToShmem]
      change (copyShmem (plainCopy .sender ptr) liov blocksize bufsize >>= _) = _
      rw [ran,Run.ok_chain,checked]
      rfl
  | receiver =>
      simp only [shmemIteration,reduceCtorEq,if_false,ne_eq,not_false_eq_true,if_true,copyFromShmem]
      change (Run.emit _ >>= fun _ => copyShmem (plainCopy .receiver ptr) liov blocksize bufsize >>= _) = _
      rw [ran,Run.emit_chain,Run.ok_chain,checked]
      rfl

-- The bytes that a list of copies writes in, and reads from, the region and the blocks.
theorem copy_inside {pieces : List IoVec} {place : Place} (role_eq : place.role = role)
    (ptr_eq : place.ptr = ptr) (size : total pieces ≤ place.bufsize)
    (named : ∀ a ∈ addrs pieces, place.lbuf ≤ a ∧ a < place.lbuf + place.bufsize) :
    ∀ act ∈ (copies role ptr 0 pieces).map ofCopy, InBounds place act := by
  intro act member
  obtain ⟨copy,listed,rfl⟩ := List.mem_map.mp member
  have region : ∀ a ∈ List.range' ptr (addrs pieces).length, place.ptr ≤ a ∧ a < place.ptr + place.bufsize := by
    intro a present
    rw [List.mem_range'_1,addrs_length] at present
    omega
  have moves : ∀ k < copy.len, (copy.dst+k,copy.src+k) ∈ (copies role ptr 0 pieces).flatMap Copy.moves := fun k low =>
    List.mem_flatMap.mpr ⟨copy,listed,mem_span.mpr ⟨k,low,rfl⟩⟩
  cases role with
  | sender =>
      simp only [copies,packCopies_moves,Nat.add_zero] at moves
      simp only [ofCopy,InBounds,role_eq]
      constructor
      · intro k low
        apply region _
        rw [← packMoves_fst]
        exact List.mem_map.mpr ⟨_,moves k low,rfl⟩
      · intro k low
        apply named _
        rw [← packMoves_snd ptr (addrs pieces)]
        exact List.mem_map.mpr ⟨_,moves k low,rfl⟩
  | receiver =>
      simp only [copies,unpackCopies_moves,Nat.add_zero] at moves
      simp only [ofCopy,InBounds,role_eq]
      constructor
      · intro k low
        apply named _
        rw [← unpackMoves_fst ptr (addrs pieces)]
        exact List.mem_map.mpr ⟨_,moves k low,rfl⟩
      · intro k low
        apply region _
        rw [← unpackMoves_snd]
        exact List.mem_map.mpr ⟨_,moves k low,rfl⟩

theorem roundsActs_mem {moved : Nat} {rounds : List (List IoVec)} {act : Act} (member : act ∈ roundsActs role ptr moved rounds) :
    act = .bcast .dummy 1 ∨ act ∈ (copies role ptr moved rounds.flatten).map ofCopy := by
  induction rounds generalizing moved with
  | nil => cases member
  | cons pieces rest ih =>
      rw [roundsActs,List.mem_append] at member
      rw [List.flatten_cons,copies_append,List.map_append,List.mem_append]
      rcases member with here | later
      · simp only [roundActs,List.mem_append] at here
        rcases here with (entered | copied) | left
        · cases role with
          | sender => cases entered
          | receiver => exact .inl (List.mem_singleton.mp entered)
        · exact .inr (.inl copied)
        · cases role with
          | sender => exact .inl (List.mem_singleton.mp left)
          | receiver => cases left
      · rcases ih later with call | copied
        · exact .inl call
        · exact .inr (.inr copied)

theorem iterationActs_mem {act : Act} (member : act ∈ iterationActs role full ptr liov) :
    act = .bcast .dummy 1 ∨ act = .gather ∨
      act ∈ (copies role ptr 0 (chunks full (total liov / full) liov).flatten).map ofCopy := by
  rcases List.mem_append.mp member with moved | fin
  · rcases roundsActs_mem moved with rts | copy
    · exact .inl rts
    · exact .inr (.inr copy)
  · exact .inr (.inl (List.mem_singleton.mp fin))

end

-- What a rank is given for one step of the sweep: `nblocks` blocks that fill the buffer.
structure Fit (place : Place) (nblocks blocksize : Nat) : Prop where
  filled : place.bufsize = nblocks * blocksize
  listed : place.entries = nblocks
  lists : nblocks * 16 ≤ intMax
  own : Layout place.pageSize place.lbuf nblocks blocksize
  sent : Layout place.pageSize place.source nblocks blocksize
  apart : Apart place.lbuf place.ptr place.bufsize

structure Serves (place : Place) (region : Bool) (acts : List Act) : Prop where
  offers : place.role = .sender → Offers place.lbuf place.ptr place.bufsize region acts
  fetches : place.role = .receiver → Fetches place.lbuf place.ptr place.source place.bufsize region acts
  inside : ∀ act ∈ acts, InBounds place act

section
variable {place : Place} {nblocks blocksize : Nat}

theorem Fit.bytes (fit : Fit place nblocks blocksize) : nblocks * blocksize < sizeMod := intMax_lt_sizeMod fit.own.small

theorem Fit.total (fit : Fit place nblocks blocksize) : total (initIov place.lbuf nblocks blocksize) = place.bufsize := by
  rw [initIov_total,fit.filled]

theorem Fit.small (fit : Fit place nblocks blocksize) : place.bufsize ≤ intMax := fit.filled ▸ fit.own.small

theorem Fit.count (fit : Fit place nblocks blocksize) : place.bufsize / blocksize = nblocks := by
  rw [fit.filled,Nat.mul_div_cancel _ fit.own.bytes]

theorem Fit.narrow (fit : Fit place nblocks blocksize) : toInt (place.bufsize / blocksize) = (nblocks : Int) := by
  rw [nblocks_exact _ _ fit.small,fit.count]

theorem Fit.entries (fit : Fit place nblocks blocksize) : nblocks ≤ intMax := by
  have lists := fit.lists
  omega

theorem iovecBytes_exact (lists : nblocks * 16 ≤ intMax) : iovecBytes nblocks = ((nblocks * 16 : Nat) : Int) := by
  have large := intMax_lt_sizeMod lists
  rw [iovecBytes,toSize_exact (by omega),mulSize_exact large,toInt_exact lists]

-- The list that an RTS Bcast carries fills the list it arrives in.
theorem Fit.rts (fit : Fit place nblocks blocksize) : InBounds place (.bcast .iov (iovecBytes nblocks)) := by
  rw [iovecBytes_exact fit.lists]
  simp only [InBounds,fit.listed]
  exact ⟨Int.natCast_nonneg _,Int.le_refl _⟩

theorem own_bytes (fit : Fit place nblocks blocksize) :
    ∀ a ∈ addrs (initIov place.lbuf nblocks blocksize), place.lbuf ≤ a ∧ a < place.lbuf + place.bufsize := by
  intro a member
  rw [initIov_addrs fit.bytes,List.mem_range'_1] at member
  rw [fit.filled]
  exact member

theorem shmem_serves (fit : Fit place nblocks blocksize) :
    Serves place true (shmemActs place.role place.ptr (initIov place.lbuf nblocks blocksize)) := by
  obtain ⟨role,pageSize,lbuf,ptr,source,bufsize,entries⟩ := place
  have bytes := fit.bytes
  obtain rfl : bufsize = nblocks * blocksize := fit.filled
  have clear := apart_outside bytes fit.apart
  have copied := copy_inside rfl rfl (Nat.le_of_eq fit.total) (own_bytes fit)
  refine ⟨?_,?_,?_⟩
  · intro sends
    obtain rfl : role = .sender := sends
    apply packed_offers bytes fit.apart
    intro peer m
    simp only [shmemActs,effects_append,effects_copies]
    exact packCopies_effect clear m
  · intro receives
    obtain rfl : role = .receiver := receives
    apply unpacked_fetches bytes source
    intro peer m
    simp only [shmemActs,effects_cons,effects_append,effects_copies]
    exact unpackCopies_effect clear m
  · intro act member
    rcases shmemActs_mem member with rfl | rfl | copy
    · trivial
    · trivial
    · exact copied act copy

theorem pip_serves (fit : Fit place nblocks blocksize) (full : Nat) (divides : full ∣ place.bufsize) :
    Serves place true (iterationActs place.role full place.ptr (initIov place.lbuf nblocks blocksize)) := by
  obtain ⟨role,pageSize,lbuf,ptr,source,bufsize,entries⟩ := place
  have bytes := fit.bytes
  have whole : full ∣ total (initIov lbuf nblocks blocksize) := by rw [fit.total]; exact divides
  obtain rfl : bufsize = nblocks * blocksize := fit.filled
  have clear := apart_outside bytes fit.apart
  have positive := @initIov_positive blocksize lbuf nblocks fit.own.bytes
  have named := rounds_addrs positive whole
  have size := (rounds_total positive whole).trans fit.total
  refine ⟨?_,?_,?_⟩
  · intro sends
    obtain rfl : role = .sender := sends
    apply packed_offers bytes fit.apart
    intro peer m
    rw [iterationActs,effects_append]
    exact pipelined_pack peer m positive whole clear
  · intro receives
    obtain rfl : role = .receiver := receives
    apply unpacked_fetches bytes source
    intro peer m
    rw [iterationActs,effects_append]
    exact pipelined_unpack peer m positive whole clear
  · intro act member
    rcases iterationActs_mem member with rfl | rfl | copy
    · trivial
    · trivial
    · refine copy_inside rfl rfl (Nat.le_of_eq size) ?_ act copy
      rw [named]
      exact own_bytes fit

end

-- An action that leaves a byte of the buffer alone or fetches it, respectively fetches it.
def Faithful (lbuf source k : Nat) (act : Act) : Prop := ∀ peer m,
  effect peer m act (lbuf+k) = m (lbuf+k) ∨ effect peer m act (lbuf+k) = peer (source+k)
def Covers (lbuf source k : Nat) (act : Act) : Prop := ∀ peer m, effect peer m act (lbuf+k) = peer (source+k)

section
variable {lbuf source k : Nat} {acts : List Act}

theorem byte_kept (faithful : ∀ act ∈ acts, Faithful lbuf source k act) {peer m : Memory} (there : m (lbuf+k) = peer (source+k)) :
    effects peer acts m (lbuf+k) = peer (source+k) := by
  induction acts generalizing m with
  | nil => exact there
  | cons act rest ih =>
      rw [effects_cons]
      refine ih (fun other member => faithful other (List.mem_cons_of_mem _ member)) ?_
      rcases faithful act (by simp) peer m with same | fetched
      · rw [same,there]
      · exact fetched

theorem byte_fetched (faithful : ∀ act ∈ acts, Faithful lbuf source k act) (covered : ∃ act ∈ acts, Covers lbuf source k act)
    (peer m : Memory) : effects peer acts m (lbuf+k) = peer (source+k) := by
  obtain ⟨act,member,covers⟩ := covered
  obtain ⟨before,after,rfl⟩ := List.append_of_mem member
  rw [effects_append,effects_cons]
  exact byte_kept (fun other later => faithful other (by simp [later])) (covers peer _)

theorem copy_faithful {act : Act} {off len : Nat}
    (copies : ∀ peer m, effect peer m act = copyInto m (lbuf+off) peer (source+off) len) : Faithful lbuf source k act := by
  intro peer m
  rw [copies]
  by_cases inside : lbuf + off ≤ lbuf + k ∧ lbuf + k < lbuf + off + len
  · right
    rw [copyInto,if_pos inside,show source + off + (lbuf + k - (lbuf + off)) = source + k by omega]
  · left
    rw [copyInto,if_neg inside]

theorem copy_covers {act : Act} {off len : Nat}
    (copies : ∀ peer m, effect peer m act = copyInto m (lbuf+off) peer (source+off) len) (low : off ≤ k) (high : k < off + len) :
    Covers lbuf source k act := by
  intro peer m
  rw [copies,copyInto,if_pos (by omega),show source + off + (lbuf + k - (lbuf + off)) = source + k by omega]

theorem still_faithful {act : Act} (still : ∀ peer m, effect peer m act = m) : Faithful lbuf source k act :=
  fun peer m => .inl (by rw [still])

end

section
variable {place : Place} {base nblocks blocksize first count : Nat}

theorem calls_serve (fit : Fit place nblocks blocksize) (sends : place.role = .sender) :
    Serves place false [.bcast .iov (iovecBytes nblocks),.gather] := by
  refine ⟨fun _ peer m k _ => ⟨rfl,nofun⟩,?_,?_⟩
  · intro receives
    rw [sends] at receives
    cases receives
  · intro act member
    simp only [List.mem_cons,List.not_mem_nil,or_false] at member
    rcases member with rfl | rfl
    · exact fit.rts
    · trivial

-- A part of the list is the list of a part of the buffer.
theorem slice_initIov (small : nblocks * blocksize < sizeMod) (inside : first + count ≤ nblocks) :
    slice (initIov base nblocks blocksize) first count = initIov (base + first * blocksize) count blocksize := by
  have indices : ((List.range nblocks).drop first).take count = (List.range count).map (first + ·) := by
    rw [List.range_eq_range',List.drop_range',Nat.zero_add,Nat.mul_one,List.range'_eq_map_range,← List.map_take,List.take_range,
      Nat.min_eq_left (by omega)]
  rw [slice,initIov,Int.toNat_natCast,Int.toNat_natCast,← List.map_drop,← List.map_take,indices,List.map_map,initIov]
  apply List.map_congr_left
  intro i member
  have below := List.mem_range.mp member
  have bound : (first + i) * blocksize ≤ nblocks * blocksize := Nat.mul_le_mul_right _ (by omega)
  rw [Nat.add_mul] at bound
  simp only [Function.comp_apply]
  rw [mulSize_exact (by rw [Nat.add_mul]; omega),mulSize_exact (by omega),Nat.add_mul,Nat.add_assoc]

theorem part_within (inside : first + count ≤ nblocks) (small : nblocks * blocksize < sizeMod) :
    ∀ v ∈ initIov (base + first * blocksize) count blocksize, Within v.iovBase v.iovLen base (nblocks * blocksize) := by
  intro v member k low
  obtain ⟨i,listed,rfl⟩ := List.mem_map.mp member
  have below := List.mem_range.mp listed
  have bound : (first + i + 1) * blocksize ≤ nblocks * blocksize := Nat.mul_le_mul_right _ (by omega)
  rw [Nat.succ_mul,Nat.add_mul] at bound
  change k < blocksize at low
  simp only
  rw [mulSize_exact (by omega)]
  omega

-- A full transfer of `count` blocks is one copy.
theorem readv_copies (own : nblocks * blocksize < sizeMod) (small : count * blocksize ≤ intMax) (inside : first + count ≤ nblocks)
    (lbuf source : Nat) (peer m : Memory) :
    effect peer m (.processVmReadv (initIov lbuf nblocks blocksize) (initIov source nblocks blocksize) first count
      (count * blocksize)) =
      copyInto m (lbuf + first * blocksize) peer (source + first * blocksize) (count * blocksize) := by
  have part : count * blocksize < sizeMod := intMax_lt_sizeMod small
  have returned : count * blocksize ≠ sizeMod - 1 := by simp only [sizeMod,intMax] at small ⊢; omega
  have moves : readvMoves (initIov lbuf nblocks blocksize) (initIov source nblocks blocksize) first count (count * blocksize) =
      span (lbuf + first * blocksize) (source + first * blocksize) (count * blocksize) := by
    rw [readvMoves,if_neg returned,slice_initIov own inside,slice_initIov own inside,initIov_addrs part,initIov_addrs part]
    exact List.take_of_length_le (by simp)
  rw [copyInto_transfer,← moves]
  rfl

-- Full transfers of all batches fetch the whole buffer.
theorem batches_fetch (bytes : 0 < blocksize) (small : nblocks * blocksize ≤ intMax) {size passes : Nat} (some_blocks : 0 < size)
    (tiles : passes * size = nblocks) (lbuf source : Nat) {k : Nat} (inside : k < nblocks * blocksize) (peer m : Memory) :
    effects peer (batchActs (initIov lbuf nblocks blocksize) (initIov source nblocks blocksize) size blocksize passes) m (lbuf+k) =
      peer (source+k) := by
  have batch_bytes : 0 < size * blocksize := Nat.mul_pos some_blocks bytes
  have copies : ∀ i < passes, ∀ peer m, effect peer m (.processVmReadv (initIov lbuf nblocks blocksize)
      (initIov source nblocks blocksize) ((i * size : Nat) : Int) size (size * blocksize)) =
      copyInto m (lbuf + i * size * blocksize) peer (source + i * size * blocksize) (size * blocksize) := by
    intro i low peer m
    have batch : i * size + size ≤ nblocks := by
      rw [← tiles,← Nat.succ_mul]
      exact Nat.mul_le_mul_right _ low
    have part : size * blocksize ≤ nblocks * blocksize := Nat.mul_le_mul_right _ (by omega)
    exact readv_copies (intMax_lt_sizeMod small) (Nat.le_trans part small) batch lbuf source peer m
  have faithful : ∀ act ∈ batchActs (initIov lbuf nblocks blocksize) (initIov source nblocks blocksize) size blocksize passes,
      Faithful lbuf source k act := by
    intro act member
    obtain ⟨i,listed,rfl⟩ := List.mem_map.mp member
    exact copy_faithful (copies i (List.mem_range.mp listed))
  have low : k / (size * blocksize) < passes := by
    rw [Nat.div_lt_iff_lt_mul batch_bytes,← Nat.mul_assoc,tiles]
    exact inside
  have parts := Nat.div_add_mod k (size * blocksize)
  have rest := Nat.mod_lt k batch_bytes
  rw [Nat.mul_comm,← Nat.mul_assoc] at parts
  refine byte_fetched faithful ⟨_,List.mem_map.mpr ⟨_,List.mem_range.mpr low,rfl⟩,?_⟩ peer m
  exact copy_covers (copies _ low) (by omega) (by omega)

theorem cma_serves (fit : Fit place nblocks blocksize) (receives : place.role = .receiver) {size passes : Nat} (some_blocks : 0 < size)
    (tiles : passes * size = nblocks) :
    Serves place false (.bcast .iov (iovecBytes nblocks) :: (batchActs (initIov place.lbuf nblocks blocksize)
      (initIov place.source nblocks blocksize) size blocksize passes ++ [.gather])) := by
  have bytes := fit.bytes
  refine ⟨?_,?_,?_⟩
  · intro sends
    rw [receives] at sends
    cases sends
  · intro _ peer m k inside
    rw [fit.filled] at inside
    rw [effects_cons,effects_append]
    exact batches_fetch fit.own.bytes fit.own.small some_blocks tiles place.lbuf place.source inside peer m
  · intro act member
    rcases List.mem_cons.mp member with rfl | later
    · exact fit.rts
    · rcases List.mem_append.mp later with batched | call
      · obtain ⟨i,listed,rfl⟩ := List.mem_map.mp batched
        have low : i * size + size ≤ nblocks := by
          rw [← tiles,← Nat.succ_mul]
          exact Nat.mul_le_mul_right _ (List.mem_range.mp listed)
        refine ⟨⟨by omega,by omega,?_,?_⟩,?_,?_⟩
        · rw [initIov_length]; omega
        · rw [initIov_length]; omega
        · rw [slice_initIov bytes low,fit.filled]
          exact part_within low bytes
        · rw [slice_initIov bytes low,fit.filled]
          exact part_within low bytes
      · rw [List.mem_singleton.mp call]
        trivial

-- A copy through an attachment is a copy of one block to its own place.
theorem segment_copy {pageSize lbuf source dst len : Nat} {segment : SegPtr} {off : Int}
    (inside : Inside pageSize source lbuf nblocks blocksize (.memcpySegment dst segment off len)) :
    ∃ i < nblocks, dst = lbuf + i * blocksize ∧ ∀ peer m, effect peer m (.memcpySegment dst segment off len) =
      copyInto m (lbuf + i * blocksize) peer (source + i * blocksize) blocksize := by
  obtain ⟨i,low,a,rfl,rfl,rfl,_,address,_⟩ := inside
  refine ⟨i,low,rfl,fun peer m => ?_⟩
  rw [effect,advance,address,Int.toNat_natCast]

theorem exact_faithful {pageSize lbuf source k : Nat} {act : Act} (shape : Exact pageSize lbuf (initIov source nblocks blocksize) act)
    (inside : Inside pageSize source lbuf nblocks blocksize act) : Faithful lbuf source k act := by
  cases act with
  | memcpySegment dst segment off len =>
      obtain ⟨i,_,_,copy⟩ := segment_copy inside
      exact copy_faithful copy
  | bcast => exact still_faithful fun _ _ => rfl
  | gather => exact still_faithful fun _ _ => rfl
  | xpmemGet => exact still_faithful fun _ _ => rfl
  | xpmemAttach => exact still_faithful fun _ _ => rfl
  | xpmemDetach => exact still_faithful fun _ _ => rfl
  | _ => cases shape

theorem exact_bounds (fit : Fit place nblocks blocksize) {act : Act}
    (shape : Exact place.pageSize place.lbuf (initIov place.source nblocks blocksize) act)
    (inside : Inside place.pageSize place.source place.lbuf nblocks blocksize act) : InBounds place act := by
  cases act with
  | memcpySegment dst segment off len =>
      obtain ⟨i,low,a,rfl,rfl,length,nonneg,address,fits⟩ := inside
      have bound := offset_below low blocksize
      refine ⟨fun k below => ?_,a,rfl,nonneg,fits,fun k below => ?_⟩
      · rw [fit.filled]; omega
      · rw [fit.filled,advance,address,Int.toNat_natCast]; omega
  | xpmemAttach offset size result =>
      obtain ⟨v,_,asked,vaddr,mapped⟩ := shape
      rw [← asked] at mapped
      exact ⟨inside,vaddr,mapped⟩
  | xpmemDetach segment =>
      obtain ⟨v,_,vaddr,mapped⟩ := shape
      exact ⟨_,mapped⟩
  | bcast what count =>
      obtain ⟨message,entries⟩ := shape
      rw [message,entries,initIov_length]
      exact fit.rts
  | gather => trivial
  | xpmemGet => trivial
  | _ => cases shape

-- A receiver of the XPMEM benchmarks that copies every block through what it attached.
theorem xpmem_serves (fit : Fit place nblocks blocksize) (receives : place.role = .receiver)
    (requests : Requests place.pageSize place.source nblocks blocksize)
    (whole : blocksize < place.pageSize → ∀ i < nblocks, i * blocksize % place.pageSize + blocksize ≤ place.pageSize)
    {acts : List Act} (exacts : ∀ act ∈ acts, Exact place.pageSize place.lbuf (initIov place.source nblocks blocksize) act)
    (copied : ∀ (i : Nat) (v : IoVec), (initIov place.source nblocks blocksize)[i]? = some v → ∃ segment off len,
      .memcpySegment (place.lbuf + total ((initIov place.source nblocks blocksize).take i)) segment off len ∈ acts)
    : Serves place false acts := by
  have positive := fit.own.bytes
  have inside := fun act member => exact_inside fit.sent requests whole (exacts act member)
  refine ⟨?_,?_,fun act member => exact_bounds fit (exacts act member) (inside act member)⟩
  · intro sends
    rw [receives] at sends
    cases sends
  · intro _ peer m k low
    rw [fit.filled] at low
    have index : k / blocksize < nblocks := (Nat.div_lt_iff_lt_mul positive).mpr low
    obtain ⟨segment,off,len,member⟩ := copied _ _ (block_at fit.sent index)
    rw [take_total nblocks (Nat.le_of_lt index)] at member
    obtain ⟨i,_,place_eq,copy⟩ := segment_copy (inside _ member)
    obtain rfl : k / blocksize = i := Nat.eq_of_mul_eq_mul_right positive (by omega)
    have parts := Nat.div_add_mod k blocksize
    have rest := Nat.mod_lt k positive
    rw [Nat.mul_comm] at parts
    exact byte_fetched (fun act member => exact_faithful (exacts act member) (inside act member))
      ⟨_,member,copy_covers copy (by omega) (by omega)⟩ peer m

end
end MpidtBench.Delivery
