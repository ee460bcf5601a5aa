import MpidtBench.Proofs.SweepAgreement

namespace MpidtBench.XpmemCached
open Traced CInteger ScatterGather ByteMemory MpidtBench XpmemLoops XpmemMapped SweepRuns SweepAgreement

-- The sender's lists: blocks outside page 0, those smaller than a page inside one page,
-- the others starting with one.
structure Readable (pageSize : Nat) (iov : List IoVec) : Prop where
  power : ∃ k < 63, pageSize = 2 ^ k
  pointer : ∀ v ∈ iov, v.iovBase < sizeMod
  beyond : ∀ v ∈ iov, pageSize ≤ v.iovBase
  shape : ∀ v ∈ iov, (0 < v.iovLen ∧ v.iovLen < pageSize ∧ v.iovBase % pageSize + v.iovLen ≤ pageSize) ∨
    (pageSize ≤ v.iovLen ∧ pageSize ∣ v.iovBase)

-- What the ints `offset` and `pg_off` have to hold.
structure IntOffsets (pageSize : Nat) (iov : List IoVec) : Prop where
  offset : ∀ i < iov.length, total (iov.take i) ≤ intMax
  pgOff : ∀ v ∈ iov, v.iovLen < pageSize → v.iovBase % pageSize ≤ intMax

-- `segment + pg_off` is where the first byte of the block is mapped, and the block stays inside.
def Maps (pageSize : Nat) (v : IoVec) (segment : SegPtr) : Prop :=
  ∃ a, segment = .mapped a ∧ 0 ≤ pgOff pageSize v ∧ (a.offset : Int) + pgOff pageSize v = v.iovBase ∧
    pgOff pageSize v + v.iovLen ≤ a.size

-- The blocks of the list one after the other in lbuf, nothing else changed.
def Delivered (lbuf : Nat) (iov : List IoVec) (acts : List Act) : Prop := ∀ peer m,
  (∀ k a, (addrs iov)[k]? = some a → effects peer acts m (lbuf+k) = peer a) ∧
  ∀ a, a < lbuf ∨ lbuf + total iov ≤ a → effects peer acts m a = m a

section
variable {pageSize lbuf : Nat} {iov : List IoVec} {v : IoVec}

theorem Readable.nonnull (readable : Readable pageSize iov) (member : v ∈ iov) (_ : v.iovLen < pageSize) :
    pageBase pageSize v.iovBase ≠ 0 := by
  have positive : 0 < pageSize := by
    obtain ⟨k,_,rfl⟩ := readable.power
    exact Nat.two_pow_pos k
  have page := Nat.div_pos (readable.beyond v member) positive
  rw [pageBase_div readable.power (readable.pointer v member)]
  exact Nat.ne_of_gt (Nat.mul_pos page positive)

-- The attach loop and the copy loop find the same page, by the same mask.
theorem answers_maps {segment : SegPtr} (readable : Readable pageSize iov) (ints : IntOffsets pageSize iov) (member : v ∈ iov)
    (answers : Answers pageSize v segment) : Maps pageSize v segment := by
  obtain ⟨vaddr,rfl⟩ := answers
  refine ⟨_,rfl,?_⟩
  rcases readable.shape v member with ⟨_,small,within⟩ | ⟨large,_⟩
  · have pointer := readable.pointer v member
    have parts := Nat.div_add_mod v.iovBase pageSize
    rw [Nat.mul_comm] at parts
    have off : pgOff pageSize v = ((v.iovBase % pageSize : Nat) : Int) := by
      rw [pgOff,if_pos small,pageBase_div readable.power pointer,subSize_exact (by omega) pointer,
        show v.iovBase - v.iovBase / pageSize * pageSize = v.iovBase % pageSize by omega,toInt_exact (ints.pgOff v member small)]
    rw [request,if_pos small,off,pageBase_div readable.power pointer]
    dsimp only
    exact ⟨by omega,by omega,by omega⟩
  · have whole : ¬ v.iovLen < pageSize := by omega
    rw [request,pgOff,if_neg whole,if_neg whole]
    dsimp only
    exact ⟨by omega,by omega,by omega⟩

theorem still_effects {acts : List Act} (still : ∀ act ∈ acts, ∀ peer m, effect peer m act = m) (peer m : Memory) :
    effects peer acts m = m := by
  induction acts generalizing m with
  | nil => rfl
  | cons act rest ih =>
      rw [effects_cons,still act (by simp)]
      exact ih (fun other member => still other (List.mem_cons_of_mem _ member)) m

-- The copy loop with `done` bytes already copied.
theorem copies_pack {blocks : List (IoVec × SegPtr)} {done : Nat} (maps : ∀ block ∈ blocks, Maps pageSize block.1 block.2)
    (offsets : ∀ k < blocks.length, done + total ((blocks.map Prod.fst).take k) ≤ intMax) (peer m : Memory) :
    effects peer (segmentCopies pageSize lbuf done blocks) m =
      transfer peer (packMoves (lbuf + done) (addrs (blocks.map Prod.fst))) m := by
  induction blocks generalizing done m with
  | nil => rfl
  | cons block rest ih =>
      obtain ⟨v,segment⟩ := block
      obtain ⟨a,rfl,_,address,_⟩ := maps (v,segment) (by simp)
      have here : effect peer m (.memcpySegment (advance lbuf done) (.mapped a) (pgOff pageSize v) v.iovLen) =
          transfer peer (span (lbuf + done) v.iovBase v.iovLen) m := by
        rw [effect,advance_nat,advance,address,Int.toNat_natCast,copyInto_transfer]
      have later : effects peer (segmentCopies pageSize lbuf (nextOffset done v) rest)
          (transfer peer (span (lbuf + done) v.iovBase v.iovLen) m) =
          transfer peer (packMoves (lbuf + (done + v.iovLen)) (addrs (rest.map Prod.fst)))
            (transfer peer (span (lbuf + done) v.iovBase v.iovLen) m) := by
        cases rest with
        | nil => rfl
        | cons next others =>
            -- Only in front of another block does the offset have to be exact.
            have small := offsets 1 (by simp)
            simp only [List.map_cons,List.take_succ_cons,List.take_zero,total_cons,total_nil] at small
            rw [nextOffset,toInt_addSize (by omega)]
            refine ih (fun block member => maps block (List.mem_cons_of_mem _ member)) ?_ _
            intro k inside
            have bound := offsets (k+1) (by simpa using inside)
            rw [List.map_cons,List.take_succ_cons,total_cons] at bound
            dsimp only at bound
            omega
      rw [segmentCopies,effects_cons,here,later,List.map_cons,addrs_cons,packMoves_append,packMoves_block,transfer_append,
        List.length_range',Nat.add_assoc]

-- All an iteration does to the receiver's memory is its copy loop.
theorem iteration_delivers (readable : Readable pageSize iov) (ints : IntOffsets pageSize iov) {attachNow detachNow : Bool}
    {driver : XpmemDriver} {s t : XpmemState} (attached : (attachSegments attachNow pageSize driver iov iov.length j s).out = .ok t)
    (holding : Holding pageSize iov (i+1) t) :
    (xpmemIteration .receiver attachNow detachNow pageSize lbuf driver iov iov.length j s).out = .ok t ∧
      Delivered lbuf iov (xpmemIteration .receiver attachNow detachNow pageSize lbuf driver iov iov.length j s).acts := by
  have names : (iov.zip t.attachedSeglist).map Prod.fst = iov := List.map_fst_zip (Nat.le_of_eq holding.length.symm)
  have maps : ∀ block ∈ iov.zip t.attachedSeglist, Maps pageSize block.1 block.2 := by
    rintro ⟨v,segment⟩ member
    obtain ⟨k,pair⟩ := List.mem_iff_getElem?.mp member
    obtain ⟨known,held⟩ := List.getElem?_zip_eq_some.mp pair
    obtain ⟨other,there,answers⟩ := holding.segments (Nat.succ_pos i) k v known
    rw [held] at there
    cases there
    exact answers_maps readable ints (List.mem_of_getElem? known) answers
  have attaching : ∀ act ∈ (attachSegments attachNow pageSize driver iov iov.length j s).acts, ∀ peer m, effect peer m act = m := by
    intro act member peer m
    have attach := attachSegments_quiet attachNow pageSize driver iov iov.length j s act member
    cases act <;> first | rfl | cases attach
  have detaching : ∀ act ∈ (if detachNow then detaches t.attachedSeglist else []), ∀ peer m, effect peer m act = m := by
    intro act member peer m
    obtain ⟨_,_,rfl⟩ := detached_acts act member
    rfl
  rw [receiver_iteration attached rfl holding.length]
  refine ⟨rfl,fun peer m => ?_⟩
  have copied := @copies_pack pageSize lbuf (iov.zip t.attachedSeglist) 0 maps (by
    intro k inside
    rw [List.length_zip,holding.length,Nat.min_self] at inside
    rw [names,Nat.zero_add]
    exact ints.offset k inside) peer m
  rw [names,Nat.add_zero] at copied
  have all : effects peer (.bcast .iov (iovecBytes iov.length) ::
      ((attachSegments attachNow pageSize driver iov iov.length j s).acts ++ (segmentCopies pageSize lbuf 0 (iov.zip t.attachedSeglist) ++
        ((if detachNow then detaches t.attachedSeglist else []) ++ [.gather])))) m = transfer peer (packMoves lbuf (addrs iov)) m := by
    rw [effects_cons,effects_append,effects_append,effects_append]
    simp only [effect,effects_cons,effects_nil,still_effects attaching,still_effects detaching]
    exact copied
  rw [all]
  refine ⟨fun k a known => pack_inside peer m known,fun a outside => pack_outside peer m ?_⟩
  rw [addrs_length]
  exact outside

end

section
variable {pageSize lbuf bufsize blocksize iters : Nat} {driver : XpmemDriver} {iov : List IoVec}

theorem first_maps (readable : Readable pageSize iov) (ints : IntOffsets pageSize iov)
    (granted : ∀ (i : Nat) (v : IoVec), iov[i]? = some v → (driver.attach 0 i (request pageSize v).1 (request pageSize v).2).isSome) (apid : Nat) :
    ∃ t, (attachSegments true pageSize driver iov iov.length 0 (XpmemState.start iov.length apid)).out = .ok t ∧ Holding pageSize iov 1 t ∧
      ∀ (i : Nat) (v : IoVec), iov[i]? = some v → ∃ segment, t.attachedSeglist[i]? = some segment ∧ Maps pageSize v segment ∧
        .xpmemAttach (request pageSize v).1 (request pageSize v).2 segment ∈
          (attachSegments true pageSize driver iov iov.length 0 (XpmemState.start iov.length apid)).acts := by
  obtain ⟨t,ended,first,attached⟩ := attach_holding (fun v member small => readable.nonnull member small) granted
    (@start_holding pageSize iov apid)
  refine ⟨t,ended,first,fun i v known => ?_⟩
  obtain ⟨w,segment,there,held,choice⟩ := attached.segments i (List.getElem?_eq_some_iff.mp known).1
  rw [known] at there
  cases there
  rcases choice with ⟨vaddr,mapped,made⟩ | ⟨small,_,same⟩
  · exact ⟨segment,held,answers_maps readable ints (List.mem_of_getElem? known) ⟨vaddr,mapped⟩,List.mem_cons_of_mem _ made⟩
  · have page := same v (List.mem_iff_getElem?.mpr ⟨i,by rw [List.getElem?_take_of_lt (Nat.lt_succ_self i)]; exact known⟩) small
    exact absurd page (readable.nonnull (List.mem_of_getElem? known) small)

theorem cached_loop (readable : Readable pageSize iov) (ints : IntOffsets pageSize iov) (iters lbuf : Nat)
    (ended : (attachSegments true pageSize driver iov iov.length 0 (XpmemState.start iov.length apid)).out = .ok t)
    (first : Holding pageSize iov 1 t) :
    ∃ last blocks, xpmemLoop .receiver (fun j => useCache && j == 0) (fun j => !useCache || j+1 == iters) iters pageSize lbuf driver
      (fun _ => iov) iov.length apid = ⟨stampBlocks iters blocks,.ok last⟩ ∧ ∀ j < iters, Delivered lbuf iov (blocks j) := by
  obtain ⟨last,blocks,ran,_,delivers⟩ := @stamped_rounds iters XpmemState (fun j => xpmemIteration .receiver (useCache && j == 0)
      (!useCache || j+1 == iters) pageSize lbuf driver iov iov.length j) (XpmemState.start iov.length apid)
    (fun j s => if j = 0 then s = XpmemState.start iov.length apid else Holding pageSize iov j s)
    (fun _ block => Delivered lbuf iov block) (by
      intro j s _ given
      cases j with
      | zero =>
          obtain rfl : s = XpmemState.start iov.length apid := given
          obtain ⟨went,delivers⟩ := iteration_delivers readable ints ended first
          exact ⟨t,went,first,delivers⟩
      | succ j =>
          have holding : Holding pageSize iov (j+1) s := given
          have nothing : (attachSegments (useCache && j+1 == 0) pageSize driver iov iov.length (j+1) s).out = .ok s := rfl
          obtain ⟨went,delivers⟩ := iteration_delivers readable ints nothing holding
          exact ⟨s,went,⟨holding.length,holding.curr,fun _ => holding.segments (Nat.succ_pos j)⟩,delivers⟩) rfl
  exact ⟨last,blocks,ran,delivers⟩

end
end MpidtBench.XpmemCached
